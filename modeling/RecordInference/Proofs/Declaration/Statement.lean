import RecordInference.Declaration.Reading
import RecordInference.Proofs.Text.Line

/-!
# What a declaration says

Of a line only three things count: its number, its indentation, and its text without the blanks
around it. A `Statement` holds them. Lines that are blank or open with `--` make no statement, so
reading a declaration is taking up its statements one after the other (`readLines_eq_takeAll`).
-/

set_option autoImplicit false

namespace RecordInference.Declaration

open Text

/-- What a line says. -/
structure Statement where
  line : Nat
  indent : Nat
  /-- The text of the line without the blanks around it. -/
  text : List Char
deriving DecidableEq, Repr

/-- What a line says, if it is not silent. -/
def statement? (line : Nat) (raw : List Char) : Option Statement :=
  if isSilent (trim raw) then none else some ⟨line, indent raw, trim raw⟩

/-- What the lines from line number `line` on say. -/
def statements (line : Nat) : List (List Char) → List Statement
  | [] => []
  | raw :: rest => (statement? line raw).toList ++ statements (line + 1) rest

/-- Takes up a statement: a field of the open definition if it stands further to the right than
the header, else a construct, which closes the definition. -/
def State.take (s : State) (st : Statement) : Except Cause State :=
  match s.block with
  | some block =>
    if block.indent < st.indent then do
      let definition ← addField block.definition (← readField st.line st.text)
      return { s with block := some { block with definition } }
    else topLine st.line st.indent st.text s.close
  | none => topLine st.line st.indent st.text s

/-- Takes up statements in their order. -/
def takeAll : List Statement → State → Except Fault State
  | [], s => .ok s
  | st :: rest, s =>
    match s.take st with
    | .error cause => .error ⟨st.line, cause⟩
    | .ok s => takeAll rest s

theorem readLine_of_silent {raw : List Char} (silent : isSilent (trim raw) = true) (line : Nat)
    (s : State) : readLine line raw s = .ok s := by
  simp only [readLine, silent, if_true]

theorem readLine_of_statement {raw : List Char} (loud : ¬ isSilent (trim raw) = true) (line : Nat)
    (s : State) : readLine line raw s = s.take ⟨line, indent raw, trim raw⟩ := by
  cases opened : s.block with
  | none => simp only [readLine, if_neg loud, State.take, opened]
  | some block => simp only [readLine, if_neg loud, State.take, opened]

/-- Reading lines is taking up what they say. -/
theorem readLines_eq_takeAll (line : Nat) (raws : List (List Char)) (s : State) :
    readLines line raws s = takeAll (statements line raws) s := by
  induction raws generalizing line s with
  | nil => rfl
  | cons raw rest ih =>
      rw [readLines, statements, statement?]
      by_cases silent : isSilent (trim raw) = true
      · rw [readLine_of_silent silent, if_pos silent]
        exact ih (line + 1) s
      · rw [readLine_of_statement silent, if_neg silent, Option.toList_some, List.singleton_append,
          takeAll]
        cases s.take ⟨line, indent raw, trim raw⟩ with
        | error cause => rfl
        | ok s' => exact ih (line + 1) s'

/-! ### The lines of a text -/

theorem statements_append (line : Nat) (raws raws' : List (List Char)) :
    statements line (raws ++ raws') =
      statements line raws ++ statements (line + raws.length) raws' := by
  induction raws generalizing line with
  | nil => rfl
  | cons raw rest ih =>
      rw [List.cons_append, statements, ih, statements, List.append_assoc, List.length_cons,
        Nat.add_assoc, Nat.add_comm 1]

/-- A silent line says nothing. -/
theorem statement?_of_silent {raw : List Char} (silent : isSilent (trim raw) = true) (line : Nat) :
    statement? line raw = none := if_pos silent

/-- Blanks at the end of a line say nothing. -/
theorem statement?_append_blanks {bs : List Char} (h : Blanks bs) (line : Nat) (raw : List Char) :
    statement? line (raw ++ bs) = statement? line raw := by
  rw [statement?, statement?, trim_append_blanks h]
  split
  · rfl
  · next loud =>
    have more : ¬ Blanks raw := by
      intro blank
      rw [trim_eq_nil_iff.2 blank] at loud
      exact loud rfl
    rw [indent_append_blanks more]

theorem statement?_dropReturn (line : Nat) (raw : List Char) :
    statement? line (dropReturn raw) = statement? line raw := by
  obtain ⟨bs, blank, eq⟩ := exists_eq_dropReturn_append raw
  conv_rhs => rw [eq, statement?_append_blanks blank]

end RecordInference.Declaration
