import RecordInference.Proofs.Declaration.Renumbering

/-!
# The layout of a declaration

A line that is blank or a comment may be put anywhere into a declaration, and blanks may stand at
the end of any line. `Relaid` is a change of this kind, together with the numbers that the lines
have after it. It leaves what the lines say as it is, apart from the numbers
(`statements_of_relaid`), and so the program that is read, or the fault (`read_of_relaid`).
-/

set_option autoImplicit false

namespace RecordInference.Declaration

open Text

/-- The numbers of lines after one more line was put in front of line `n`. -/
def countedFrom (n line : Nat) : Nat := if line < n then line else line + 1

/-- The second text is the first in another layout: with one more line that says nothing, or with
more blanks at the end of a line. Line `n` of the first text is line `f n` of the second. -/
inductive Relaid : List Char → List Char → (Nat → Nat) → Prop where
  /-- A line in front of another one. -/
  | insert {front raw rest : List Char} (starts : EndsLine front) (whole : '\n' ∉ raw)
      (silent : isSilent (trim raw) = true) :
      Relaid (front ++ rest) (front ++ raw ++ '\n' :: rest) (countedFrom ((lines front).length + 1))
  /-- A last line, where the last line before it has its end. -/
  | append {text raw : List Char} (starts : EndsLine text) (whole : '\n' ∉ raw)
      (silent : isSilent (trim raw) = true) : Relaid text (text ++ raw) id
  /-- A last line, and an end for the last line before it. -/
  | appendLine {text raw : List Char} (whole : '\n' ∉ raw) (silent : isSilent (trim raw) = true) :
      Relaid text (text ++ '\n' :: raw) id
  /-- Blanks in front of the end of a line. -/
  | pad {front blanks rest : List Char} (blank : Blanks blanks) (whole : '\n' ∉ blanks)
      (ends : rest = [] ∨ rest.head? = some '\n' ∨ ['\r', '\n'] <+: rest) :
      Relaid (front ++ rest) (front ++ blanks ++ rest) id

/-! ### Numbers of lines -/

theorem statement?_renumber (f : Nat → Nat) (line : Nat) (raw : List Char) :
    statement? (f line) raw = (statement? line raw).map (Statement.renumber f) := by
  rw [statement?, statement?]
  split
  · rfl
  · rfl

theorem statements_renumber {f : Nat → Nat} {line line' : Nat} {raws : List (List Char)}
    (counts : ∀ i < raws.length, f (line + i) = line' + i) :
    statements line' raws = (statements line raws).map (Statement.renumber f) := by
  induction raws generalizing line line' with
  | nil => rfl
  | cons raw rest ih =>
      have here : f line = line' := counts 0 (Nat.succ_pos _)
      have later : ∀ i < rest.length, f (line + 1 + i) = line' + 1 + i := by
        intro i inside
        have next := counts (i + 1) (Nat.succ_lt_succ inside)
        rwa [Nat.add_comm i 1, ← Nat.add_assoc, ← Nat.add_assoc] at next
      rw [statements, statements, List.map_append, ih later, ← here, statement?_renumber,
        Option.toList_map]

theorem statements_id (line : Nat) (raws : List (List Char)) :
    (statements line raws).map (Statement.renumber id) = statements line raws :=
  (statements_renumber fun _ _ => rfl).symm

/-! ### What a change of layout leaves -/

/-- A silent line changes the numbers of the lines behind it. -/
theorem statements_insert (front rest : List (List Char)) {raw : List Char}
    (silent : isSilent (trim raw) = true) : statements 1 (front ++ raw :: rest) =
      (statements 1 (front ++ rest)).map (Statement.renumber (countedFrom (front.length + 1))) := by
  have before : ∀ i < front.length, countedFrom (front.length + 1) (1 + i) = 1 + i :=
    fun i inside => if_pos (by omega)
  have behind : ∀ i < rest.length,
      countedFrom (front.length + 1) (1 + front.length + i) = 1 + front.length + 1 + i := by
    intro i inside
    rw [countedFrom, if_neg (by omega)]
    omega
  rw [statements_append, statements_append, statements, statement?_of_silent silent,
    Option.toList_none, List.nil_append, List.map_append, ← statements_renumber before,
    ← statements_renumber behind]

/-- What the characters of a line say, and what the lines behind it say. -/
theorem statements_line {raw rest : List Char} (whole : '\n' ∉ raw)
    (ends : rest = [] ∨ rest.head? = some '\n') (line : Nat) :
    statements line (lines (raw ++ rest)) =
      (statement? line raw).toList ++ statements (line + 1) (lines rest.tail) := by
  rcases ends with rfl | ends
  · rw [List.append_nil]
    by_cases more : raw = []
    · subst more
      rfl
    · rw [lines_of_not_mem whole more]
      rfl
  · obtain ⟨rest, rfl⟩ := List.head?_eq_some_iff.1 ends
    rw [lines_append_newline whole, statements, statement?_dropReturn]
    rfl

theorem statements_of_silent {raw : List Char} (whole : '\n' ∉ raw)
    (silent : isSilent (trim raw) = true) (line : Nat) : statements line (lines raw) = [] := by
  have alone := statements_line whole (Or.inl rfl) line
  rw [List.append_nil] at alone
  rw [alone, statement?_of_silent silent]
  rfl

/-- Blanks at the end of a line say nothing, whatever stands in front of the line. -/
theorem statements_pad {front bs bs' rest : List Char} (blank : Blanks bs) (blank' : Blanks bs')
    (whole : '\n' ∉ bs) (whole' : '\n' ∉ bs') (ends : rest = [] ∨ rest.head? = some '\n') :
    statements 1 (lines (front ++ (bs ++ rest))) =
      statements 1 (lines (front ++ (bs' ++ rest))) := by
  obtain ⟨front, raw, rfl, starts, inside⟩ := exists_endsLine_append front
  -- `raw` begins the line that the blanks end, and the line says what `raw` says
  have line : ∀ {bs}, Blanks bs → '\n' ∉ bs → ∀ n, statements n (lines (raw ++ (bs ++ rest))) =
      (statement? n raw).toList ++ statements (n + 1) (lines rest.tail) := by
    intro bs blank whole n
    have inside : '\n' ∉ raw ++ bs := by simp [inside, whole]
    rw [← List.append_assoc, statements_line inside ends, statement?_append_blanks blank]
  rw [List.append_assoc, List.append_assoc, lines_append starts, lines_append starts,
    statements_append, statements_append, line blank whole, line blank' whole']

/-- A change of layout changes what the lines say in nothing but their numbers. -/
theorem statements_of_relaid {text text' : List Char} {f : Nat → Nat} (h : Relaid text text' f) :
    statements 1 (lines text') = (statements 1 (lines text)).map (Statement.renumber f) := by
  cases h with
  | @insert front raw rest starts whole silent =>
      -- the carriage return of a line end is not a part of the line
      have silent : isSilent (trim (dropReturn raw)) = true := by rwa [trim_dropReturn]
      rw [List.append_assoc, lines_append starts, lines_append starts, lines_append_newline whole,
        statements_insert _ _ silent]
  | append starts whole silent =>
      rw [statements_id, lines_append starts, statements_append,
        statements_of_silent whole silent, List.append_nil]
  | @appendLine text raw whole silent =>
      -- the text may have no line end so far, and then its last line gets one
      obtain ⟨front, last, rfl, starts, inside⟩ := exists_endsLine_append text
      have alone := statements_line inside (Or.inl rfl) (1 + (lines front).length)
      have ended := @statements_line last ('\n' :: raw) inside (Or.inr rfl)
        (1 + (lines front).length)
      rw [List.append_nil] at alone
      rw [statements_id, List.append_assoc, lines_append starts, lines_append starts,
        statements_append, statements_append, ended, alone, List.tail_cons,
        statements_of_silent whole silent]
      rfl
  | @pad front blanks rest blank whole ends =>
      rw [statements_id, List.append_assoc]
      have none : Blanks [] := List.forall_mem_nil _
      rcases ends with rfl | ends | ⟨rest, rfl⟩
      · exact statements_pad blank none whole List.not_mem_nil (Or.inl rfl)
      · exact statements_pad blank none whole List.not_mem_nil (Or.inr ends)
      · -- a carriage return in front of a line end is a blank at the end of the line
        have ending : Blanks ['\r'] := List.forall_mem_singleton.2 (by decide)
        have both : '\n' ∉ blanks ++ ['\r'] := by simp [whole]
        have padded := @statements_pad front (blanks ++ ['\r']) ['\r'] ('\n' :: rest)
          (List.forall_mem_append.2 ⟨blank, ending⟩) ending both (by decide) (Or.inr rfl)
        simpa using padded

theorem read_of_relaid {text text' : String} {f : Nat → Nat}
    (h : Relaid text.toList text'.toList f) :
    read text' = (read text).bimap (Fault.renumber f) (Program.renumber f) := by
  have start : ({} : State) = State.renumber f {} := rfl
  rw [read, read, readLines_eq_takeAll, readLines_eq_takeAll, statements_of_relaid h]
  conv_lhs => rw [start, takeAll_renumber]
  exact Except.map_bimap program_renumber

end RecordInference.Declaration
