import RecordInference.Prompt.Examples
import RecordInference.Proofs.Outcome
import RecordInference.Proofs.Text.Word

/-!
# Sections of an example set

A section of a text is a line with a label and the lines without a label below it, up to the next
label; so each of its lines has the label of the section as the nearest one above (`sections`).
Blank lines belong to no section.

What a line does to the examples read so far is told once (`Takes`). From it, the sections of a text
that is read are those of its examples, two by two and in their order, with nothing left out
(`sections_of_read`). An example has the lines of its own two sections as its input and output,
unless its input comes second and has more lines: these go to the output.
-/

set_option autoImplicit false

namespace RecordInference.Example

open Text

variable {line opening : List Char} {s s' : State}

/-! ### Labels -/

/-- What a line with a label is about. -/
inductive Label where
  | input
  | output
deriving DecidableEq, Repr

/-- The text of a label. -/
def Label.word : Label → String
  | input => "INPUT:"
  | output => "OUTPUT:"

/-- The label of a line, and what follows it. -/
def label? (line : List Char) : Option (Label × List Char) :=
  match afterLabel? Label.input.word line with
  | some opening => some (.input, opening)
  | none => (afterLabel? Label.output.word line).map fun opening => (.output, opening)

theorem label?_nil : label? [] = none := rfl

theorem ne_nil_of_label? {labelled : Label × List Char} (h : label? line = some labelled) :
    line ≠ [] := by
  rintro rfl
  cases h

/-- What follows a label has no blanks around it. -/
theorem trim_of_label? {label : Label} (h : label? line = some (label, opening)) :
    trim opening = opening := by
  have after : ∀ {word : String}, afterLabel? word line = some opening →
      trim opening = opening := by
    intro word found
    simp only [afterLabel?] at found
    split at found
    · cases found
      exact trim_trim _
    · cases found
  rw [label?] at h
  split at h
  · next found =>
    cases h
    exact after found
  · obtain ⟨rest, found, same⟩ := Option.map_eq_some_iff.1 h
    cases same
    exact after found

/-! ### What a line does -/

/-- An example of the texts of its sections. -/
def ofTexts (input output : List Char) : Example :=
  ⟨String.ofList (trim input), String.ofList (trim output)⟩

/-- What a line does to the examples so far and to the open sections. -/
inductive Takes : State → List Char → State → Prop
  | silent (done : List Example) : Takes ⟨done, none, none⟩ [] ⟨done, none, none⟩
  | finish (done : List Example) (i o : List Char) :
      Takes ⟨done, some i, some o⟩ [] ⟨done ++ [ofTexts i o], none, none⟩
  | input {line opening : List Char} (done : List Example) (output : Option (List Char))
      (labelled : label? line = some (.input, opening)) :
      Takes ⟨done, none, output⟩ line ⟨done, some opening, output⟩
  | next {line opening : List Char} (done : List Example) (i o : List Char)
      (labelled : label? line = some (.input, opening)) :
      Takes ⟨done, some i, some o⟩ line ⟨done ++ [ofTexts i o], some opening, none⟩
  | output {line opening : List Char} (done : List Example) (input : Option (List Char))
      (labelled : label? line = some (.output, opening)) :
      Takes ⟨done, input, none⟩ line ⟨done, input, some opening⟩
  | moreInput {line : List Char} (done : List Example) (i : List Char) (more : line ≠ [])
      (plain : label? line = none) :
      Takes ⟨done, some i, none⟩ line ⟨done, some (i ++ '\n' :: line), none⟩
  | moreOutput {line : List Char} (done : List Example) (input : Option (List Char))
      (o : List Char) (more : line ≠ []) (plain : label? line = none) :
      Takes ⟨done, input, some o⟩ line ⟨done, input, some (o ++ '\n' :: line)⟩

/-- A line is taken up by its label. -/
theorem line_eq (more : line ≠ []) (s : State) : s.line line =
    match label? line with
    | some (.input, opening) => do
      let s ← if s.input.isSome then s.finish else .ok s
      return { s with input := some opening }
    | some (.output, opening) =>
      if s.output.isSome then .error (.twoOutputs s.number)
      else .ok { s with output := some opening }
    | none =>
      match s.output, s.input with
      | some o, _ => .ok { s with output := some (o ++ '\n' :: line) }
      | none, some i => .ok { s with input := some (i ++ '\n' :: line) }
      | none, none => .error (.noLabel (String.ofList line)) := by
  simp only [State.line, List.isEmpty_eq_false_iff.2 more, Bool.false_eq_true, if_false, label?,
    Label.word]
  cases afterLabel? "INPUT:" line with
  | some opening => rfl
  | none =>
      cases afterLabel? "OUTPUT:" line with
      | some opening => rfl
      | none => rfl

theorem line_eq_ok_iff : s.line line = .ok s' ↔ Takes s line s' := by
  constructor
  · intro taken
    obtain ⟨done, input, output⟩ := s
    -- the line comes first, and then which sections are open
    by_cases blank : line = []
    · subst blank
      cases input with
      | none =>
          cases output with
          | none =>
              cases taken
              exact .silent done
          | some o => cases taken
      | some i =>
          cases output with
          | none => cases taken
          | some o =>
              cases taken
              exact .finish done i o
    · rw [line_eq blank] at taken
      cases labelled : label? line with
      | none =>
          rw [labelled] at taken
          cases output with
          | some o =>
              cases taken
              exact .moreOutput done input o blank labelled
          | none =>
              cases input with
              | some i =>
                  cases taken
                  exact .moreInput done i blank labelled
              | none => cases taken
      | some found =>
          obtain ⟨label, opening⟩ := found
          rw [labelled] at taken
          cases label with
          | input =>
              cases input with
              | none =>
                  cases taken
                  exact .input done output labelled
              | some i =>
                  cases output with
                  | none => cases taken
                  | some o =>
                      cases taken
                      exact .next done i o labelled
          | output =>
              cases output with
              | some o => cases taken
              | none =>
                  cases taken
                  exact .output done input labelled
  · intro takes
    cases takes with
    | silent | finish => rfl
    | input _ _ labelled | next _ _ _ labelled | output _ _ labelled =>
        rw [line_eq (ne_nil_of_label? labelled), labelled]
        rfl
    | moreInput _ _ more plain | moreOutput _ _ _ more plain => rw [line_eq more, plain]

/-! ### Sections -/

/-- A section: its label, what follows the label on the same line, and the lines below. -/
structure Section where
  label : Label
  opening : List Char
  more : List (List Char)
deriving DecidableEq, Repr

/-- A text with lines below it. -/
def below (cs : List Char) (lines : List (List Char)) : List Char :=
  cs ++ lines.flatMap ('\n' :: ·)

/-- The text of a section. -/
def Section.text (s : Section) : List Char := below s.opening s.more

/-- The lines in front of all labels, and the sections behind them. -/
def sections : List (List Char) → List (List Char) × List Section
  | [] => ([], [])
  | line :: rest =>
    if line.isEmpty then sections rest
    else
      match label? line with
      | some (label, opening) => ([], ⟨label, opening, (sections rest).1⟩ :: (sections rest).2)
      | none => (line :: (sections rest).1, (sections rest).2)

/-- What a line says: its label, if it has one, and the text behind it. -/
def content (line : List Char) : Option Label × List Char :=
  match label? line with
  | some (label, opening) => (some label, opening)
  | none => (none, line)

/-- What the lines of a section say. -/
def Section.contents (s : Section) : List (Option Label × List Char) :=
  (some s.label, s.opening) :: s.more.map (none, ·)

theorem sections_nil_cons (lines : List (List Char)) : sections ([] :: lines) = sections lines := rfl

theorem sections_of_label? {label : Label} (labelled : label? line = some (label, opening))
    (lines : List (List Char)) : sections (line :: lines) =
      ([], ⟨label, opening, (sections lines).1⟩ :: (sections lines).2) := by
  rw [sections, List.isEmpty_eq_false_iff.2 (ne_nil_of_label? labelled),
    if_neg Bool.false_ne_true, labelled]

theorem sections_of_plain (more : line ≠ []) (plain : label? line = none)
    (lines : List (List Char)) : sections (line :: lines) =
      (line :: (sections lines).1, (sections lines).2) := by
  rw [sections, List.isEmpty_eq_false_iff.2 more, if_neg Bool.false_ne_true, plain]

/-- The lines in front and those of the sections are all the lines that are not blank. -/
theorem map_content (lines : List (List Char)) :
    (lines.filter fun line => !line.isEmpty).map content =
      (sections lines).1.map (none, ·) ++ (sections lines).2.flatMap Section.contents := by
  induction lines with
  | nil => rfl
  | cons line rest ih =>
      by_cases blank : line = []
      · subst blank
        rw [sections_nil_cons]
        exact ih
      · have kept : (!line.isEmpty) = true := by simpa using blank
        rw [List.filter_cons_of_pos (p := fun line : List Char => !line.isEmpty) kept,
          List.map_cons, ih, content]
        cases labelled : label? line with
        | none =>
            rw [sections_of_plain blank labelled]
            rfl
        | some found =>
            rw [sections_of_label? labelled]
            rfl

/-- What is behind a label and in the lines below it comes from the lines. -/
theorem mem_more_sections (lines : List (List Char)) :
    (∀ line ∈ (sections lines).1, line ∈ lines ∧ line ≠ []) ∧
      ∀ s ∈ (sections lines).2, trim s.opening = s.opening ∧
        ∀ line ∈ s.more, line ∈ lines ∧ line ≠ [] := by
  induction lines with
  | nil => exact ⟨List.forall_mem_nil _, List.forall_mem_nil _⟩
  | cons line rest ih =>
      obtain ⟨front, each⟩ := ih
      have further : ∀ {line' : List Char}, line' ∈ rest ∧ line' ≠ [] →
          line' ∈ line :: rest ∧ line' ≠ [] := fun h => h.imp_left (List.mem_cons_of_mem line)
      have others : ∀ s ∈ (sections rest).2, trim s.opening = s.opening ∧
          ∀ line' ∈ s.more, line' ∈ line :: rest ∧ line' ≠ [] := fun s member =>
        (each s member).imp_right fun lines line' inside => further (lines line' inside)
      by_cases blank : line = []
      · subst blank
        exact ⟨fun line' member => further (front line' member), others⟩
      · cases labelled : label? line with
        | none =>
            rw [sections_of_plain blank labelled]
            refine ⟨List.forall_mem_cons.2 ⟨⟨List.mem_cons_self, blank⟩, ?_⟩, others⟩
            exact fun line' member => further (front line' member)
        | some found =>
            rw [sections_of_label? labelled]
            refine ⟨List.forall_mem_nil _, List.forall_mem_cons.2 ⟨⟨?_, ?_⟩, others⟩⟩
            · exact trim_of_label? labelled
            · exact fun line' member => further (front line' member)

/-! ### Examples of sections -/

/-- Whether sections are two by two those of examples, in their order. -/
inductive Paired (R : Section → Section → Example → Prop) : List Section → List Example → Prop
  | nil : Paired R [] []
  | cons {first second : Section} {rest : List Section} {e : Example} {es : List Example}
      (here : R first second e) (later : Paired R rest es) :
      Paired R (first :: second :: rest) (e :: es)

/-- Whether an example has the text of its input section as its input, and that of its output section
as its output. -/
def Faithful (first second : Section) (e : Example) : Prop :=
  first.label = .input ∧ second.label = .output ∧ e = ofTexts first.text second.text ∨
    first.label = .output ∧ second.label = .input ∧ e = ofTexts second.text first.text

/-- What is made of two sections. The lines below an input that comes second go to the output. -/
inductive Made : Section → Section → Example → Prop
  | inputFirst (i o : List Char) (lines lines' : List (List Char)) :
      Made ⟨.input, i, lines⟩ ⟨.output, o, lines'⟩ (ofTexts (below i lines) (below o lines'))
  | outputFirst (o i : List Char) (lines lines' : List (List Char)) :
      Made ⟨.output, o, lines⟩ ⟨.input, i, lines'⟩ (ofTexts i (below o (lines ++ lines')))

theorem Paired.mono_of {R R' : Section → Section → Example → Prop} {secs : List Section}
    {es : List Example} (h : Paired R secs es)
    (mono : ∀ first second e, second ∈ secs → R first second e → R' first second e) :
    Paired R' secs es := by
  induction h with
  | nil => exact .nil
  | cons here later ih =>
      refine .cons (mono _ _ _ (List.mem_cons_of_mem _ List.mem_cons_self) here) ?_
      apply ih
      intro first second e member
      exact mono first second e (List.mem_cons_of_mem _ (List.mem_cons_of_mem _ member))

theorem below_nil (cs : List Char) : below cs [] = cs := List.append_nil cs

theorem below_cons (cs line : List Char) (lines : List (List Char)) :
    below cs (line :: lines) = below (cs ++ '\n' :: line) lines := by
  rw [below, below, List.flatMap_cons, List.append_assoc]

/-- A line that is added to the text of the first section of two is one of its lines. -/
theorem Paired.of_line {label : Label} {cs line : List Char} {lines : List (List Char)}
    {secs : List Section} {es : List Example}
    (h : Paired Made (⟨label, cs ++ '\n' :: line, lines⟩ :: secs) es) :
    Paired Made (⟨label, cs, line :: lines⟩ :: secs) es := by
  cases h with
  | cons here later =>
      cases here with
      | inputFirst _ o _ lines' =>
          refine .cons ?_ later
          rw [← below_cons]
          exact .inputFirst cs o (line :: lines) lines'
      | outputFirst _ i _ lines' =>
          refine .cons ?_ later
          rw [← below_cons, ← List.cons_append]
          exact .outputFirst cs i (line :: lines) lines'

/-- What the examples are once lines are read that have these lines in front of all labels, and these
sections behind them. -/
inductive Ends : State → List (List Char) → List Section → List Example → Prop
  | idle (done : List Example) {secs : List Section} {later : List Example}
      (pairs : Paired Made secs later) : Ends ⟨done, none, none⟩ [] secs (done ++ later)
  | input (done : List Example) (i : List Char) (lines : List (List Char)) {secs : List Section}
      {later : List Example} (pairs : Paired Made (⟨.input, i, lines⟩ :: secs) later) :
      Ends ⟨done, some i, none⟩ lines secs (done ++ later)
  | output (done : List Example) (o : List Char) (lines : List (List Char)) {secs : List Section}
      {later : List Example} (pairs : Paired Made (⟨.output, o, lines⟩ :: secs) later) :
      Ends ⟨done, none, some o⟩ lines secs (done ++ later)
  | both (done : List Example) (i o : List Char) (lines : List (List Char)) {secs : List Section}
      {later : List Example} (pairs : Paired Made secs later) :
      Ends ⟨done, some i, some o⟩ lines secs (done ++ ofTexts i (below o lines) :: later)

variable {lines : List (List Char)} {secs : List Section} {es : List Example}

/-- A blank line ends the open example, if there is one. -/
theorem Takes.ends_blank (takes : Takes s [] s') (ends : Ends s' lines secs es) :
    Ends s lines secs es := by
  cases takes with
  | silent => exact ends
  | finish done i o =>
      cases ends with
      | idle _ pairs =>
          rw [List.append_assoc, List.singleton_append]
          have ends := Ends.both done i o [] pairs
          rwa [below_nil] at ends
  | input _ _ labelled | next _ _ _ labelled | output _ _ labelled => cases labelled
  | moreInput _ _ more | moreOutput _ _ _ more => exact absurd rfl more

/-- A line with a label opens a section, which has the lines behind it up to the next label. -/
theorem Takes.ends_labelled {label : Label} (labelled : label? line = some (label, opening))
    (takes : Takes s line s') (ends : Ends s' lines secs es) :
    Ends s [] (⟨label, opening, lines⟩ :: secs) es := by
  cases takes with
  | silent | finish => cases labelled
  | moreInput _ _ _ plain | moreOutput _ _ _ _ plain => cases labelled.symm.trans plain
  | input done output labelled' =>
      cases labelled.symm.trans labelled'
      cases ends with
      | input _ _ _ pairs => exact .idle done pairs
      | both _ _ o _ pairs =>
          -- the input stands below the output, and the lines behind it go there
          exact .output done o [] (.cons (.outputFirst o opening [] lines) pairs)
  | next done i o labelled' =>
      cases labelled.symm.trans labelled'
      cases ends with
      | input _ _ _ pairs =>
          rw [List.append_assoc, List.singleton_append]
          have ends := Ends.both done i o [] pairs
          rwa [below_nil] at ends
  | output done input labelled' =>
      cases labelled.symm.trans labelled'
      cases ends with
      | output _ _ _ pairs => exact .idle done pairs
      | both _ i _ _ pairs =>
          have made := Made.inputFirst i opening [] lines
          rw [below_nil] at made
          exact .input done i [] (.cons made pairs)

/-- A line without a label goes to an open section. -/
theorem Takes.ends_plain (more : line ≠ []) (plain : label? line = none) (takes : Takes s line s')
    (ends : Ends s' lines secs es) : Ends s (line :: lines) secs es := by
  cases takes with
  | silent | finish => exact absurd rfl more
  | input _ _ labelled | next _ _ _ labelled | output _ _ labelled =>
      cases plain.symm.trans labelled
  | moreInput done i =>
      cases ends with
      | input _ _ _ pairs => exact .input done i _ pairs.of_line
  | moreOutput done input o =>
      cases ends with
      | output _ _ _ pairs => exact .output done o _ pairs.of_line
      | both _ i _ _ pairs =>
          -- with both sections open it is always the output
          rw [← below_cons]
          exact .both done i o (line :: lines) pairs

/-- The examples are finished as those of the sections of the lines that are left. -/
theorem ends_of_lines {raws : List (List Char)} (taken : State.lines raws s = .ok s')
    (finished : s'.finish = .ok ⟨es, none, none⟩) :
    Ends s (sections (raws.map trim)).1 (sections (raws.map trim)).2 es := by
  -- from the end: a line goes in front of what the lines behind it come to
  induction raws generalizing s with
  | nil =>
      cases taken
      have last : Takes s' [] ⟨es, none, none⟩ := line_eq_ok_iff.1 finished
      apply last.ends_blank
      have read := Ends.idle es .nil
      rwa [List.append_nil] at read
  | cons raw rest ih =>
      obtain ⟨s₁, first, others⟩ := Except.bind_eq_ok_iff.1 taken
      have takes := line_eq_ok_iff.1 first
      have ends := ih others
      rw [List.map_cons]
      by_cases blank : trim raw = []
      · rw [blank] at takes ⊢
        exact takes.ends_blank ends
      · cases labelled : label? (trim raw) with
        | none =>
            rw [sections_of_plain blank labelled]
            exact takes.ends_plain blank labelled ends
        | some found =>
            rw [sections_of_label? labelled]
            exact takes.ends_labelled labelled ends

/-! ### Examples of a text that is read -/

/-- A trimmed text with trimmed lines below it is trimmed. -/
theorem trimmed_below {cs : List Char} (opening : Trimmed cs)
    (each : ∀ line ∈ lines, Trimmed line) : Trimmed (below cs lines) := by
  rcases List.eq_nil_or_concat' lines with rfl | ⟨front, last, rfl⟩
  · rwa [below_nil]
  · have final : Trimmed last := each last (List.mem_append_right _ (List.mem_singleton_self last))
    have ends := final.append opening (front.flatMap ('\n' :: ·) ++ ['\n'])
    simpa [below] using ends

/-- Lines below a text that has no blanks around it are part of it once the blanks are gone. -/
theorem trim_below_ne {cs : List Char} (trimmed : trim cs = cs) (some : lines ≠ [])
    (each : ∀ line ∈ lines, Trimmed line) : trim (below cs lines) ≠ trim cs := by
  obtain ⟨line, others, rfl⟩ := List.exists_cons_of_ne_nil some
  intro same
  by_cases blank : cs = []
  · -- nothing is in front, and the first line is left
    subst blank
    have blanks := trim_eq_nil_iff.1 same
    apply (each line List.mem_cons_self).not_blanks
    intro c member
    exact blanks c (List.mem_cons_of_mem _ (List.mem_append_left _ member))
  · rw [(trimmed_below ⟨blank, trimmed⟩ each).2, trimmed] at same
    have lengths := congrArg List.length same
    simp only [below, List.flatMap_cons, List.length_append, List.length_cons] at lengths
    omega

/-- What is made of two sections has their texts, unless lines stand below an input that comes
second. -/
theorem Made.faithful_iff {first second : Section} {e : Example} (made : Made first second e)
    (trimmed : trim second.opening = second.opening)
    (each : ∀ line ∈ second.more, Trimmed line) :
    Faithful first second e ↔ ¬ (first.label = .output ∧ second.more ≠ []) := by
  cases made with
  | inputFirst i o lines lines' =>
      have own : Faithful ⟨.input, i, lines⟩ ⟨.output, o, lines'⟩
          (ofTexts (below i lines) (below o lines')) := .inl ⟨rfl, rfl, rfl⟩
      refine iff_of_true own ?_
      rintro ⟨other, -⟩
      cases other
  | outputFirst o i lines lines' =>
      constructor
      · rintro faithful ⟨-, more⟩
        rcases faithful with ⟨other, -⟩ | ⟨-, -, same⟩
        · cases other
        · -- the input would have the lines below it
          obtain ⟨inputs, -⟩ := Example.mk.inj same
          exact trim_below_ne trimmed more each (String.ofList_inj.1 inputs).symm
      · intro complete
        have none : lines' = [] := by_contra fun more => complete ⟨rfl, more⟩
        subst none
        refine .inr ⟨rfl, rfl, ?_⟩
        rw [List.append_nil, Section.text, Section.text, below_nil]

/-- No section is open once the examples are finished. -/
theorem eq_of_finish (finished : s.finish = .ok s') : s' = ⟨s'.done, none, none⟩ := by
  have taken : Takes s [] s' := line_eq_ok_iff.1 finished
  cases taken with
  | silent | finish => rfl
  | input _ _ labelled | next _ _ _ labelled | output _ _ labelled => cases labelled
  | moreInput _ _ more | moreOutput _ _ _ more => exact absurd rfl more

/-- A text is read line by line from the start, and finished. -/
theorem exists_of_read {text : String} {examples : List Example}
    (accepted : read text = .ok examples) :
    ∃ s, State.lines (Text.lines text.toList) {} = .ok s ∧
      s.finish = .ok ⟨examples, none, none⟩ := by
  obtain ⟨s, taken, rest⟩ := Except.bind_eq_ok_iff.1 accepted
  obtain ⟨s', finished, done⟩ := Except.bind_eq_ok_iff.1 rest
  refine ⟨s, taken, ?_⟩
  rw [finished, eq_of_finish finished]
  split at done
  · cases done
  · cases done
    rfl

/-- The sections of a text. -/
def sectionsOf (text : String) : List Section := (sections ((Text.lines text.toList).map trim)).2

/-- The examples of a text that is read are those of its sections, two by two and in their order. The
sections have all that the lines say, each line that of the nearest label above. An example has the
texts of its own two sections, unless lines stand below an input that comes second: these are at the
end of its output. -/
theorem sections_of_read {text : String} {examples : List Example}
    (accepted : read text = .ok examples) :
    (((Text.lines text.toList).map trim).filter fun line => !line.isEmpty).map content =
        (sectionsOf text).flatMap Section.contents ∧
      Paired (fun first second e => Made first second e ∧
          (Faithful first second e ↔ ¬ (first.label = .output ∧ second.more ≠ [])))
        (sectionsOf text) examples := by
  obtain ⟨s, taken, finished⟩ := exists_of_read accepted
  have ends := ends_of_lines taken finished
  have origin := (mem_more_sections ((Text.lines text.toList).map trim)).2
  generalize front : (sections ((Text.lines text.toList).map trim)).1 = loose at ends
  -- nothing is open at the start, so no line stands in front of all labels
  cases ends with
  | idle _ pairs =>
      constructor
      · rw [map_content, front]
        rfl
      · apply pairs.mono_of
        intro first second e member made
        refine ⟨made, ?_⟩
        obtain ⟨trimmed, each⟩ := origin second member
        apply made.faithful_iff trimmed
        intro line inside
        obtain ⟨there, more⟩ := each line inside
        obtain ⟨raw, -, rfl⟩ := List.mem_map.1 there
        exact .of_trim more

theorem sections_of_read_sample :
    read "INPUT: a\nb\noutput:\nc\n\nOUTPUT: d\nINPUT: e" =
        .ok [⟨"a\nb", "c"⟩, ⟨"e", "d"⟩] ∧
      (sectionsOf "INPUT: a\nb\noutput:\nc\n\nOUTPUT: d\nINPUT: e").flatMap Section.contents =
        [(some .input, ['a']), (none, ['b']), (some .output, []), (none, ['c']),
          (some .output, ['d']), (some .input, ['e'])] :=
  have accepted : read "INPUT: a\nb\noutput:\nc\n\nOUTPUT: d\nINPUT: e" =
      .ok [⟨"a\nb", "c"⟩, ⟨"e", "d"⟩] := by decide +kernel
  ⟨accepted, (sections_of_read accepted).1.symm.trans (by decide +kernel)⟩

/-- The line below an input that comes second is read, and is in the output. -/
theorem not_faithful_below_second_input :
    read "OUTPUT: x\nINPUT: y\nmore" = .ok [⟨"y", "x\nmore"⟩] ∧
      ¬ Paired Faithful (sectionsOf "OUTPUT: x\nINPUT: y\nmore") [⟨"y", "x\nmore"⟩] := by
  refine ⟨by decide +kernel, ?_⟩
  have two : sectionsOf "OUTPUT: x\nINPUT: y\nmore" =
      [⟨.output, ['x'], []⟩, ⟨.input, ['y'], ["more".toList]⟩] := by decide +kernel
  rw [two]
  intro paired
  cases paired with
  | cons faithful =>
      rcases faithful with ⟨other, -⟩ | ⟨-, -, same⟩
      · cases other
      · exact absurd same (by decide +kernel)

end RecordInference.Example
