import RecordInference.Proofs.Prompt.Section
import RecordInference.Proofs.Text.Line

/-!
# Written example sets

An example is written as its input behind an input label and, on the next line, its output behind an
output label (`ExampleWritten`). Examples are written one below the other, with blank lines in front of
them, between them and behind them (`Written`). What is written so is read as the examples it was
written from (`read_of_written_examples`), if the lines of an input or output have no blanks around them and
none but its first looks like a labelled one (`IsSection`).

Line ends are taken at `\n` alone here (`finish_lines`): a carriage return in front of one is a blank
at the end of a line, and an empty line behind the last one leaves nothing to finish.
-/

set_option autoImplicit false

namespace RecordInference.Example

open Text

variable {label : Label} {w line opening cs : List Char} {lines : List (List Char)} {s s' : State}
  {e : Example} {es : List Example}

/-! ### What is written -/

/-- Whether a line opens with a label, in whatever case. -/
def Labelled (line : List Char) : Prop :=
  ∃ (label : Label) (w rest : List Char), isWord label.word w = true ∧ line = w ++ rest

/-- Whether a text may be an input or output: it is empty, or it has lines without blanks around them,
and none behind the first opens with a label. -/
def IsSection (cs : List Char) : Prop :=
  cs = [] ∨ (∀ line ∈ splitOn '\n' cs, Trimmed line) ∧
    ∀ line ∈ (splitOn '\n' cs).tail, ¬ Labelled line

/-- Whether an example can be written. -/
structure Writable (e : Example) : Prop where
  input : IsSection e.input.toList
  output : IsSection e.output.toList

/-- A text behind a label, with blanks of the same line between them. -/
inductive SectionWritten (label : Label) (cs : List Char) : List Char → Prop
  | intro {w bs : List Char} (word : isWord label.word w = true) (blank : Blanks bs)
      (same : '\n' ∉ bs) : SectionWritten label cs (w ++ bs ++ cs)

/-- An example as its input and, on the next line, its output. -/
inductive ExampleWritten (e : Example) : List Char → Prop
  | intro {input output : List Char} (first : SectionWritten .input e.input.toList input)
      (second : SectionWritten .output e.output.toList output) :
      ExampleWritten e (input ++ '\n' :: output)

/-- Examples one below the other, with or without blank lines around them. -/
inductive Written : List Example → List Char → Prop
  | one {e : Example} {cs : List Char} (here : ExampleWritten e cs) : Written [e] cs
  | cons {e : Example} {es : List Example} {cs more : List Char} (here : ExampleWritten e cs)
      (others : Written es more) : Written (e :: es) (cs ++ '\n' :: more)
  | inFront {es : List Example} {gap cs : List Char} (blank : Blanks gap) (others : Written es cs) :
      Written es (gap ++ '\n' :: cs)
  | behind {es : List Example} {cs gap : List Char} (others : Written es cs) (blank : Blanks gap) :
      Written es (cs ++ '\n' :: gap)

theorem Written.ne_nil (written : Written es cs) : es ≠ [] := by
  induction written with
  | one | cons => exact List.cons_ne_nil _ _
  | inFront _ _ ih | behind _ _ ih => exact ih

/-! ### Labels in whatever case -/

theorem afterLabel?_append {word : String} (here : isWord word w = true) (rest : List Char) :
    afterLabel? word (w ++ rest) = some (trim rest) := by
  have same : upper w = word.toList := by simpa [isWord] using here
  have long : word.length = w.length := by
    rw [← String.length_toList, ← same, upper, List.length_map]
  rw [afterLabel?, long, List.take_left, List.drop_left, if_pos here]

theorem label?_append (word : isWord label.word w = true) (rest : List Char) :
    label? (w ++ rest) = some (label, trim rest) := by
  rw [label?]
  cases label with
  | input => rw [afterLabel?_append word]
  | output =>
      have same : upper w = "OUTPUT:".toList := by simpa [isWord, Label.word] using word
      -- the characters in front are no input label
      have other : afterLabel? Label.input.word (w ++ rest) = none := by
        have long : w.length = 7 := by simpa [upper] using congrArg List.length same
        have front : upper ((w ++ rest).take 6) = "OUTPUT".toList := by
          rw [List.take_append_of_le_length (by omega), upper, List.map_take, ← upper, same]
          rfl
        rw [afterLabel?, if_neg]
        show ¬ isWord "INPUT:" ((w ++ rest).take 6) = true
        rw [isWord, front]
        decide
      rw [other, afterLabel?_append word]
      rfl

theorem Labelled.of_label? (h : label? line = some (label, opening)) : Labelled line := by
  have front : ∀ {label : Label} {opening : List Char},
      afterLabel? label.word line = some opening → Labelled line := by
    intro label opening found
    simp only [afterLabel?] at found
    split at found
    · next word => exact ⟨label, _, _, word, (List.take_append_drop _ line).symm⟩
    · cases found
  rw [label?] at h
  split at h
  · next found => exact front found
  · obtain ⟨rest, found, -⟩ := Option.map_eq_some_iff.1 h
    exact front found

/-- A line is labelled if a label is found. -/
theorem isSome_label?_iff : (label? line).isSome = true ↔ Labelled line := by
  constructor
  · intro found
    obtain ⟨labelled, found⟩ := Option.isSome_iff_exists.1 found
    exact .of_label? found
  · rintro ⟨label, w, rest, word, rfl⟩
    rw [label?_append word]
    rfl

theorem label?_eq_none (plain : ¬ Labelled line) : label? line = none := by
  rw [← isSome_label?_iff] at plain
  exact Option.not_isSome_iff_eq_none.1 plain

instance (line : List Char) : Decidable (Labelled line) := decidable_of_iff _ isSome_label?_iff

instance (cs : List Char) : Decidable (IsSection cs) :=
  inferInstanceAs (Decidable (cs = [] ∨ _ ∧ _))

instance (e : Example) : Decidable e.Writable :=
  decidable_of_iff (IsSection e.input.toList ∧ IsSection e.output.toList)
    ⟨fun h => ⟨h.1, h.2⟩, fun h => ⟨h.input, h.output⟩⟩

theorem solid_of_isWord (word : isWord label.word w = true) : Solid w := by
  apply Solid.of_isWord word
  cases label with
  | input => decide
  | output => decide

/-- A label is read together with what follows it, less the blanks around that. -/
theorem label?_trim (word : isWord label.word w = true) (rest : List Char) :
    label? (trim (w ++ rest)) = some (label, trim rest) := by
  have solid := solid_of_isWord word
  have kept : trim (w ++ rest) = w ++ trimEnd rest := by
    by_cases blank : Blanks rest
    · rw [trim_append_blanks blank, solid.trimmed.2, trimEnd_eq_nil_iff.2 blank, List.append_nil]
    · rw [trim, solid.trimStart_append, trimEnd_append blank]
  obtain ⟨bs, blank, split⟩ := exists_trimEnd_append rest
  have both : trim (trimEnd rest) = trim rest := by
    conv_rhs => rw [← split, trim_append_blanks blank]
  rw [kept, label?_append word, both]

/-! ### Lines of an input or output -/

theorem below_eq_intercalate (cs : List Char) (lines : List (List Char)) :
    below cs lines = ['\n'].intercalate (cs :: lines) := by
  induction lines generalizing cs with
  | nil => rw [below_nil, List.intercalate_singleton]
  | cons line rest ih =>
      rw [List.intercalate_cons_cons, ← ih, below, below, List.flatMap_cons, List.append_assoc,
        List.singleton_append, List.cons_append]

/-- An input or output is its first line with the others below it. -/
theorem IsSection.exists_below (proper : IsSection cs) :
    ∃ first more, splitOn '\n' cs = first :: more ∧ below first more = cs ∧
      (cs = [] ∨ Trimmed first) ∧ ∀ line ∈ more, Trimmed line ∧ ¬ Labelled line := by
  obtain ⟨first, more, split⟩ := List.exists_cons_of_ne_nil (splitOn_ne_nil '\n' cs)
  have whole : below first more = cs := by
    rw [below_eq_intercalate, ← split, intercalate_splitOn]
  refine ⟨first, more, split, whole, ?_⟩
  rcases proper with rfl | ⟨trimmed, plain⟩
  · cases split
    exact ⟨.inl rfl, List.forall_mem_nil _⟩
  · rw [split] at trimmed plain
    obtain ⟨here, others⟩ := List.forall_mem_cons.1 trimmed
    exact ⟨.inr here, fun line member => ⟨others line member, plain line member⟩⟩

/-- An input or output has no blanks around it. -/
theorem IsSection.trim_eq (proper : IsSection cs) : trim cs = cs := by
  obtain ⟨first, more, -, rfl, opening, each⟩ := proper.exists_below
  rcases opening with none | opening
  · rw [none]
    rfl
  · exact (trimmed_below opening fun line member => (each line member).1).2

/-! ### Runs over lines -/

theorem lines_append (front rest : List (List Char)) (s : State) :
    State.lines (front ++ rest) s = State.lines front s >>= State.lines rest := by
  induction front generalizing s with
  | nil => rfl
  | cons line front ih =>
      rw [List.cons_append, State.lines, State.lines, bind_assoc]
      exact bind_congr ih

/-- An example is finished once. -/
theorem finish_finish (s : State) : s.finish >>= State.finish = s.finish := by
  obtain ⟨done, input, output⟩ := s
  cases input with
  | none =>
      cases output with
      | none => rfl
      | some o => rfl
  | some i =>
      cases output with
      | none => rfl
      | some o => rfl

/-- Once examples are finished, a text is read by its pieces between line ends. -/
theorem finish_lines (cs : List Char) (s : State) :
    State.lines (Text.lines cs) s >>= State.finish =
      State.lines (splitOn '\n' cs) s >>= State.finish := by
  have whole : ∀ piece ∈ splitOn '\n' cs, '\n' ∉ piece := fun _ => not_mem_of_mem_splitOn
  rw [← intercalate_splitOn '\n' cs, splitOn_intercalate (splitOn_ne_nil '\n' cs) whole]
  generalize splitOn '\n' cs = pieces at whole
  -- line by line, less the carriage returns; only an empty last piece is no line
  induction pieces generalizing s with
  | nil => rfl
  | cons piece rest ih =>
      obtain ⟨here, others⟩ := List.forall_mem_cons.1 whole
      cases rest with
      | nil =>
          rw [List.intercalate_singleton]
          by_cases blank : piece = []
          · -- as a line it would finish the examples, and they are finished anyway
            subst blank
            exact (finish_finish s).symm.trans (congrArg (· >>= State.finish)
              (bind_pure (s.line [])).symm)
          · rw [lines_of_not_mem here blank]
      | cons next rest =>
          rw [List.intercalate_cons_cons, List.append_assoc, List.singleton_append,
            lines_append_newline here, State.lines, State.lines, trim_dropReturn, bind_assoc,
            bind_assoc]
          exact bind_congr fun s => ih s others

/-- What each line does to a text that a state holds, all of them do. -/
theorem lines_below {holds : List Char → State} (each : ∀ cs, ∀ line ∈ lines,
      (holds cs).line (trim line) = .ok (holds (cs ++ '\n' :: line))) (cs : List Char) :
    State.lines lines (holds cs) = .ok (holds (below cs lines)) := by
  induction lines generalizing cs with
  | nil => rw [below_nil, State.lines]
  | cons line rest ih =>
      have first := each cs line List.mem_cons_self
      have others := ih fun cs line member => each cs line (List.mem_cons_of_mem _ member)
      rw [State.lines, first, below_cons]
      exact others _

/-- A section that a line with its label opens is read as its text. -/
theorem lines_section {text : List Char} (holds : List Char → State)
    (opens : ∀ {line opening : List Char}, label? line = some (label, opening) →
      s.line line = .ok (holds opening))
    (goesOn : ∀ {cs line : List Char}, line ≠ [] → label? line = none →
      (holds cs).line line = .ok (holds (cs ++ '\n' :: line)))
    (written : SectionWritten label cs text) (proper : IsSection cs) :
    State.lines (splitOn '\n' text) s = .ok (holds cs) := by
  cases written with
  | @intro w bs word blank same =>
    obtain ⟨first, more, split, text, opening, each⟩ := proper.exists_below
    have whole : '\n' ∉ w ++ bs := by
      intro inside
      rcases List.mem_append.1 inside with inWord | inBlanks
      · exact absurd ((solid_of_isWord word).2 _ inWord) (by decide)
      · exact same inBlanks
    have trimmed : trim first = first := by
      rcases opening with rfl | opening
      · cases split
        rfl
      · exact opening.2
    have opened : s.line (trim (w ++ bs ++ first)) = .ok (holds first) := by
      apply opens
      rw [List.append_assoc, label?_trim word, trim_blanks_append blank, trimmed]
    rw [splitOn_append_of_not_mem whole split, State.lines, opened, ← text]
    -- the lines below the first have no labels
    apply lines_below
    intro cs line member
    obtain ⟨trimmed, plain⟩ := each line member
    rw [trimmed.2]
    exact goesOn trimmed.1 (label?_eq_none plain)

/-! ### Between examples -/

/-- A state in which the next example may begin, and the examples read up to it. -/
inductive Ready : State → List Example → Prop
  | idle (done : List Example) : Ready ⟨done, none, none⟩ done
  | full (done : List Example) (i o : List Char) :
      Ready ⟨done, some i, some o⟩ (done ++ [ofTexts i o])

theorem Ready.finish_eq (ready : Ready s es) : s.finish = .ok ⟨es, none, none⟩ := by
  cases ready with
  | idle => rfl
  | full => rfl

/-- A line with an input label begins the next example. -/
theorem Ready.line_input (ready : Ready s es) (labelled : label? line = some (.input, opening)) :
    s.line line = .ok ⟨es, some opening, none⟩ := by
  apply line_eq_ok_iff.2
  cases ready with
  | idle => exact .input es none labelled
  | full done i o => exact .next done i o labelled

/-- Blank lines leave what is read as it is. -/
theorem Ready.lines_gap (ready : Ready s es) {gap : List Char} (blank : Blanks gap) :
    ∃ s', State.lines (splitOn '\n' gap) s = .ok s' ∧ Ready s' es := by
  have each : ∀ line ∈ splitOn '\n' gap, Blanks line := by
    intro line member c inside
    exact blank c (subset_of_mem_splitOn member inside)
  generalize splitOn '\n' gap = lines at each
  induction lines generalizing s with
  | nil => exact ⟨s, rfl, ready⟩
  | cons line rest ih =>
      obtain ⟨here, others⟩ := List.forall_mem_cons.1 each
      obtain ⟨s', run, ready'⟩ := ih (.idle es) others
      refine ⟨s', ?_, ready'⟩
      have finished : s.line (trim line) = .ok ⟨es, none, none⟩ := by
        rw [trim_eq_nil_iff.2 here]
        exact ready.finish_eq
      rw [State.lines, finished]
      exact run

/-- An example that is written is read behind the ones before it. -/
theorem Ready.lines_example (ready : Ready s es) (writable : Writable e)
    (written : ExampleWritten e cs) :
    ∃ s', State.lines (splitOn '\n' cs) s = .ok s' ∧ Ready s' (es ++ [e]) := by
  cases written with
  | @intro input output first second =>
    have whole : ofTexts e.input.toList e.output.toList = e := by
      rw [ofTexts, writable.input.trim_eq, writable.output.trim_eq, String.ofList_toList,
        String.ofList_toList]
    have afterInput := lines_section (fun i => ⟨es, some i, none⟩) ready.line_input
      (fun more plain => line_eq_ok_iff.2 (.moreInput es _ more plain)) first writable.input
    have afterOutput := lines_section (s := ⟨es, some e.input.toList, none⟩)
      (fun o => ⟨es, some e.input.toList, some o⟩)
      (fun labelled => line_eq_ok_iff.2 (.output es _ labelled))
      (fun more plain => line_eq_ok_iff.2 (.moreOutput es _ _ more plain)) second writable.output
    refine ⟨⟨es, some e.input.toList, some e.output.toList⟩, ?_, ?_⟩
    · rw [splitOn_append_cons, lines_append, afterInput]
      exact afterOutput
    · have ready' := Ready.full es e.input.toList e.output.toList
      rwa [whole] at ready'

/-- Examples that are written are read one after the other. -/
theorem Ready.lines_written {done : List Example} (ready : Ready s done) (written : Written es cs)
    (writable : ∀ e ∈ es, Writable e) :
    ∃ s', State.lines (splitOn '\n' cs) s = .ok s' ∧ Ready s' (done ++ es) := by
  -- along what is written: each part is read from where the part before has left off
  induction written generalizing s done with
  | one here => exact ready.lines_example (writable _ (List.mem_singleton_self _)) here
  | cons here others ih =>
      obtain ⟨one, rest⟩ := List.forall_mem_cons.1 writable
      obtain ⟨s₁, run, ready₁⟩ := ready.lines_example one here
      obtain ⟨s₂, runs, ready₂⟩ := ih ready₁ rest
      refine ⟨s₂, ?_, ?_⟩
      · rw [splitOn_append_cons, lines_append, run]
        exact runs
      · rwa [List.append_assoc, List.singleton_append] at ready₂
  | inFront blank others ih =>
      obtain ⟨s₁, run, ready₁⟩ := ready.lines_gap blank
      obtain ⟨s₂, runs, ready₂⟩ := ih ready₁ writable
      refine ⟨s₂, ?_, ready₂⟩
      rw [splitOn_append_cons, lines_append, run]
      exact runs
  | behind others blank ih =>
      obtain ⟨s₁, run, ready₁⟩ := ih ready writable
      obtain ⟨s₂, runs, ready₂⟩ := ready₁.lines_gap blank
      refine ⟨s₂, ?_, ready₂⟩
      rw [splitOn_append_cons, lines_append, run]
      exact runs

/-- Examples that are written are read again, all of them and in their order. -/
theorem read_of_written_examples {text : String} (writable : ∀ e ∈ es, Writable e)
    (written : Written es text.toList) : read text = .ok es := by
  obtain ⟨s, run, ready⟩ := (Ready.idle []).lines_written written writable
  have finished : State.lines (Text.lines text.toList) {} >>= State.finish =
      .ok ⟨es, none, none⟩ := by
    rw [finish_lines, run]
    exact ready.finish_eq
  have some : es.isEmpty ≠ true := by
    intro none
    exact written.ne_nil (List.isEmpty_iff.1 none)
  rw [read, ← bind_assoc, finished]
  exact if_neg some

theorem read_of_written_examples_two :
    read "input: a\nb\nOutput: \n\n \t\nINPUT: Input: c\noutput: d" =
      .ok [⟨"a\nb", ""⟩, ⟨"Input: c", "d"⟩] := by
  apply read_of_written_examples
  · decide
  · have first : ExampleWritten ⟨"a\nb", ""⟩ "input: a\nb\nOutput: ".toList :=
      .intro (@SectionWritten.intro .input _ "input:".toList [' '] rfl (by decide) (by decide))
        (@SectionWritten.intro .output _ "Output:".toList [' '] rfl (by decide) (by decide))
    have second : ExampleWritten ⟨"Input: c", "d"⟩ "INPUT: Input: c\noutput: d".toList :=
      .intro (@SectionWritten.intro .input _ "INPUT:".toList [' '] rfl (by decide) (by decide))
        (@SectionWritten.intro .output _ "output:".toList [' '] rfl (by decide) (by decide))
    have gap : Blanks "\n \t".toList := by decide
    exact .cons first (.inFront gap (.one second))

end RecordInference.Example
