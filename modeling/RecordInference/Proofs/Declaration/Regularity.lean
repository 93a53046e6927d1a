import RecordInference.Proofs.Declaration.Growth

/-!
# Programs that are read are regular

Whatever is read from a text is regular (`regular_of_read`): names are identifiers and differ, lists
have values to choose from, overrides are in range, steps have targets, and the settings of the
pipeline stand behind another construct. The constructs are numbered by the lines of the text: in
ascending order among the definitions and in the pipeline, and no two of them with the same number.

Both are kept by every line (`Program.Regular.grows`, `Program.Numbered.grows`). A line that adds a
construct gives it the number of the line, which is greater than those of all lines before it.
-/

set_option autoImplicit false

namespace RecordInference

open Text Declaration

/-! ### Regular programs -/

/-- Whether a program is made of regular parts, and has different definitions, and no settings in
front of its pipeline that count as a construct of it. -/
structure Program.Regular (p : Program) : Prop where
  definitions : ∀ d ∈ p.definitions, d.Regular
  distinct : (p.definitions.map (·.name)).Nodup
  settings : ∀ o ∈ p.settings, o.fault? = none
  pipeline : ∀ step ∈ p.pipeline, step.Regular
  first : ∀ step ∈ p.pipeline.head?, step.isSet = false

/-- A definition stays regular with one more field. -/
theorem Definition.Regular.concat {d : Definition} {f : Field} (h : d.Regular) (regular : f.Regular)
    (fresh : f.name ∉ d.fields.map (·.name)) :
    Definition.Regular { d with fields := d.fields ++ [f] } := by
  refine ⟨h.name, ?_, ?_⟩
  · exact List.forall_mem_append.2 ⟨h.fields, List.forall_mem_singleton.2 regular⟩
  · rw [List.map_append, List.map_singleton, ← List.concat_eq_append]
    exact .concat fresh h.distinct

/-- A construct in the place of another one of its kind leads the pipeline if the other one did. -/
theorem head?_append_cons {front back : List Step} {step step' : Step}
    (first : ∀ s ∈ (front ++ step :: back).head?, s.isSet = false)
    (same : step'.isSet = step.isSet) : ∀ s ∈ (front ++ step' :: back).head?, s.isSet = false := by
  cases front with
  | cons other front => exact first
  | nil =>
      rintro s ⟨⟩
      rw [same]
      exact first step rfl

namespace Program

variable {line n : Nat} {p p' : Program}

/-- Whatever a line adds, the program stays regular. -/
theorem Regular.grows (h : p.Regular) (grown : p.Grows line p') : p'.Regular := by
  cases grown with
  | @field front d f settings pipeline regular here fresh =>
      -- the definition with one more field keeps its name, so names go on to differ
      obtain ⟨definitions, distinct, sound, steps, first⟩ := h
      obtain ⟨others, last⟩ := List.forall_mem_append.1 definitions
      refine ⟨?_, ?_, sound, steps, first⟩
      · refine List.forall_mem_append.2 ⟨others, List.forall_mem_singleton.2 ?_⟩
        exact (List.forall_mem_singleton.1 last).concat regular fresh
      · rw [List.map_append] at distinct ⊢
        exact distinct
  | definition _ identifier fresh =>
      refine ⟨?_, ?_, h.settings, h.pipeline, h.first⟩
      · refine List.forall_mem_append.2 ⟨h.definitions, List.forall_mem_singleton.2 ?_⟩
        exact ⟨identifier, nofun, List.nodup_nil⟩
      · rw [List.map_append, List.map_singleton, ← List.concat_eq_append]
        exact .concat fresh h.distinct
  | setting _ sound =>
      refine ⟨h.definitions, h.distinct, ?_, h.pipeline, h.first⟩
      exact List.forall_mem_append.2 ⟨h.settings, List.forall_mem_singleton.2 sound⟩
  | joined definitions settings sound =>
      obtain ⟨others, last⟩ := List.forall_mem_append.1 h.pipeline
      obtain ⟨some, inRange⟩ : Step.Regular _ := List.forall_mem_singleton.1 last
      refine ⟨h.definitions, h.distinct, h.settings, ?_, head?_append_cons h.first rfl⟩
      refine List.forall_mem_append.2 ⟨others, List.forall_mem_singleton.2 ⟨?_, ?_⟩⟩
      · exact List.append_ne_nil_of_left_ne_nil some _
      · exact List.forall_mem_append.2 ⟨inRange, List.forall_mem_singleton.2 sound⟩
  | @construct step _ regular here behind =>
      refine ⟨h.definitions, h.distinct, h.settings, ?_, ?_⟩
      · exact List.forall_mem_append.2 ⟨h.pipeline, List.forall_mem_singleton.2 regular⟩
      · intro first leads
        cases before : p.pipeline with
        | nil =>
            rw [before] at leads
            cases leads
            -- settings do not come first
            by_contra isSet
            apply behind ?_ before
            simpa using isSet
        | cons other rest =>
            rw [before] at leads
            cases leads
            apply h.first
            rw [before]
            rfl
  | @amended front back step step' definitions settings regular there =>
      obtain ⟨others, steps⟩ := List.forall_mem_append.1 h.pipeline
      obtain ⟨changed, behind⟩ := List.forall_mem_cons.1 steps
      refine ⟨h.definitions, h.distinct, h.settings, ?_, head?_append_cons h.first rfl⟩
      exact List.forall_mem_append.2 ⟨others, List.forall_mem_cons.2 ⟨regular changed, behind⟩⟩

end Program

/-! ### Line numbers -/

/-- The lines of a definition: its own, and those of its fields. -/
def Definition.lines (d : Definition) : List Nat := d.line :: d.fields.map (·.line)

namespace Program

/-- The lines of the definitions of a program, in their order. -/
def definitionLines (p : Program) : List Nat := p.definitions.flatMap Definition.lines

/-- The lines of the constructs of a pipeline, in their order. -/
def pipelineLines (p : Program) : List Nat := p.pipeline.map Step.line

/-- Whether the parts of a program are numbered by different ones of the first `n` lines, in
ascending order. -/
structure Numbered (n : Nat) (p : Program) : Prop where
  definitions : p.definitionLines.Pairwise (· < ·)
  pipeline : p.pipelineLines.Pairwise (· < ·)
  apart : p.definitionLines.Disjoint p.pipelineLines
  within : ∀ line ∈ p.definitionLines ++ p.pipelineLines, 1 ≤ line ∧ line ≤ n

variable {line n : Nat} {p p' : Program}

/-- A line gives its number to at most one part of the program. -/
theorem Grows.lines (grown : p.Grows line p') :
    (p'.definitionLines = p.definitionLines ++ [line] ∧ p'.pipelineLines = p.pipelineLines) ∨
    (p'.definitionLines = p.definitionLines ∧ p'.pipelineLines = p.pipelineLines ++ [line]) ∨
    (p'.definitionLines = p.definitionLines ∧ p'.pipelineLines = p.pipelineLines) := by
  cases grown with
  | @field front d f settings pipeline regular here fresh =>
      refine Or.inl ⟨?_, rfl⟩
      simp [definitionLines, Definition.lines, here]
  | definition _ identifier fresh =>
      refine Or.inl ⟨?_, rfl⟩
      simp [definitionLines, Definition.lines]
  | setting _ sound => exact Or.inr (Or.inr ⟨rfl, rfl⟩)
  | joined definitions settings sound =>
      refine Or.inr (Or.inr ⟨rfl, ?_⟩)
      simp [pipelineLines, Step.line]
  | construct _ regular here behind =>
      refine Or.inr (Or.inl ⟨rfl, ?_⟩)
      simp [pipelineLines, here]
  | amended definitions settings regular there =>
      refine Or.inr (Or.inr ⟨rfl, ?_⟩)
      simp [pipelineLines, Step.line, there]

theorem pairwise_concat {lines : List Nat} (ascending : lines.Pairwise (· < ·))
    (below : ∀ line ∈ lines, line ≤ n) : (lines ++ [n + 1]).Pairwise (· < ·) := by
  rw [List.pairwise_append]
  refine ⟨ascending, List.pairwise_singleton _ _, ?_⟩
  intro line member last final
  rw [List.mem_singleton.1 final]
  exact Nat.lt_succ_of_le (below line member)

theorem Numbered.silent (h : p.Numbered n) : p.Numbered (n + 1) :=
  ⟨h.definitions, h.pipeline, h.apart, fun line member =>
    (h.within line member).imp_right Nat.le_succ_of_le⟩

/-- The next line has a number that is greater than all numbers so far. -/
theorem Numbered.grows (h : p.Numbered n) (grown : p.Grows (n + 1) p') : p'.Numbered (n + 1) := by
  obtain ⟨low, low'⟩ := List.forall_mem_append.1 fun line member => (h.within line member).2
  obtain ⟨bounds, bounds'⟩ := List.forall_mem_append.1 h.silent.within
  have last : 1 ≤ n + 1 ∧ n + 1 ≤ n + 1 := ⟨Nat.succ_pos n, le_rfl⟩
  have new : n + 1 ∉ p.definitionLines ∧ n + 1 ∉ p.pipelineLines :=
    ⟨fun member => Nat.not_succ_le_self n (low _ member),
      fun member => Nat.not_succ_le_self n (low' _ member)⟩
  rcases grown.lines with ⟨definitions, pipeline⟩ | ⟨definitions, pipeline⟩ |
    ⟨definitions, pipeline⟩
  · -- the line is that of a definition or of a field
    refine ⟨?_, ?_, ?_, ?_⟩
    · rw [definitions]
      exact pairwise_concat h.definitions low
    · rw [pipeline]
      exact h.pipeline
    · rw [definitions, pipeline, List.disjoint_append_left]
      exact ⟨h.apart, List.singleton_disjoint.2 new.2⟩
    · rw [definitions, pipeline]
      exact List.forall_mem_append.2 ⟨List.forall_mem_append.2
        ⟨bounds, List.forall_mem_singleton.2 last⟩, bounds'⟩
  · -- the line is that of a construct
    refine ⟨?_, ?_, ?_, ?_⟩
    · rw [definitions]
      exact h.definitions
    · rw [pipeline]
      exact pairwise_concat h.pipeline low'
    · rw [definitions, pipeline, List.disjoint_append_right]
      exact ⟨h.apart, List.disjoint_singleton.2 new.1⟩
    · rw [definitions, pipeline]
      exact List.forall_mem_append.2 ⟨bounds, List.forall_mem_append.2
        ⟨bounds', List.forall_mem_singleton.2 last⟩⟩
  · -- the line is that of no part of its own
    have kept := h.silent
    refine ⟨?_, ?_, ?_, ?_⟩
    · rw [definitions]
      exact kept.definitions
    · rw [pipeline]
      exact kept.pipeline
    · rw [definitions, pipeline]
      exact kept.apart
    · rw [definitions, pipeline]
      exact kept.within

/-- Both hold of the empty program, and are kept by every line. -/
theorem regular_of_readLines {text : List Char} {s : State}
    (taken : readLines 1 (lines text) {} = .ok s) :
    s.program.Regular ∧ s.program.Numbered (lines text).length := by
  have start : Program.Regular ⟨[], [], []⟩ ∧ Program.Numbered 0 ⟨[], [], []⟩ :=
    ⟨⟨nofun, List.nodup_nil, nofun, nofun, nofun⟩,
      ⟨List.Pairwise.nil, List.Pairwise.nil, List.disjoint_nil_left _, nofun⟩⟩
  have whole : ∀ raw ∈ lines text, '\n' ∉ raw := fun raw member => not_mem_of_mem_lines member
  have final := readLines_induction (motive := fun n p => p.Regular ∧ p.Numbered n)
    (fun so => so.imp_right Numbered.silent)
    (fun so grown => ⟨so.1.grows grown, so.2.grows grown⟩) whole taken start
  rwa [Nat.zero_add] at final

/-- What is read from a text is regular, and is numbered by the lines of the text. -/
theorem regular_of_read {text : String} {p : Program} (h : read text = .ok p) :
    p.Regular ∧ p.Numbered (lines text.toList).length := by
  obtain ⟨s, taken, rfl⟩ := Except.map_eq_ok_iff.1 h
  exact regular_of_readLines taken

/-- A definition with its fields, settings in front of the pipeline and in it, and a resource on a
line of its own: the fields have their lines behind that of the definition, and the run of settings
has the first of its lines. -/
theorem regular_of_read_samples :
    let text := "SET SEED 7
DEFINE claim:
  kind ONE OF [car, home]

  note TEXT
FROM in
" ++
      "CLASSIFY kind INTO [car, home]
-- more
USE samples
SET MODEL a
SET SEED 9
DRAFT reply"
    ∃ p, read text = .ok p ∧ p.definitionLines = [2, 3, 5] ∧ p.pipelineLines = [6, 7, 10, 12] ∧
      p.Regular ∧ p.Numbered 12 := by
  intro text
  have kept : (read text).toOption.map (fun p => (p.definitionLines, p.pipelineLines)) =
      some ([2, 3, 5], [6, 7, 10, 12]) := by
    decide +kernel
  obtain ⟨p, taken, same⟩ := Option.map_eq_some_iff.1 kept
  obtain ⟨definitions, pipeline⟩ := Prod.mk.inj same
  have taken := Except.toOption_eq_some_iff.1 taken
  have count : (Text.lines text.toList).length = 12 := by
    decide +kernel
  obtain ⟨regular, numbered⟩ := regular_of_read taken
  exact ⟨p, taken, definitions, pipeline, regular, count ▸ numbered⟩

end Program

end RecordInference
