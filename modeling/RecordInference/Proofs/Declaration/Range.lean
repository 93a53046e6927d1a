import RecordInference.Declaration.Reading
import RecordInference.Proofs.Outcome

/-!
# Ranges of overrides

Every override that is read from a declaration is in range (`inRange_of_read`), whether it stands
in front of the pipeline or in it. Lines change a pipeline otherwise than by adding to it in two
ways: a setting joins the run at its end (`eq_of_joinRun`), and a resource goes to its last step
(`eq_of_amendLast`).
-/

set_option autoImplicit false

namespace RecordInference

/-- The overrides that a construct sets. -/
def Step.overrides : Step → List Override
  | .set overrides _ => overrides
  | _ => []

/-- The overrides of a program, those for all steps first. -/
def Program.overrides (p : Program) : List Override :=
  p.settings ++ p.pipeline.flatMap Step.overrides

namespace Declaration

/-- Whether every override read so far is in range. -/
def State.InRange (s : State) : Prop := ∀ o ∈ s.program.overrides, o.fault? = none

theorem fault?_of_readOverride {rest : List Char} {o : Override} (h : readOverride rest = .ok o) :
    o.fault? = none := by
  simp only [readOverride] at h
  split at h
  · cases h
  · obtain ⟨o', -, checked⟩ := Except.bind_eq_ok_iff.1 h
    split at checked
    · cases checked
    · next sound =>
      cases checked
      exact sound

/-- The last of the steps of a pipeline is changed, and nothing else. -/
theorem eq_of_amendLast {f : InferenceStep → Except Cause InferenceStep} {steps steps' : List Step}
    (amended : amendLast f steps = .ok (some steps')) :
    ∃ front step step' back, steps = front ++ .inference step :: back ∧ f step = .ok step' ∧
      steps' = front ++ .inference step' :: back := by
  induction steps generalizing steps' with
  | nil => cases amended
  | cons step rest ih =>
      obtain ⟨later, below, amended⟩ := Except.bind_eq_ok_iff.1 amended
      cases later with
      | some rest' =>
          cases amended
          obtain ⟨front, i, i', back, rfl, changed, rfl⟩ := ih below
          exact ⟨step :: front, i, i', back, rfl, changed, rfl⟩
      | none =>
          cases step with
          | inference i =>
              obtain ⟨i', changed, eq⟩ := Except.bind_eq_ok_iff.1 amended
              cases eq
              exact ⟨[], i, i', rest, rfl, changed, rfl⟩
          | source | rule | output | set => cases amended

/-- A setting joins the settings that a pipeline ends with. -/
theorem eq_of_joinRun {o : Override} {steps steps' : List Step}
    (joined : joinRun o steps = some steps') :
    ∃ front overrides first, steps = front ++ [.set overrides first] ∧
      steps' = front ++ [.set (overrides ++ [o]) first] := by
  fun_induction joinRun o steps generalizing steps' with
  | case1 => cases joined
  | case2 overrides line =>
      cases joined
      exact ⟨[], overrides, line, rfl, rfl⟩
  | case3 step rest other ih =>
      obtain ⟨rest', later, rfl⟩ := Option.map_eq_some_iff.1 joined
      obtain ⟨front, overrides, first, rfl, rfl⟩ := ih later
      exact ⟨step :: front, overrides, first, rfl, rfl⟩

theorem overrides_of_joinRun {o : Override} {steps steps' : List Step}
    (joined : joinRun o steps = some steps') :
    steps'.flatMap Step.overrides = steps.flatMap Step.overrides ++ [o] := by
  obtain ⟨front, overrides, first, rfl, rfl⟩ := eq_of_joinRun joined
  simp [Step.overrides]

theorem overrides_of_amendLast {f : InferenceStep → Except Cause InferenceStep}
    {steps steps' : List Step} (amended : amendLast f steps = .ok (some steps')) :
    steps'.flatMap Step.overrides = steps.flatMap Step.overrides := by
  obtain ⟨front, step, step', back, rfl, -, rfl⟩ := eq_of_amendLast amended
  simp [Step.overrides]

theorem overrides_push (s : State) (step : Step) :
    (s.push step).program.overrides = s.program.overrides ++ step.overrides := by
  simp [State.program, Program.overrides, State.push]

/-- A setting comes last of all, whether it stands in front of the pipeline, joins a run or starts
one. -/
theorem overrides_set (line : Nat) (o : Override) (s : State) :
    (set line o s).program.overrides = s.program.overrides ++ [o] := by
  rw [set]
  split
  · next empty => simp [State.program, Program.overrides, List.isEmpty_iff.1 empty]
  · split
    · next pipeline joined =>
      split at joined
      · simp [State.program, Program.overrides, overrides_of_joinRun joined]
      · cases joined
    · exact overrides_push s (.set [o] line)

variable {line indent : Nat} {s s' : State}

theorem overrides_modifyLast {text : List Char} (modified : modifyLast text s = .ok s') :
    s'.program.overrides = s.program.overrides := by
  obtain ⟨pipeline, amended, taken⟩ := Except.bind_eq_ok_iff.1 modified
  split at taken
  · cases taken
    simp only [State.program, Program.overrides, overrides_of_amendLast amended]
  · cases taken

theorem State.InRange.push (h : s.InRange) {step : Step} (none : step.overrides = []) :
    (s.push step).InRange := by
  rw [State.InRange, overrides_push, none, List.append_nil]
  exact h

theorem inRange_of_set {o : Override} (h : s.InRange) (sound : o.fault? = none) :
    (set line o s).InRange := by
  rw [State.InRange, overrides_set]
  exact List.forall_mem_append.2 ⟨h, List.forall_mem_singleton.2 sound⟩

theorem inRange_of_modifyLast {text : List Char} (h : s.InRange)
    (modified : modifyLast text s = .ok s') : s'.InRange := by
  rw [State.InRange, overrides_modifyLast modified]
  exact h

theorem inRange_of_construct {keyword : Keyword} {text rest : List Char} (h : s.InRange)
    (taken : construct line indent keyword text rest s = .ok s') : s'.InRange := by
  have h' : State.InRange { s with inRun := false } := h
  cases keyword with
  | define =>
      simp only [construct, define] at taken
      split at taken
      · cases taken
      · split at taken
        · cases taken
        · cases taken
          exact h
  | set =>
      obtain ⟨o, read, rfl⟩ := Except.map_eq_ok_iff.1 taken
      exact inRange_of_set h (fault?_of_readOverride read)
  | modifier kind => exact inRange_of_modifyLast h' taken
  | source | output | step | flag =>
      obtain ⟨_, -, rfl⟩ := Except.map_eq_ok_iff.1 taken
      exact h'.push rfl

theorem inRange_of_topLine {text : List Char} (h : s.InRange)
    (taken : topLine line indent text s = .ok s') : s'.InRange := by
  simp only [topLine] at taken
  split at taken
  · exact inRange_of_construct h taken
  · split at taken
    · cases taken
    · cases taken

theorem inRange_of_readLine {raw : List Char} (h : s.InRange)
    (taken : readLine line raw s = .ok s') : s'.InRange := by
  simp only [readLine] at taken
  split at taken
  · cases taken
    exact h
  · split at taken
    · split at taken
      · obtain ⟨f, -, taken⟩ := Except.bind_eq_ok_iff.1 taken
        obtain ⟨definition, -, taken⟩ := Except.bind_eq_ok_iff.1 taken
        cases taken
        exact h
      · exact inRange_of_topLine (s := s.close) h taken
    · exact inRange_of_topLine h taken

theorem inRange_of_readLines {raws : List (List Char)} (h : s.InRange)
    (taken : readLines line raws s = .ok s') : s'.InRange := by
  induction raws generalizing line s with
  | nil =>
      cases taken
      exact h
  | cons raw rest ih =>
      rw [readLines] at taken
      split at taken
      · cases taken
      · next first => exact ih (inRange_of_readLine h first) taken

/-- The overrides of a declaration are in range. -/
theorem inRange_of_read {text : String} {program : Program} (h : read text = .ok program) :
    ∀ o ∈ program.overrides, o.fault? = none := by
  obtain ⟨s, taken, rfl⟩ := Except.map_eq_ok_iff.1 h
  exact inRange_of_readLines (s := {}) nofun taken

end Declaration

end RecordInference
