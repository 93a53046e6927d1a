import RecordInference.Proofs.Plan.Acceptance

/-!
# Where the steps of a plan come from

A planned step has become of an inference step of the program: it has the verb and the target of
that step, and the schema and the output of its yield (`Plan.exists_yield_of_compile`). The yield of
a classification is a choice among values under one field, and that of a draft is a text under one
field (`Yield.eq_single_of_ofStep`).
-/

set_option autoImplicit false

namespace RecordInference

/-- A planned step that an inference step with its yield has become. -/
structure PlannedStep.StemsFrom (planned : PlannedStep) (step : InferenceStep) (y : Yield) :
    Prop where
  verb : planned.verb = step.verb
  target : planned.target = step.target
  schema : planned.schema = y.schema
  output : planned.output = y.output

section

variable {program : Program} {schemas : Keyed Schema} {loader : Loader}

/-- Every planned step is one that was there or has become of the construct. -/
theorem Assembly.mem_steps_take {d : Assembly} {step : Step} {planned : PlannedStep}
    (h : planned ∈ (d.take schemas loader step).steps) : planned ∈ d.steps ∨
      ∃ inference y, step = .inference inference ∧ Yield.ofStep schemas inference = .ok y ∧
        planned.StemsFrom inference y := by
  cases step with
  | source | output | set | rule =>
      rw [(keeps_take schemas loader d rfl).steps] at h
      exact Or.inl h
  | inference step =>
      rw [take] at h
      split at h
      · exact Or.inl h
      · next y yields =>
        rcases List.mem_append.1 h with before | last
        · exact Or.inl before
        · right
          rw [List.mem_singleton.1 last]
          exact ⟨step, y, rfl, yields, rfl, rfl, rfl, rfl⟩

theorem Assembly.mem_steps_foldl {pipeline : List Step} {d : Assembly} {planned : PlannedStep}
    (h : planned ∈ (pipeline.foldl (take schemas loader) d).steps) : planned ∈ d.steps ∨
      ∃ inference y, .inference inference ∈ pipeline ∧ Yield.ofStep schemas inference = .ok y ∧
        planned.StemsFrom inference y := by
  induction pipeline generalizing d with
  | nil => exact Or.inl h
  | cons step rest ih =>
      rcases ih h with taken | ⟨inference, y, member, yields, stems⟩
      · rcases mem_steps_take taken with before | ⟨inference, y, rfl, yields, stems⟩
        · exact Or.inl before
        · exact Or.inr ⟨inference, y, List.mem_cons_self, yields, stems⟩
      · exact Or.inr ⟨inference, y, List.mem_cons_of_mem step member, yields, stems⟩

/-- Every step of a plan has become of an inference step of the program. -/
theorem Plan.exists_yield_of_compile {plan : Plan}
    (h : compile program schemas loader = .ok plan) : ∀ planned ∈ plan.steps,
      ∃ inference y, .inference inference ∈ program.pipeline ∧
        Yield.ofStep schemas inference = .ok y ∧ planned.StemsFrom inference y := by
  intro planned member
  obtain ⟨-, -, rfl⟩ := of_compile h
  rw [Program.steps_assemble] at member
  rcases Assembly.mem_steps_foldl member with none | stems
  · cases none
  · exact stems

/-- What the yield of a step is by its verb. -/
theorem Yield.eq_single_of_ofStep {step : InferenceStep} {y : Yield}
    (yields : ofStep schemas step = .ok y) :
    (step.verb = .classify → ∃ field values, y = single field (.oneOf values)) ∧
      (step.verb = .draft → ∃ field, y = single field .text) := by
  by_cases names : step.NamesDefinition
  · rw [ofStep_of_names names, ofDefinition] at yields
    constructor
    · intro verb
      split at yields
      · cases yields
      · rw [if_neg (by simp [verb])] at yields
        obtain ⟨field, values, -, single⟩ := ofClassification_eq_ok_iff.1 yields
        exact ⟨field, values, single⟩
      · cases yields
    · intro verb
      rcases names with other | ⟨other, -⟩
      · cases verb.symm.trans other
      · cases verb.symm.trans other
  · obtain ⟨verb, target, categories, prompt, examples, line⟩ := step
    cases verb with
    | extract => exact absurd (Or.inl rfl) names
    | draft =>
        cases yields
        constructor
        · intro other
          cases other
        · intro _
          exact ⟨target, rfl⟩
    | classify =>
        cases categories with
        | none => exact absurd (Or.inr ⟨rfl, rfl⟩) names
        | some values =>
            cases yields
            constructor
            · intro _
              exact ⟨target, values, rfl⟩
            · intro other
              cases other

end

end RecordInference
