import RecordInference.Proofs.Decimal.Exact
import RecordInference.Proofs.Declaration.Range
import RecordInference.Proofs.Keyed
import RecordInference.Proofs.Plan.Canonical
import RecordInference.Proofs.Plan.Soundness

/-!
# Parameters of planned steps

Overrides that are in range keep the parameters of a step sound: their numbers are finite, and
every header is kept once (`Parameters.sound_merge`). The overrides of a declaration are in range,
so the steps of its plan have sound parameters (`Plan.sound_of_ofDeclaration`).
-/

set_option autoImplicit false

namespace RecordInference

/-! ### Overrides -/

namespace Parameters

/-- The parameters whose numbers are finite and that have every header once. -/
structure Sound (p : Parameters) : Prop where
  finite : p.Finite
  headers : (Keyed.keys p.headers).Nodup

theorem sound_default (verb : Verb) : (default verb).Sound := by
  cases verb with
  | extract | classify | draft => exact ⟨⟨by decide +kernel, nofun⟩, List.nodup_nil⟩

/-- An override that is in range keeps parameters sound. -/
theorem Sound.override {p : Parameters} (h : p.Sound) {o : Override} (inRange : o.fault? = none) :
    (p.override o).Sound := by
  obtain ⟨⟨temperature, topP⟩, headers⟩ := h
  cases o with
  | model | seed | maxTokens => exact ⟨⟨temperature, topP⟩, headers⟩
  | temperature t =>
      simp only [Override.fault?, ite_eq_left_iff, reduceCtorEq, imp_false,
        Classical.not_not] at inRange
      exact ⟨⟨Decimal.isFinite_of_isBetween inRange Decimal.normal_two, topP⟩, headers⟩
  | topP x =>
      simp only [Override.fault?, ite_eq_left_iff, reduceCtorEq, imp_false,
        Classical.not_not] at inRange
      have finite := Decimal.isFinite_of_isBetween inRange Decimal.normal_unit
      exact ⟨⟨temperature, fun y member => Option.mem_some.1 member ▸ finite⟩, headers⟩
  | header name value => exact ⟨⟨temperature, topP⟩, Keyed.nodup_keys_insert headers value⟩

theorem sound_merge (verb : Verb) {overrides : List Override}
    (inRange : ∀ o ∈ overrides, o.fault? = none) : (merge verb overrides).Sound := by
  have start := sound_default verb
  rw [merge]
  generalize default verb = p at start ⊢
  induction overrides generalizing p with
  | nil => exact start
  | cons o rest ih =>
      obtain ⟨here, later⟩ := List.forall_mem_cons.1 inRange
      exact ih later (p.override o) (start.override here)

end Parameters

/-! ### Plans under construction -/

namespace Assembly

/-- An assembly whose overrides are in range, with sound steps. -/
structure Sound (d : Assembly) : Prop where
  overrides : ∀ o ∈ d.overrides, o.fault? = none
  steps : ∀ step ∈ d.steps, step.parameters.Sound

variable {loader : Loader} {schemas : Keyed Schema} {d : Assembly}

/-- A step gets the parameters of its verb under the overrides in force. -/
theorem exists_steps_plan (d : Assembly) (loader : Loader) (step : InferenceStep) (y : Yield) :
    ∃ planned : PlannedStep, (d.plan loader step y).steps = d.steps ++ [planned] ∧
      planned.verb = step.verb ∧
      planned.parameters = Parameters.merge step.verb d.overrides :=
  ⟨_, rfl, rfl, rfl⟩

theorem overrides_plan (d : Assembly) (loader : Loader) (step : InferenceStep) (y : Yield) :
    (d.plan loader step y).overrides = d.overrides := by
  show (if (d.clashes step.line y.produced).isEmpty then d.produce d.steps.length y.produced
    else d).overrides = d.overrides
  split
  · rfl
  · rfl

theorem Sound.plan (h : d.Sound) (step : InferenceStep) (y : Yield) :
    (d.plan loader step y).Sound := by
  obtain ⟨planned, steps, -, parameters⟩ := exists_steps_plan d loader step y
  constructor
  · rw [overrides_plan]
    exact h.overrides
  · rw [steps, List.forall_mem_append, List.forall_mem_singleton, parameters]
    exact ⟨h.steps, Parameters.sound_merge step.verb h.overrides⟩

theorem Sound.take (h : d.Sound) {step : Step}
    (inRange : ∀ o ∈ step.overrides, o.fault? = none) : (d.take schemas loader step).Sound := by
  cases step with
  | source locator line =>
      rw [Assembly.take]
      split
      · exact ⟨h.overrides, h.steps⟩
      · exact ⟨h.overrides, h.steps⟩
  | output locator line =>
      rw [Assembly.take]
      split
      · exact ⟨h.overrides, h.steps⟩
      · exact ⟨h.overrides, h.steps⟩
  | set overrides line => exact ⟨List.forall_mem_append.2 ⟨h.overrides, inRange⟩, h.steps⟩
  | rule => exact ⟨h.overrides, h.steps⟩
  | inference step =>
      rw [Assembly.take]
      split
      · exact ⟨h.overrides, h.steps⟩
      · exact h.plan step _

theorem Sound.foldl {pipeline : List Step} {d : Assembly} (h : d.Sound)
    (inRange : ∀ o ∈ pipeline.flatMap Step.overrides, o.fault? = none) :
    (pipeline.foldl (Assembly.take schemas loader) d).Sound := by
  induction pipeline generalizing d with
  | nil => exact h
  | cons step rest ih =>
      rw [List.flatMap_cons, List.forall_mem_append] at inRange
      exact ih (h.take inRange.1) inRange.2

end Assembly

/-! ### Plans -/

namespace Plan

theorem sound_of_compile {program : Program} {schemas : Keyed Schema} {loader : Loader}
    {plan : Plan} (inRange : ∀ o ∈ program.overrides, o.fault? = none)
    (h : compile program schemas loader = .ok plan) :
    ∀ step ∈ plan.steps, step.parameters.Sound := by
  obtain ⟨settings, pipeline⟩ := List.forall_mem_append.1 inRange
  have folded : (program.pipeline.foldl (Assembly.take schemas loader)
      { overrides := program.settings }).Sound :=
    Assembly.Sound.foldl ⟨settings, List.forall_mem_nil _⟩ pipeline
  obtain ⟨-, -, rfl⟩ := of_compile h
  intro step member
  rw [Program.steps_assemble] at member
  exact folded.steps step member

/-- The steps of a plan of a declaration have sound parameters. -/
theorem sound_of_ofDeclaration {text : String} {loader : Loader} {plan : Plan}
    (h : ofDeclaration text loader = .ok plan) : ∀ step ∈ plan.steps, step.parameters.Sound := by
  obtain ⟨program, schemas, read, -, compiled⟩ := ofDeclaration_eq_ok_iff.1 h
  exact sound_of_compile (Declaration.inRange_of_read read) compiled

end Plan

end RecordInference
