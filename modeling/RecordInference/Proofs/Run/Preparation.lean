import RecordInference.Proofs.Plan.Soundness
import RecordInference.Run.Preparation

/-!
# Prepared steps

The steps of a prepared plan are the steps of the plan in their order, each with the text of its
prompt (`steps_of_ofPlan`). A plan that fits its loader can be prepared with settings that have no
problem (`ofPlan_of_fit`), so every plan of a declaration can (`exists_of_ofDeclaration`).
-/

set_option autoImplicit false

namespace RecordInference

/-- Whether a step has the text of its prompt from a loader, if it has a prompt. -/
def PreparedStep.Loaded (loader : Loader) (p : PreparedStep) : Prop :=
  p.context = p.step.prompt.bind fun handle => loader handle.kind handle.name

/-- A step fits those that are prepared before it. -/
theorem StepsFit.of_split {loader : Loader} {steps done rest : List PreparedStep}
    {step : PreparedStep} (fit : StepsFit loader (steps.map (·.step)))
    (split : steps = done ++ step :: rest) : StepFits loader (done.map (·.step)) step.step := by
  apply fit _ _ (rest.map (·.step))
  rw [split, List.map_append, List.map_cons]

namespace Prepared

variable {loader : Loader}

theorem load_eq_ok_iff {handle : Handle} {text : String} :
    load loader handle = .ok text ↔ loader handle.kind handle.name = some text := by
  simp only [load]
  split
  · next found => rw [found, Except.ok.injEq, Option.some.injEq]
  · next missing =>
    rw [missing]
    exact ⟨nofun, nofun⟩

theorem loaded_of_loadOptional {handle : Option Handle} {text : Option String}
    (h : loadOptional loader handle = .ok text) :
    text = handle.bind fun handle => loader handle.kind handle.name := by
  cases handle with
  | none =>
      cases h
      rfl
  | some handle =>
      obtain ⟨found, loaded, rfl⟩ := Except.map_eq_ok_iff.1 h
      exact (load_eq_ok_iff.1 loaded).symm

theorem step_of_prepareStep {step : PlannedStep} {p : PreparedStep} {texts : List String}
    (h : prepareStep loader step = .ok (p, texts)) : p.step = step ∧ p.Loaded loader := by
  obtain ⟨context, loaded, h⟩ := Except.bind_eq_ok_iff.1 h
  obtain ⟨source, -, h⟩ := Except.bind_eq_ok_iff.1 h
  obtain ⟨examples, -, h⟩ := Except.bind_eq_ok_iff.1 h
  cases h
  exact ⟨rfl, loaded_of_loadOptional loaded⟩

theorem steps_of_prepareSteps {steps : List PlannedStep} {prepared : List PreparedStep}
    {texts : List String} (h : prepareSteps loader steps = .ok (prepared, texts)) :
    prepared.map (·.step) = steps ∧ ∀ p ∈ prepared, p.Loaded loader := by
  induction steps generalizing prepared texts with
  | nil =>
      cases h
      exact ⟨rfl, List.forall_mem_nil _⟩
  | cons step rest ih =>
      obtain ⟨⟨p, first⟩, here, h⟩ := Except.bind_eq_ok_iff.1 h
      obtain ⟨⟨later, more⟩, there, h⟩ := Except.bind_eq_ok_iff.1 h
      cases h
      obtain ⟨rfl, loaded⟩ := step_of_prepareStep here
      obtain ⟨rfl, each⟩ := ih there
      exact ⟨rfl, List.forall_mem_cons.2 ⟨loaded, each⟩⟩

/-- A plan that is ready has its steps with their texts, and settings without problems. -/
theorem ofPlan_eq_ok_iff {plan : Plan} {settings : Settings} {prepared : Prepared} :
    ofPlan plan loader settings = .ok prepared ↔ settings.problems = [] ∧
      ∃ steps texts, prepareSteps loader plan.steps = .ok (steps, texts) ∧
        prepared = ⟨plan, steps, settings,
          Digest.ofTexts (plan.fingerprint :: texts.map Digest.ofText)⟩ := by
  simp only [ofPlan, Bool.not_eq_true', List.isEmpty_eq_false_iff]
  split
  · next problems => exact ⟨nofun, fun sound => absurd sound.1 problems⟩
  · next sound =>
    rw [Decidable.not_not] at sound
    rw [Except.bind_eq_ok_iff]
    constructor
    · rintro ⟨⟨steps, texts⟩, loaded, eq⟩
      cases eq
      exact ⟨sound, steps, texts, loaded, rfl⟩
    · rintro ⟨-, steps, texts, loaded, rfl⟩
      exact ⟨(steps, texts), loaded, rfl⟩

/-- What is prepared is the plan, with its steps in their order. -/
theorem steps_of_ofPlan {plan : Plan} {settings : Settings} {prepared : Prepared}
    (h : ofPlan plan loader settings = .ok prepared) : prepared.plan = plan ∧
      prepared.steps.map (·.step) = plan.steps ∧ ∀ p ∈ prepared.steps, p.Loaded loader := by
  obtain ⟨-, steps, texts, loaded, rfl⟩ := ofPlan_eq_ok_iff.1 h
  exact ⟨rfl, steps_of_prepareSteps loaded⟩

/-! ### Plans that can be prepared -/

theorem prepareStep_of_fits {before : List PlannedStep} {step : PlannedStep}
    (fits : StepFits loader before step) : ∃ result, prepareStep loader step = .ok result := by
  have context : ∃ text, loadOptional loader step.prompt = .ok text := by
    cases named : step.prompt with
    | none => exact ⟨none, rfl⟩
    | some handle =>
        obtain ⟨text, found, -⟩ := fits.prompt handle named
        exact ⟨some text, Except.map_eq_ok_iff.2 ⟨text, load_eq_ok_iff.2 found, rfl⟩⟩
  have examples : ∃ text shown, loadOptional loader step.examples = .ok text ∧
      showExamples step.examples text = .ok shown := by
    cases named : step.examples with
    | none => exact ⟨none, none, rfl, rfl⟩
    | some handle =>
        obtain ⟨text, examples, found, read⟩ := fits.examples handle named
        refine ⟨some text, some (Example.render examples),
          Except.map_eq_ok_iff.2 ⟨text, load_eq_ok_iff.2 found, rfl⟩, ?_⟩
        simp only [showExamples, read]
  obtain ⟨text, loaded⟩ := context
  obtain ⟨source, shown, loaded', rendered⟩ := examples
  refine ⟨(⟨step, text, shown⟩, text.toList ++ source.toList), ?_⟩
  rw [prepareStep, loaded, loaded']
  simp only [bind, Except.bind, rendered]
  rfl

theorem prepareSteps_of_fit (before : List PlannedStep) {steps : List PlannedStep}
    (fit : StepsFit loader (before ++ steps)) : ∃ result, prepareSteps loader steps = .ok result := by
  -- every step moves behind those that are prepared
  induction steps generalizing before with
  | nil => exact ⟨([], []), rfl⟩
  | cons step rest ih =>
      obtain ⟨⟨p, texts⟩, here⟩ := prepareStep_of_fits (fit before step rest rfl)
      obtain ⟨⟨later, more⟩, there⟩ := ih (before ++ [step])
        (by rwa [List.append_assoc, List.singleton_append])
      refine ⟨(p :: later, texts ++ more), ?_⟩
      rw [prepareSteps, here]
      simp only [bind, Except.bind, there]
      rfl

/-- A plan that fits its loader can be prepared, if there is no problem with the settings. -/
theorem ofPlan_of_fit {plan : Plan} {settings : Settings} (fit : StepsFit loader plan.steps)
    (sound : settings.problems = []) : ∃ prepared, ofPlan plan loader settings = .ok prepared := by
  obtain ⟨⟨steps, texts⟩, loaded⟩ := prepareSteps_of_fit [] fit
  refine ⟨⟨plan, steps, settings, Digest.ofTexts (plan.fingerprint :: texts.map Digest.ofText)⟩, ?_⟩
  rw [ofPlan, sound, loaded]
  rfl

/-- A declaration that has a plan can be prepared with the loader of the plan. -/
theorem exists_of_ofDeclaration {text : String} {settings : Settings}
    (compiles : (Plan.ofDeclaration text loader).isOk = true) (sound : settings.problems = []) :
    ∃ plan prepared, Plan.ofDeclaration text loader = .ok plan ∧
      ofPlan plan loader settings = .ok prepared := by
  obtain ⟨plan, compiled⟩ := Except.exists_of_isOk compiles
  obtain ⟨prepared, ready⟩ :=
    ofPlan_of_fit (Plan.fits_of_ofDeclaration compiled).1.steps sound
  exact ⟨plan, prepared, compiled, ready⟩

end Prepared

end RecordInference
