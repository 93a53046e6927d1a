import RecordInference.Proofs.Prompt.Template
import RecordInference.Proofs.Run.Conformance
import RecordInference.Proofs.Run.Pool

/-!
# Prompts of a run

A plan of a declaration can be prepared wherever its resources are found as they were, and in every
run of it a prompt is filled without remainder: its paths were found in the fields of earlier steps,
and the record has all of these when the step is reached (`filled_of_follow`).
-/

set_option autoImplicit false

namespace RecordInference

/-! ### Loaders with the same texts -/

/-- Whether two loaders find the same texts for the resources of a step. -/
def SameTexts (loader loader' : Loader) (step : PlannedStep) : Prop :=
  ∀ handle, step.prompt = some handle ∨ step.examples = some handle →
    loader' handle.kind handle.name = loader handle.kind handle.name

theorem StepFits.congr {loader loader' : Loader} {before : List PlannedStep} {step : PlannedStep}
    (h : StepFits loader before step) (same : SameTexts loader loader' step) :
    StepFits loader' before step :=
  { h with
    prompt := by
      intro handle named
      obtain ⟨text, found, resolved⟩ := h.prompt handle named
      exact ⟨text, (same handle (Or.inl named)).trans found, resolved⟩
    examples := by
      intro handle named
      obtain ⟨text, examples, found, read⟩ := h.examples handle named
      exact ⟨text, examples, (same handle (Or.inr named)).trans found, read⟩ }

theorem StepsFit.congr {loader loader' : Loader} {steps : List PlannedStep}
    (h : StepsFit loader steps) (same : ∀ step ∈ steps, SameTexts loader loader' step) :
    StepsFit loader' steps := by
  intro before step after split
  refine (h before step after split).congr (same step ?_)
  rw [split]
  exact List.mem_append_cons_self

/-! ### Prompts -/

/-- Whether the prompt of a step is filled from a record without remainder, and is what the request
of the step has in front. -/
def PreparedStep.Filled (loader : Loader) (step : PreparedStep) (record : Record) : Prop :=
  ∀ handle, step.step.prompt = some handle → ∃ text values,
    loader handle.kind handle.name = some text ∧
    (∀ path ∈ Template.paths text, ∃ v, record.lookup? path = some v) ∧
    (Template.pieces text.toList).mapM (Template.Piece.value? record) = some values ∧
    Template.fill text record = String.ofList values.flatten ∧
    ∀ recordId input, (step.request recordId input record).system =
      Instructions.systemPrompt (some (Template.fill text record)) step.step.instructions
        step.examples

theorem FieldsConform.lookup?_isSome {shape : Keyed Schema} {record : Record}
    (h : FieldsConform shape record) {path : String}
    (found : (Schema.lookup? shape path).isSome = true) :
    ∃ v, record.lookup? path = some v := by
  have related := h.lookup?_rel path
  cases eq : record.lookup? path with
  | none =>
      rw [eq] at related
      cases declared : Schema.lookup? shape path with
      | none =>
          rw [declared] at found
          cases found
      | some schema =>
          rw [declared] at related
          cases related
  | some v => exact ⟨v, rfl⟩

theorem PreparedStep.filled_of_fits {loader : Loader} {before : List PlannedStep}
    {step : PreparedStep} {record : Record} (fits : StepFits loader before step.step)
    (loaded : step.Loaded loader) (conforms : FieldsConform (producedBy before) record) :
    step.Filled loader record := by
  intro handle named
  obtain ⟨text, found, declared⟩ := fits.prompt handle named
  have resolved : ∀ path ∈ Template.paths text, ∃ v, record.lookup? path = some v := by
    intro path member
    exact conforms.lookup?_isSome (declared path member)
  obtain ⟨values, mapped, filled⟩ := Template.fill_of_paths fun path member =>
    Option.isSome_iff_exists.2 (resolved path member)
  have context : step.context = some text := by
    rw [loaded, named]
    exact found
  refine ⟨text, values, found, resolved, mapped, filled, ?_⟩
  intro recordId input
  rw [request, context, Option.map_some]

/-- Whether a task that is about to make an attempt has its prompt filled. -/
def Task.Filled (loader : Loader) : Task → Prop
  | .calling record step _ _ => step.Filled loader record
  | .ended _ => True

/-- An attempt is made at one of the steps that are prepared. -/
theorem Task.mem_of_sound {run : Run} {job : Job} {record : Record} {step : PreparedStep}
    {rest : List PreparedStep} {attempt : Nat}
    (h : Sound run job (.calling record step rest attempt)) : step ∈ run.prepared.steps := by
  cases h with
  | calling _ done split conforms =>
      rw [split]
      exact List.mem_append_cons_self

theorem Task.filled_of_sound {loader : Loader} {run : Run} {job : Job} {t : Task}
    (fit : StepsFit loader (run.prepared.steps.map (·.step)))
    (loaded : ∀ step ∈ run.prepared.steps, step.Loaded loader) (h : Sound run job t) :
    t.Filled loader := by
  cases t with
  | ended ending => trivial
  | calling record step rest attempt =>
      have context := loaded step (mem_of_sound h)
      cases h with
      | calling _ done split conforms =>
          exact PreparedStep.filled_of_fits (fit.of_split split) context conforms

/-- A plan of a declaration can be prepared with the same texts and settings without problems, and
then every prompt that a run reaches is filled without remainder. -/
theorem filled_of_follow {text : String} {loader loader' : Loader} {plan : Plan}
    {settings : Settings} (compiled : Plan.ofDeclaration text loader = .ok plan)
    (same : ∀ step ∈ plan.steps, SameTexts loader loader' step) (sound : settings.problems = []) :
    ∃ prepared, Prepared.ofPlan plan loader' settings = .ok prepared ∧
      ∀ {σ : Type} (env : Collaborators σ) (sink : Sink σ) (name : String) (source : Source)
        (moves : List Move) (s : σ) (job : Job) (record : Record) (step : PreparedStep)
        (rest : List PreparedStep) (attempt : Nat),
        (job, Task.calling record step rest attempt) ∈
          (Pool.follow env sink ⟨prepared, name⟩ moves (.start source) s).1.tasks →
        step.step ∈ plan.steps ∧ step.Filled loader' record := by
  obtain ⟨fits, -⟩ := Plan.fits_of_ofDeclaration compiled
  have fit := fits.steps.congr same
  obtain ⟨prepared, ready⟩ := Prepared.ofPlan_of_fit fit sound
  obtain ⟨-, steps, loaded⟩ := Prepared.steps_of_ofPlan ready
  refine ⟨prepared, ready, ?_⟩
  intro σ env sink name source moves s job record step rest attempt member
  rw [← steps] at fit ⊢
  have sounds := Pool.forall_tasks_follow
    (P := fun job t => Task.Sound ⟨prepared, name⟩ job t) (Task.sound_start _)
    (fun _ _ s kept => Task.sound_advance fit env kept s) moves (List.forall_mem_nil _) s _ member
  exact ⟨List.mem_map_of_mem (Task.mem_of_sound sounds), Task.filled_of_sound fit loaded sounds⟩

/-- A second draft whose prompt names the first. -/
theorem filled_of_follow_reply : ∃ plan prepared job record step rest attempt,
    Plan.ofDeclaration "DRAFT reply\nDRAFT title PROMPT naming"
      (fun _ _ => some "Name this: \x7breply\x7d") = .ok plan ∧
    Prepared.ofPlan plan (fun _ _ => some "Name this: \x7breply\x7d") {} = .ok prepared ∧
    (job, Task.calling record step rest attempt) ∈
      (Pool.follow (.constant (.text "done")) (fun _ s => (true, s)) ⟨prepared, "run"⟩
        [.proceed, .read, .advance 1] (.start [.ok (.text "input")]) ()).1.tasks ∧
    step.step.prompt.isSome = true ∧
    step.Filled (fun _ _ => some "Name this: \x7breply\x7d") record := by
  have run : ((Plan.ofDeclaration "DRAFT reply\nDRAFT title PROMPT naming"
      fun _ _ => some "Name this: \x7breply\x7d").toOption.bind fun plan =>
      (Prepared.ofPlan plan (fun _ _ => some "Name this: \x7breply\x7d") {}).toOption.map
        fun prepared => (Pool.follow (.constant (.text "done")) (fun _ s => (true, s))
          ⟨prepared, "run"⟩ [.proceed, .read, .advance 1] (.start [.ok (.text "input")])
          ()).1.tasks.any fun e =>
            match e.2 with
            | .calling _ step _ _ => step.step.prompt.isSome
            | .ended _ => false) = some true := by decide +kernel
  obtain ⟨plan, compiled, run⟩ := Option.bind_eq_some_iff.1 run
  obtain ⟨prepared, ready, run⟩ := Option.map_eq_some_iff.1 run
  rw [Except.toOption_eq_some_iff] at compiled ready
  obtain ⟨⟨job, t⟩, member, prompted⟩ := List.any_eq_true.1 run
  cases t with
  | ended ending => cases prompted
  | calling record step rest attempt =>
      have same : ∀ step ∈ plan.steps, SameTexts (fun _ _ => some "Name this: \x7breply\x7d")
          (fun _ _ => some "Name this: \x7breply\x7d") step := fun _ _ _ _ => rfl
      have sound : Settings.problems {} = [] := by decide
      obtain ⟨prepared', ready', filled⟩ := filled_of_follow compiled same sound
      cases ready.symm.trans ready'
      exact ⟨plan, prepared, job, record, step, rest, attempt, compiled, ready, member, prompted,
        (filled _ _ _ _ _ _ _ _ _ _ _ member).2⟩

end RecordInference
