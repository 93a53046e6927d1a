import RecordInference.Plan.Compilation
import RecordInference.Proofs.Schema.Correctness
import RecordInference.Proofs.Schema.Resolution

/-!
# Plans that fit

A plan fits a loader if every step of it fits the fields that the steps before it produce
(`StepFits`): its own fields are new, its prompt is found and names only fields of earlier steps,
and its examples are found and well formed. The shape of the record is what the steps produce, and
every rule is typed against it (`Plan.Fits`).

Every plan of a declaration fits the loader that it was made with (`fits_of_ofDeclaration`). While
a plan is under construction this holds for as long as there is no diagnostic (`Assembly.Fits`).
-/

set_option autoImplicit false

namespace RecordInference

/-! ### Fields that steps produce -/

/-- The fields that a value of the schema adds to a record. -/
def StepOutput.produced (schema : Schema) : StepOutput → List (String × Schema)
  | .field name => [(name, schema)]
  | .fields =>
    match schema with
    | .object _ declared => declared
    | _ => []

/-- The fields that a step adds to a record. -/
def PlannedStep.produced (step : PlannedStep) : Keyed Schema := step.output.produced step.schema

/-- The fields that steps add to a record, one step after the other. -/
def producedBy (steps : List PlannedStep) : Keyed Schema := steps.flatMap PlannedStep.produced

theorem producedBy_append (before after : List PlannedStep) :
    producedBy (before ++ after) = producedBy before ++ producedBy after :=
  List.flatMap_append

theorem producedBy_singleton (step : PlannedStep) : producedBy [step] = step.produced :=
  List.append_nil _

/-! ### Steps that fit -/

/-- Whether a prompt is found and names only fields of the shape. -/
def PromptFits (loader : Loader) (shape : Keyed Schema) (handle : Handle) : Prop :=
  ∃ text, loader handle.kind handle.name = some text ∧
    ∀ path ∈ Template.paths text, (Schema.lookup? shape path).isSome = true

/-- Whether a set of examples is found and well formed. -/
def ExamplesFit (loader : Loader) (handle : Handle) : Prop :=
  ∃ text examples, loader handle.kind handle.name = some text ∧ Example.read text = .ok examples

/-- What a step has to be after the steps `before`. -/
structure StepFits (loader : Loader) (before : List PlannedStep) (step : PlannedStep) : Prop where
  index : step.index = before.length
  distinct : step.schema.Distinct
  /-- Only an object can go into the record field by field. -/
  object : step.output = .fields → ∃ name fields, step.schema = .object name fields
  nodup : (Keyed.keys step.produced).Nodup
  fresh : ∀ name ∈ Keyed.keys step.produced, name ∉ Keyed.keys (producedBy before)
  prompt : ∀ handle, step.prompt = some handle → PromptFits loader (producedBy before) handle
  examples : ∀ handle, step.examples = some handle → ExamplesFit loader handle

/-- Whether every step fits those before it. -/
def StepsFit (loader : Loader) (steps : List PlannedStep) : Prop :=
  ∀ before step after, steps = before ++ step :: after → StepFits loader before step

theorem StepsFit.nil (loader : Loader) : StepsFit loader [] := List.forall_split_nil

theorem StepsFit.snoc {loader : Loader} {steps : List PlannedStep} {last : PlannedStep}
    (h : StepsFit loader steps) (fits : StepFits loader steps last) :
    StepsFit loader (steps ++ [last]) :=
  List.forall_split_concat_iff.2 ⟨h, fits⟩

/-- The steps of a plan that fits have their positions as indices. -/
theorem StepsFit.index_eq {loader : Loader} {steps : List PlannedStep} (h : StepsFit loader steps)
    {i : Nat} {step : PlannedStep} (found : steps[i]? = some step) : step.index = i := by
  obtain ⟨bound, rfl⟩ := List.getElem?_eq_some_iff.1 found
  have split : steps = steps.take i ++ steps[i] :: steps.drop (i + 1) := by
    rw [List.getElem_cons_drop, List.take_append_drop]
  rw [(h _ _ _ split).index]
  exact List.length_take_of_le (Nat.le_of_lt bound)

/-! ### Yields -/

/-- A yield whose fields are those that its schema and output produce. -/
structure Yield.Fits (y : Yield) : Prop where
  distinct : y.schema.Distinct
  object : y.output = .fields → ∃ name fields, y.schema = .object name fields
  produced : y.output.produced y.schema = y.produced
  nodup : (Keyed.keys y.produced).Nodup

theorem Yield.fits_single (name : String) {schema : Schema} (distinct : schema.Distinct) :
    (Yield.single name schema).Fits where
  distinct := distinct
  object := nofun
  produced := rfl
  nodup := List.nodup_cons.2 ⟨List.not_mem_nil, List.nodup_nil⟩

theorem Yield.fits_of_ofStep {schemas : Keyed Schema} {step : InferenceStep} {y : Yield}
    (distinct : ∀ e ∈ schemas, e.2.Distinct) (h : Yield.ofStep schemas step = .ok y) : y.Fits := by
  simp only [Yield.ofStep] at h
  split at h
  · cases h
    exact fits_single _ trivial
  · cases h
    exact fits_single _ trivial
  · simp only [Yield.ofDefinition] at h
    split at h
    · cases h
    · next name fields found =>
      have object : (Schema.object name fields).Distinct := distinct _ (Keyed.mem_of_get? found)
      split at h
      · cases h
        exact ⟨object, fun _ => ⟨name, fields, rfl⟩, rfl, object.1⟩
      · simp only [Yield.ofClassification] at h
        split at h
        · cases h
          exact fits_single _ trivial
        · cases h
        · cases h
        · cases h
    · cases h

/-- A step without a yield is reported. -/
theorem Yield.ofStep_ne_error_nil {definitions : List Definition} {schemas : Keyed Schema}
    (expansion : Schema.IsExpansion definitions schemas) (step : InferenceStep) :
    Yield.ofStep schemas step ≠ .error [] := by
  simp only [ofStep]
  split
  · nofun
  · nofun
  · rw [ofDefinition]
    split
    · nofun
    · split
      · nofun
      · unfold ofClassification
        split <;> nofun
    · next schema other found =>
      obtain ⟨d, -, -, fields, rfl, -⟩ := expansion.eq_object found
      exact absurd rfl (other d.name fields)

/-! ### Plans under construction -/

namespace Assembly

/-- What an assembly is for as long as there is no diagnostic. -/
structure Fits (loader : Loader) (d : Assembly) : Prop where
  steps : StepsFit loader d.steps
  shape : d.shape = producedBy d.steps
  nodup : (Keyed.keys d.shape).Nodup
  producers : Keyed.keys d.producers = Keyed.keys d.shape

variable {loader : Loader} {d : Assembly}

/-- Nothing is wrong with a prompt that fits, and with no other one. -/
theorem checked_prompt_iff {line : Nat} {name : Option String} :
    (checked (d.prompt loader line) name).2 = [] ↔
      ∀ n, name = some n → PromptFits loader d.shape ⟨.prompt, n⟩ := by
  cases name with
  | none => exact ⟨fun _ => nofun, fun _ => rfl⟩
  | some n =>
      simp only [checked, prompt, Option.some.injEq, forall_eq', PromptFits]
      split
      · next missing => simp [missing]
      · next text loaded => simp [loaded, List.filter_eq_nil_iff, Option.isSome_iff_ne_none]

theorem promptFits_of_checked {line : Nat} {name : Option String} {handle : Handle}
    (clean : (checked (d.prompt loader line) name).2 = [])
    (found : (checked (d.prompt loader line) name).1 = some handle) :
    PromptFits loader d.shape handle := by
  cases name with
  | none => cases found
  | some n =>
      have fits := checked_prompt_iff.1 clean n rfl
      simp only [checked, prompt] at found
      split at found
      · cases found
      · cases found
        exact fits

/-- Nothing is wrong with examples that fit, and with no other ones. -/
theorem checked_exampleSet_iff {line : Nat} {name : Option String} :
    (checked (exampleSet loader line) name).2 = [] ↔
      ∀ n, name = some n → ExamplesFit loader ⟨.examples, n⟩ := by
  cases name with
  | none => exact ⟨fun _ => nofun, fun _ => rfl⟩
  | some n =>
      simp only [checked, exampleSet, Option.some.injEq, forall_eq', ExamplesFit]
      split
      · next missing => simp [missing]
      · next text loaded =>
        split
        · next fault unread => simp [loaded, unread]
        · next examples read => simp [loaded, read]

theorem examplesFit_of_checked {line : Nat} {name : Option String} {handle : Handle}
    (found : (checked (exampleSet loader line) name).1 = some handle) :
    ExamplesFit loader handle := by
  cases name with
  | none => cases found
  | some name =>
      simp only [checked, exampleSet] at found
      split at found
      · cases found
      · next text loaded =>
        split at found
        · cases found
        · next examples read =>
          cases found
          exact ⟨text, examples, loaded, read⟩

theorem diagnostics_plan (step : InferenceStep) (y : Yield) :
    (d.plan loader step y).diagnostics = d.diagnostics ++ (d.clashes step.line y.produced ++
      (checked (d.prompt loader step.line) step.prompt).2 ++
      (checked (exampleSet loader step.line) step.examples).2) := by
  have kept : (if (d.clashes step.line y.produced).isEmpty then d.produce d.steps.length y.produced
      else d).diagnostics = d.diagnostics := by
    split
    · rfl
    · rfl
  exact congrArg (· ++ _) kept

/-- The assembly with another source, another output and other rules. -/
def around (d : Assembly) (source output : Option String) (rules : List (String × Nat)) :
    Assembly :=
  { d with source, output, rules }

theorem plan_around (source output : Option String) (rules : List (String × Nat))
    (step : InferenceStep) (y : Yield) : (d.around source output rules).plan loader step y =
      (d.plan loader step y).around source output rules := by
  have same : (d.around source output rules).clashes step.line y.produced =
      d.clashes step.line y.produced := rfl
  simp only [plan, same]
  split
  · rfl
  · rfl

/-- A step neither looks at the source, at the output and at the rules nor changes them. -/
theorem take_inference_around (schemas : Keyed Schema) (loader : Loader) (d : Assembly)
    (source output : Option String) (rules : List (String × Nat)) (step : InferenceStep) :
    (d.around source output rules).take schemas loader (.inference step) =
      (d.take schemas loader (.inference step)).around source output rules := by
  simp only [take]
  split
  · rfl
  · exact plan_around source output rules step _

/-- There is no clash where no field is produced already. -/
theorem clashes_eq_nil_iff {line : Nat} {produced : List (String × Schema)} :
    d.clashes line produced = [] ↔
      ∀ name ∈ Keyed.keys produced, name ∉ Keyed.keys d.producers := by
  simp only [clashes, List.filterMap_eq_nil_iff, Option.map_eq_none_iff, Keyed.get?_eq_none_iff,
    Keyed.keys, List.forall_mem_map]

/-- New fields are put behind those that are there, with their shapes and with their step. -/
theorem produce_of_fresh (index : Nat) {produced : List (String × Schema)}
    (producers : Keyed.keys d.producers = Keyed.keys d.shape)
    (nodup : (Keyed.keys produced).Nodup)
    (fresh : ∀ name ∈ Keyed.keys produced, name ∉ Keyed.keys d.shape) :
    (d.produce index produced).shape = d.shape ++ produced ∧
      Keyed.keys (d.produce index produced).producers = Keyed.keys (d.shape ++ produced) := by
  have indexed : Keyed.keys (produced.map fun e => (e.1, index)) = Keyed.keys produced :=
    List.map_map
  have extended : Keyed.extend d.producers (produced.map fun e => (e.1, index)) =
      d.producers ++ produced.map fun e => (e.1, index) := by
    apply Keyed.extend_eq_append
    · rw [indexed]
      exact nodup
    · rw [indexed, producers]
      exact fresh
  refine ⟨Keyed.extend_eq_append nodup fresh, ?_⟩
  refine (congrArg Keyed.keys extended).trans ?_
  rw [Keyed.keys_append, Keyed.keys_append, producers, indexed]

/-- The fields of a step that causes no diagnostic are new, and are put behind those of the steps
before it. -/
theorem produced_of_clean {step : InferenceStep} {y : Yield}
    (producers : Keyed.keys d.producers = Keyed.keys d.shape)
    (nodup : (Keyed.keys y.produced).Nodup) (clean : (d.plan loader step y).diagnostics = []) :
    (∀ name ∈ Keyed.keys y.produced, name ∉ Keyed.keys d.shape) ∧
      (d.plan loader step y).shape = d.shape ++ y.produced ∧
      Keyed.keys (d.plan loader step y).producers = Keyed.keys (d.plan loader step y).shape := by
  simp only [diagnostics_plan, List.append_eq_nil_iff] at clean
  obtain ⟨-, ⟨free, -⟩, -⟩ := clean
  have fresh : ∀ name ∈ Keyed.keys y.produced, name ∉ Keyed.keys d.shape := by
    rw [← producers]
    exact clashes_eq_nil_iff.1 free
  obtain ⟨shape, keys⟩ := produce_of_fresh d.steps.length producers nodup fresh
  simp only [plan, free, List.isEmpty_nil, if_true]
  exact ⟨fresh, shape, keys.trans (congrArg Keyed.keys shape.symm)⟩

/-- A step that causes no diagnostic fits the steps before it. -/
theorem fits_plan {step : InferenceStep} {y : Yield} (fits : d.Fits loader) (yields : y.Fits)
    (clean : (d.plan loader step y).diagnostics = []) : (d.plan loader step y).Fits loader := by
  obtain ⟨fresh, shape, producers⟩ := produced_of_clean fits.producers yields.nodup clean
  simp only [diagnostics_plan, List.append_eq_nil_iff] at clean
  -- examples that are found are well formed even where there are diagnostics
  obtain ⟨-, ⟨-, prompts⟩, -⟩ := clean
  have planned : ∀ last : PlannedStep, last.produced = y.produced →
      producedBy (d.steps ++ [last]) = d.shape ++ y.produced := by
    intro last same
    rw [producedBy_append, producedBy_singleton, same, fits.shape]
  refine ⟨fits.steps.snoc ⟨rfl, yields.distinct, yields.object, ?_, ?_, ?_, ?_⟩, ?_, ?_, producers⟩
  · rw [PlannedStep.produced, yields.produced]
    exact yields.nodup
  · rw [PlannedStep.produced, yields.produced, ← fits.shape]
    exact fresh
  · intro handle found
    rw [← fits.shape]
    exact promptFits_of_checked prompts found
  · intro handle found
    exact examplesFit_of_checked found
  · refine shape.trans (planned _ ?_).symm
    exact yields.produced
  · rw [shape, Keyed.keys_append, List.nodup_append]
    refine ⟨fits.nodup, yields.nodup, ?_⟩
    intro old member new member' same
    exact fresh new member' (same ▸ member)

/-- What an assembly keeps where no step is added to it. -/
structure Keeps (d d' : Assembly) : Prop where
  steps : d'.steps = d.steps
  shape : d'.shape = d.shape
  producers : d'.producers = d.producers
  diagnostics : ∃ ds, d'.diagnostics = d.diagnostics ++ ds

theorem keeps_report (d : Assembly) (ds : List Diagnostic) : d.Keeps (d.report ds) :=
  ⟨rfl, rfl, rfl, ds, rfl⟩

theorem Fits.of_keeps {d' : Assembly} (fits : d.Fits loader) (keeps : d.Keeps d') :
    d'.Fits loader where
  steps := keeps.steps ▸ fits.steps
  shape := by
    rw [keeps.shape, keeps.steps]
    exact fits.shape
  nodup := keeps.shape ▸ fits.nodup
  producers := by
    rw [keeps.producers, keeps.shape]
    exact fits.producers

theorem keeps_take (schemas : Keyed Schema) (loader : Loader) (d : Assembly) {step : Step}
    (other : step.isInference = false) : d.Keeps (d.take schemas loader step) := by
  have silent : ∀ d' : Assembly, d'.diagnostics = d.diagnostics →
      ∃ ds, d'.diagnostics = d.diagnostics ++ ds :=
    fun _ same => ⟨[], same.trans (List.append_nil _).symm⟩
  cases step with
  | source locator line =>
      rw [take]
      split
      · exact keeps_report d _
      · exact ⟨rfl, rfl, rfl, silent _ rfl⟩
  | output locator line =>
      rw [take]
      split
      · exact keeps_report d _
      · exact ⟨rfl, rfl, rfl, silent _ rfl⟩
  | set | rule => exact ⟨rfl, rfl, rfl, silent _ rfl⟩
  | inference step => cases other

/-- Diagnostics are never taken back. -/
theorem diagnostics_take (schemas : Keyed Schema) (loader : Loader) (d : Assembly) (step : Step) :
    ∃ ds, (d.take schemas loader step).diagnostics = d.diagnostics ++ ds := by
  cases step with
  | source | output | set | rule => exact (keeps_take schemas loader d rfl).diagnostics
  | inference step =>
      rw [take]
      split
      · exact (keeps_report d _).diagnostics
      · exact ⟨_, diagnostics_plan _ _⟩

theorem diagnostics_foldl (schemas : Keyed Schema) (loader : Loader) (pipeline : List Step)
    (d : Assembly) :
    ∃ ds, (pipeline.foldl (take schemas loader) d).diagnostics = d.diagnostics ++ ds := by
  induction pipeline generalizing d with
  | nil => exact ⟨[], (List.append_nil _).symm⟩
  | cons step rest ih =>
      obtain ⟨ds, first⟩ := diagnostics_take schemas loader d step
      obtain ⟨ds', later⟩ := ih (d.take schemas loader step)
      exact ⟨ds ++ ds', by rw [List.foldl_cons, later, first, List.append_assoc]⟩

/-- Without a diagnostic after constructs there was none before them. -/
theorem clean_of_foldl {schemas : Keyed Schema} (pipeline : List Step) {d : Assembly}
    (clean : (pipeline.foldl (take schemas loader) d).diagnostics = []) : d.diagnostics = [] := by
  obtain ⟨ds, grown⟩ := diagnostics_foldl schemas loader pipeline d
  exact (List.append_eq_nil_iff.1 (grown ▸ clean)).1

/-- A construct that causes no diagnostic leaves an assembly as it has to be. -/
theorem fits_take {schemas : Keyed Schema} (distinct : ∀ e ∈ schemas, e.2.Distinct) {step : Step}
    (fits : d.Fits loader) (clean : (d.take schemas loader step).diagnostics = []) :
    (d.take schemas loader step).Fits loader := by
  cases step with
  | source | output | set | rule => exact fits.of_keeps (keeps_take schemas loader d rfl)
  | inference step =>
      simp only [take] at clean ⊢
      split at clean
      · exact fits.of_keeps (keeps_report d _)
      · next yields => exact fits_plan fits (Yield.fits_of_ofStep distinct yields) clean

/-- What the constructs of a pipeline make of an assembly, as long as there is no diagnostic. -/
theorem fits_foldl {schemas : Keyed Schema} (distinct : ∀ e ∈ schemas, e.2.Distinct)
    {pipeline : List Step} {d : Assembly} (fits : d.diagnostics = [] → d.Fits loader)
    (clean : (pipeline.foldl (take schemas loader) d).diagnostics = []) :
    (pipeline.foldl (take schemas loader) d).Fits loader := by
  induction pipeline generalizing d with
  | nil => exact fits clean
  | cons step rest ih =>
      apply ih ?_ clean
      intro clean'
      have before : d.diagnostics = [] := clean_of_foldl [step] clean'
      exact fits_take distinct (fits before) clean'

end Assembly

/-! ### Rules -/

/-- The rule that a construct states. -/
def Step.rule? : Step → Option String
  | .rule expression _ => some expression
  | _ => none

/-- The rules of a program, in their order. -/
def Program.rules (program : Program) : List String := program.pipeline.filterMap Step.rule?

/-- Whether a rule is what its text says, typed against a shape. -/
def RuleFits (shape : Keyed Schema) (rule : PlannedRule) : Prop :=
  ∃ expr, Rule.read rule.text = .ok expr ∧ Rule.typed shape expr = .ok rule.condition

theorem Rule.typed_ne_error_nil (shape : Keyed Schema) (expr : Rule.Expr) :
    Rule.typed shape expr ≠ .error [] := by
  induction expr with
  | compare field op literal =>
      rw [Rule.typed]
      split <;> nofun
  | join op left right ihl ihr =>
      rw [Rule.typed]
      split
      · nofun
      · next misfits _ typed _ =>
        intro eq
        cases eq
        exact ihl typed
      · next misfits typed =>
        intro eq
        cases eq
        exact ihr typed
      · next misfits misfits' typed _ =>
        intro eq
        have none : misfits = [] := (List.append_eq_nil_iff.1 (Except.error.inj eq)).1
        exact ihl (none ▸ typed)

theorem planRule_ne_error_nil (shape : Keyed Schema) (text : String) (line : Nat) :
    planRule shape text line ≠ .error [] := by
  simp only [planRule]
  split
  · nofun
  · next expr read =>
    split
    · next misfits typed =>
      intro eq
      have none : misfits = [] := List.map_eq_nil_iff.1 (Except.error.inj eq)
      exact Rule.typed_ne_error_nil shape expr (none ▸ typed)
    · nofun

theorem fits_of_planRule {shape : Keyed Schema} {text : String} {line : Nat} {rule : PlannedRule}
    (h : planRule shape text line = .ok rule) : rule.text = text ∧ RuleFits shape rule := by
  simp only [planRule] at h
  split at h
  · cases h
  · next expr read =>
    split at h
    · cases h
    · next condition typed =>
      cases h
      exact ⟨rfl, expr, read, typed⟩

theorem exists_planRule_iff {shape : Keyed Schema} {text : String} {line : Nat} :
    (∃ rule, planRule shape text line = .ok rule) ↔
      ∃ expr condition, Rule.read text = .ok expr ∧ Rule.typed shape expr = .ok condition := by
  rw [planRule]
  split
  · next fault unread => simp [unread]
  · next expr read =>
    split
    · next misfits untyped => simp [read, untyped]
    · next condition typed => simp [read, typed]

/-- Without diagnostics every rule is planned, in its place. -/
theorem fits_of_planRules {shape : Keyed Schema} {rules : List (String × Nat)}
    (clean : (planRules shape rules).2 = []) :
    (planRules shape rules).1.map (·.text) = rules.map (·.1) ∧
      ∀ rule ∈ (planRules shape rules).1, RuleFits shape rule := by
  induction rules with
  | nil => exact ⟨rfl, nofun⟩
  | cons first rest ih =>
      obtain ⟨text, line⟩ := first
      simp only [planRules] at clean ⊢
      split
      · next rule planned =>
        rw [planned] at clean
        obtain ⟨texts, fit⟩ := ih clean
        obtain ⟨same, fits⟩ := fits_of_planRule planned
        refine ⟨?_, List.forall_mem_cons.2 ⟨fits, fit⟩⟩
        rw [List.map_cons, List.map_cons, same, texts]
      · next faults planned =>
        rw [planned] at clean
        have none : faults = [] := (List.append_eq_nil_iff.1 clean).1
        exact absurd (none ▸ planned) (planRule_ne_error_nil shape text line)

namespace Assembly

theorem rules_take (schemas : Keyed Schema) (loader : Loader) (d : Assembly) (step : Step) :
    (d.take schemas loader step).rules.map (·.1) = d.rules.map (·.1) ++ step.rule?.toList := by
  cases step with
  | source locator line =>
      simp only [take]
      split
      · exact (List.append_nil _).symm
      · exact (List.append_nil _).symm
  | output locator line =>
      simp only [take]
      split
      · exact (List.append_nil _).symm
      · exact (List.append_nil _).symm
  | set => exact (List.append_nil _).symm
  | rule expression line => exact List.map_append
  | inference step =>
      have kept := take_inference_around schemas loader d d.source d.output d.rules step
      exact (congrArg (fun d' => d'.rules.map (·.1)) kept).trans (List.append_nil _).symm

theorem rules_foldl (schemas : Keyed Schema) (loader : Loader) (pipeline : List Step)
    (d : Assembly) : (pipeline.foldl (take schemas loader) d).rules.map (·.1) =
      d.rules.map (·.1) ++ pipeline.filterMap Step.rule? := by
  induction pipeline generalizing d with
  | nil => exact (List.append_nil _).symm
  | cons step rest ih =>
      rw [List.foldl_cons, ih, rules_take, List.append_assoc]
      cases eq : step.rule? with
      | none => rw [List.filterMap_cons_none eq, Option.toList_none, List.nil_append]
      | some text => rw [List.filterMap_cons_some eq, Option.toList_some, List.singleton_append]

end Assembly

/-! ### Plans -/

/-- What a plan is that was made with a loader. -/
structure Plan.Fits (loader : Loader) (plan : Plan) : Prop where
  steps : StepsFit loader plan.steps
  shape : plan.shape = producedBy plan.steps
  nodup : (Keyed.keys plan.shape).Nodup
  rules : ∀ rule ∈ plan.rules, RuleFits plan.shape rule

/-- What the constructs of a program come to. -/
def Program.assemble (program : Program) (schemas : Keyed Schema) (loader : Loader) : Assembly :=
  let d := program.pipeline.foldl (Assembly.take schemas loader) { overrides := program.settings }
  if program.pipeline.any Step.isInference then d else d.report [.noInferenceStep]

theorem Program.fits_assemble {program : Program} {schemas : Keyed Schema} {loader : Loader}
    (distinct : ∀ e ∈ schemas, e.2.Distinct)
    (clean : (program.assemble schemas loader).diagnostics = []) :
    (program.assemble schemas loader).Fits loader := by
  simp only [assemble] at clean ⊢
  split
  · next some =>
    rw [if_pos some] at clean
    apply Assembly.fits_foldl distinct ?_ clean
    intro empty
    exact ⟨.nil loader, rfl, List.nodup_nil, rfl⟩
  · next none =>
    rw [if_neg none] at clean
    simp [Assembly.report] at clean

theorem Program.rules_assemble (program : Program) (schemas : Keyed Schema) (loader : Loader) :
    (program.assemble schemas loader).rules.map (·.1) = program.rules := by
  have folded := Assembly.rules_foldl schemas loader program.pipeline
    { overrides := program.settings }
  simp only [assemble]
  split
  · exact folded
  · exact folded

theorem Program.steps_assemble (program : Program) (schemas : Keyed Schema) (loader : Loader) :
    (program.assemble schemas loader).steps = (program.pipeline.foldl
      (Assembly.take schemas loader) { overrides := program.settings }).steps := by
  simp only [assemble]
  split
  · rfl
  · rfl

theorem Plan.compile_eq (program : Program) (schemas : Keyed Schema) (loader : Loader) :
    Plan.compile program schemas loader =
      let d := program.assemble schemas loader
      if (d.diagnostics ++ (planRules d.shape d.rules).2).isEmpty then
        .ok ⟨d.source, d.steps, (planRules d.shape d.rules).1, d.output, d.shape⟩
      else .error (d.diagnostics ++ (planRules d.shape d.rules).2) := rfl

/-- A plan is what the constructs come to, if that leaves no diagnostic. -/
theorem Plan.of_compile {program : Program} {schemas : Keyed Schema} {loader : Loader} {plan : Plan}
    (h : Plan.compile program schemas loader = .ok plan) :
    let d := program.assemble schemas loader
    d.diagnostics = [] ∧ (planRules d.shape d.rules).2 = [] ∧
      plan = ⟨d.source, d.steps, (planRules d.shape d.rules).1, d.output, d.shape⟩ := by
  rw [compile_eq] at h
  simp only at h
  split at h
  · next clean =>
    cases h
    rw [List.isEmpty_iff, List.append_eq_nil_iff] at clean
    exact ⟨clean.1, clean.2, rfl⟩
  · cases h

theorem Plan.fits_of_compile {program : Program} {schemas : Keyed Schema} {loader : Loader}
    {plan : Plan} (distinct : ∀ e ∈ schemas, e.2.Distinct)
    (h : Plan.compile program schemas loader = .ok plan) :
    plan.Fits loader ∧ plan.rules.map (·.text) = program.rules := by
  obtain ⟨clean, rules, rfl⟩ := Plan.of_compile h
  have fits := Program.fits_assemble distinct clean
  obtain ⟨texts, fit⟩ := fits_of_planRules rules
  exact ⟨⟨fits.steps, fits.shape, fits.nodup, fit⟩,
    texts.trans (Program.rules_assemble program schemas loader)⟩

theorem Program.plan_eq_ok_iff {program : Program} {loader : Loader} {plan : Plan} :
    program.plan loader = .ok plan ↔ ∃ schemas, Schema.resolve program.definitions = .ok schemas ∧
      Plan.compile program schemas loader = .ok plan := by
  simp only [Program.plan, Except.bind_eq_ok_iff, Except.mapError_eq_ok_iff]

/-- A declaration is read, its definitions are resolved, and its program is compiled. -/
theorem Plan.ofDeclaration_eq_ok_iff {text : String} {loader : Loader} {plan : Plan} :
    Plan.ofDeclaration text loader = .ok plan ↔
      ∃ program schemas, Declaration.read text = .ok program ∧
        Schema.resolve program.definitions = .ok schemas ∧
        Plan.compile program schemas loader = .ok plan := by
  simp only [ofDeclaration, Except.bind_eq_ok_iff, Except.mapError_eq_ok_iff,
    Program.plan_eq_ok_iff, exists_and_left]

/-- A plan of a declaration fits the loader that it was made with, and has the rules of the
declaration in their order. -/
theorem Plan.fits_of_ofDeclaration {text : String} {loader : Loader} {plan : Plan}
    (h : Plan.ofDeclaration text loader = .ok plan) : plan.Fits loader ∧
      ∃ program, Declaration.read text = .ok program ∧
        plan.rules.map (·.text) = program.rules := by
  obtain ⟨program, schemas, read, resolved, compiled⟩ := ofDeclaration_eq_ok_iff.1 h
  have distinct := Schema.distinct_of_resolve (Declaration.distinct_of_read read) resolved
  obtain ⟨fits, rules⟩ := Plan.fits_of_compile distinct compiled
  exact ⟨fits, program, read, rules⟩

end RecordInference
