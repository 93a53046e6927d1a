import RecordInference.Proofs.Plan.Soundness
import RecordInference.Proofs.Schema.Dependence

/-!
# Which programs have a plan

What a program has to be for a plan is said here of the program itself (`Program.Sound`): it has a
step, it has no second source or output, its rules are typed against the fields of all steps, and
every step suits the steps before it (`InferenceStep.Sound`). The fields of a step are read off its
definition (`InferenceStep.produced`).

A program has a plan exactly if it is sound (`Plan.compile_iff_sound`). A plan under construction
leaves out a step in which something is wrong, so its shape is the one of the program only for as
long as there is no diagnostic; the induction over the pipeline carries both facts together
(`Program.Assembled`).
-/

set_option autoImplicit false

namespace RecordInference

/-! ### Programs by themselves -/

namespace Step

/-- The inference step that a construct is. -/
def inference? : Step → Option InferenceStep
  | inference step => some step
  | _ => none

/-- The locator of a source. -/
def source? : Step → Option String
  | source locator _ => some locator
  | _ => none

/-- The locator of an output. -/
def output? : Step → Option String
  | output locator _ => some locator
  | _ => none

end Step

namespace Program

/-- The inference steps of a program, in their order. -/
def inferenceSteps (p : Program) : List InferenceStep := p.pipeline.filterMap Step.inference?

/-- The sources of a program. -/
def sources (p : Program) : List String := p.pipeline.filterMap Step.source?

/-- The outputs of a program. -/
def outputs (p : Program) : List String := p.pipeline.filterMap Step.output?

end Program

/-- Whether the target of a step names a definition. The target of a draft, and of a classification
into given values, is the field that the step adds. -/
def InferenceStep.NamesDefinition (step : InferenceStep) : Prop :=
  step.verb = .extract ∨ step.verb = .classify ∧ step.categories = none

/-- The fields that a step adds to a record. A draft adds a text and a classification into given
values one of these, both under the target; the other steps add the fields of the definition that
the target names. -/
def InferenceStep.produced (program : Program) (schemas : Keyed Schema) (step : InferenceStep) :
    Keyed Schema :=
  match step.verb, step.categories with
  | .classify, some values => [(step.target, .oneOf values)]
  | .draft, _ => [(step.target, .text)]
  | _, _ => (program.definition? step.target).elim [] fun d =>
      d.fields.filterMap (Field.expanded? schemas)

/-- The fields that steps add to a record, one step after the other. -/
def Program.shapeOf (program : Program) (schemas : Keyed Schema) (steps : List InferenceStep) :
    Keyed Schema :=
  steps.flatMap (InferenceStep.produced program schemas)

/-- What a step has to be after the steps `before`. -/
structure InferenceStep.Sound (program : Program) (schemas : Keyed Schema) (loader : Loader)
    (before : List InferenceStep) (step : InferenceStep) : Prop where
  extract : step.verb = .extract → ∃ d, program.definition? step.target = some d
  /-- Without given values a classification needs a definition with a single field that has some. -/
  classify : step.verb = .classify → step.categories = none →
    ∃ d f values, program.definition? step.target = some d ∧ d.fields = [f] ∧
      f.type = .oneOf values
  apart : ∀ earlier ∈ before, ∀ name ∈ Keyed.keys (earlier.produced program schemas),
    name ∉ Keyed.keys (step.produced program schemas)
  prompt : ∀ name, step.prompt = some name →
    PromptFits loader (program.shapeOf schemas before) ⟨.prompt, name⟩
  examples : ∀ name, step.examples = some name → ExamplesFit loader ⟨.examples, name⟩

/-- Whether every step is what it has to be after the steps before it. -/
def StepsSound (program : Program) (schemas : Keyed Schema) (loader : Loader)
    (steps : List InferenceStep) : Prop :=
  ∀ before step after, steps = before ++ step :: after →
    step.Sound program schemas loader before

/-- What a program has to be for a plan. -/
structure Program.Sound (program : Program) (schemas : Keyed Schema) (loader : Loader) :
    Prop where
  inference : program.inferenceSteps ≠ []
  source : program.sources.length ≤ 1
  output : program.outputs.length ≤ 1
  steps : StepsSound program schemas loader program.inferenceSteps
  rules : ∀ text ∈ program.rules, ∃ expr condition, Rule.read text = .ok expr ∧
    Rule.typed (program.shapeOf schemas program.inferenceSteps) expr = .ok condition

/-! ### Fields of definitions -/

section

variable {program : Program} {schemas : Keyed Schema}
  (expansion : Schema.IsExpansion program.definitions schemas)

include expansion

theorem Program.get?_of_definition? {name : String} {d : Definition}
    (found : program.definition? name = some d) :
    ∃ fields, Keyed.get? name schemas = some (.object name fields) ∧
      FieldsExpand schemas d.fields fields := by
  have declared := List.mem_of_find?_eq_some found
  have named : d.name = name := by simpa using List.find?_some found
  obtain ⟨_, known, fields, rfl, expand⟩ := expansion.expands d declared
  rw [named] at known
  exact ⟨fields, known, expand⟩

theorem Program.get?_of_undefined {name : String} (missing : program.definition? name = none) :
    Keyed.get? name schemas = none := by
  rw [Keyed.get?_eq_none_iff, expansion.keys, List.mem_map]
  rintro ⟨d, declared, named⟩
  have other := List.find?_eq_none.1 missing d declared
  simp [named] at other

/-- No other type is expanded to a choice of values. -/
theorem FieldType.expanded?_eq_oneOf_iff {type : FieldType} {values : List String} :
    type.expanded? schemas = some (.oneOf values) ↔ type = .oneOf values := by
  refine ⟨fun expanded => ?_, fun same => same ▸ rfl⟩
  cases type with
  | text | money | number | yesNo => cases expanded
  | oneOf => cases expanded; rfl
  | object name =>
      obtain ⟨d, -, -, fields, eq, -⟩ := expansion.eq_object expanded
      cases eq
  | listOf name =>
      obtain ⟨items, -, eq⟩ := Option.map_eq_some_iff.1 expanded
      cases eq

theorem FieldsExpand.single_iff {fields : List Field} {es : List (String × Schema)}
    (h : FieldsExpand schemas fields es) :
    (∃ name values, es = [(name, .oneOf values)]) ↔
      ∃ f values, fields = [f] ∧ f.type = .oneOf values := by
  constructor
  · rintro ⟨name, values, rfl⟩
    obtain ⟨f, rest, ⟨-, expanded⟩, none, rfl⟩ := List.forall₂_cons_right_iff.1 h
    cases none
    exact ⟨f, values, rfl, (FieldType.expanded?_eq_oneOf_iff expansion).1 expanded⟩
  · rintro ⟨f, values, rfl, type⟩
    obtain ⟨⟨name, schema⟩, rest, ⟨-, expanded⟩, none, rfl⟩ := List.forall₂_cons_left_iff.1 h
    cases none
    rw [(FieldType.expanded?_eq_oneOf_iff expansion).2 type] at expanded
    cases expanded
    exact ⟨name, values, rfl⟩

end

/-! ### Yields -/

section

variable {step : InferenceStep}

theorem Yield.ofStep_of_names (names : step.NamesDefinition) (schemas : Keyed Schema) :
    Yield.ofStep schemas step = Yield.ofDefinition schemas step := by
  rcases names with verb | ⟨verb, free⟩
  · simp [Yield.ofStep, verb]
  · simp [Yield.ofStep, verb, free]

theorem InferenceStep.produced_of_names (names : step.NamesDefinition) (program : Program)
    (schemas : Keyed Schema) : step.produced program schemas =
      (program.definition? step.target).elim [] fun d =>
        d.fields.filterMap (Field.expanded? schemas) := by
  rcases names with verb | ⟨verb, free⟩
  · simp [InferenceStep.produced, verb]
  · simp [InferenceStep.produced, verb, free]

/-- A step whose target is a field yields a value under it, whatever is defined. -/
theorem InferenceStep.exists_single (other : ¬ step.NamesDefinition) :
    ∃ schema, (∀ schemas, Yield.ofStep schemas step = .ok (.single step.target schema)) ∧
      ∀ program schemas, step.produced program schemas = [(step.target, schema)] := by
  obtain ⟨verb, target, categories, prompt, examples, line⟩ := step
  cases verb with
  | extract => exact absurd (Or.inl rfl) other
  | draft => exact ⟨.text, fun _ => rfl, fun _ _ => rfl⟩
  | classify =>
      cases categories with
      | none => exact absurd (Or.inr ⟨rfl, rfl⟩) other
      | some values => exact ⟨.oneOf values, fun _ => rfl, fun _ _ => rfl⟩

theorem Yield.ofClassification_eq_ok_iff {line : Nat} {target : String}
    {fields : List (String × Schema)} {y : Yield} :
    ofClassification line target fields = .ok y ↔
      ∃ name values, fields = [(name, .oneOf values)] ∧ y = single name (.oneOf values) := by
  constructor
  · intro yields
    simp only [ofClassification] at yields
    split at yields
    · next name values =>
      cases yields
      exact ⟨name, values, rfl, rfl⟩
    · cases yields
    · cases yields
    · cases yields
  · rintro ⟨name, values, rfl, rfl⟩
    rfl

end

section

variable {program : Program} {schemas : Keyed Schema}
  (expansion : Schema.IsExpansion program.definitions schemas) {step : InferenceStep}

include expansion

/-- A step has a yield exactly if its target is the name of a definition that suits it, where it is
to name one. -/
theorem Yield.exists_ofStep_iff (step : InferenceStep) : (∃ y, Yield.ofStep schemas step = .ok y) ↔
    (step.verb = .extract → ∃ d, program.definition? step.target = some d) ∧
    (step.verb = .classify → step.categories = none →
      ∃ d f values, program.definition? step.target = some d ∧ d.fields = [f] ∧
        f.type = .oneOf values) := by
  by_cases names : step.NamesDefinition
  · rw [Yield.ofStep_of_names names]
    cases found : program.definition? step.target with
    | none =>
        simp only [ofDefinition, Program.get?_of_undefined expansion found]
        rcases names with verb | ⟨verb, free⟩
        · simp [verb]
        · simp [verb, free]
    | some d =>
        obtain ⟨fields, known, expand⟩ := Program.get?_of_definition? expansion found
        simp only [ofDefinition, known]
        rcases names with verb | ⟨verb, free⟩
        · simp [verb]
        · -- the definition has to have a single field with given values
          have single := expand.single_iff expansion
          simp only [verb, free, reduceCtorEq, if_false, ofClassification_eq_ok_iff,
            IsEmpty.forall_iff, true_and, forall_const, Option.some.injEq]
          constructor
          · rintro ⟨-, name, values, alone, -⟩
            obtain ⟨f, values, declared, type⟩ := single.1 ⟨name, values, alone⟩
            exact ⟨d, f, values, rfl, declared, type⟩
          · rintro ⟨_, f, values, rfl, declared, type⟩
            obtain ⟨name, values, alone⟩ := single.2 ⟨f, values, declared, type⟩
            exact ⟨_, name, values, alone, rfl⟩
  · obtain ⟨schema, yields, -⟩ := InferenceStep.exists_single names
    simp only [InferenceStep.NamesDefinition, not_or, not_and] at names
    refine ⟨fun _ => ⟨fun verb => absurd verb names.1, fun verb free => ?_⟩,
      fun _ => ⟨_, yields schemas⟩⟩
    exact absurd free (names.2 verb)

theorem Yield.produced_eq {y : Yield} (yields : Yield.ofStep schemas step = .ok y) :
    y.produced = step.produced program schemas := by
  by_cases names : step.NamesDefinition
  · rw [Yield.ofStep_of_names names, ofDefinition] at yields
    rw [InferenceStep.produced_of_names names]
    cases found : program.definition? step.target with
    | none =>
        rw [Program.get?_of_undefined expansion found] at yields
        cases yields
    | some d =>
        obtain ⟨fields, known, expand⟩ := Program.get?_of_definition? expansion found
        simp only [known] at yields
        rw [Option.elim_some, expand.eq_filterMap]
        split at yields
        · cases yields
          rfl
        · obtain ⟨name, values, rfl, rfl⟩ := ofClassification_eq_ok_iff.1 yields
          rfl
  · obtain ⟨schema, yields', produced⟩ := InferenceStep.exists_single names
    rw [yields' schemas] at yields
    cases yields
    rw [produced]
    rfl

end

/-! ### Plans under construction -/

/-- Whether a plan under construction has the fields of the steps so far. -/
structure Assembly.Stands (program : Program) (schemas : Keyed Schema)
    (steps : List InferenceStep) (d : Assembly) : Prop where
  shape : d.shape = program.shapeOf schemas steps
  producers : Keyed.keys d.producers = Keyed.keys d.shape

theorem Program.mem_keys_shapeOf {program : Program} {schemas : Keyed Schema}
    {steps : List InferenceStep} {name : String} :
    name ∈ Keyed.keys (program.shapeOf schemas steps) ↔
      ∃ step ∈ steps, name ∈ Keyed.keys (step.produced program schemas) := by
  rw [Keyed.keys, shapeOf, List.map_flatMap, List.mem_flatMap]
  rfl

section

variable {program : Program} {schemas : Keyed Schema} {loader : Loader} {d : Assembly}
  {steps : List InferenceStep} {step : InferenceStep}

/-- A step of known yield is reported unless it is what it has to be. -/
theorem Assembly.Stands.clean_plan_iff (stands : d.Stands program schemas steps) {y : Yield}
    (produced : y.produced = step.produced program schemas) :
    (d.plan loader step y).diagnostics = [] ↔ d.diagnostics = [] ∧
      (∀ earlier ∈ steps, ∀ name ∈ Keyed.keys (earlier.produced program schemas),
        name ∉ Keyed.keys (step.produced program schemas)) ∧
      (∀ name, step.prompt = some name →
        PromptFits loader (program.shapeOf schemas steps) ⟨.prompt, name⟩) ∧
      ∀ name, step.examples = some name → ExamplesFit loader ⟨.examples, name⟩ := by
  have apart : (∀ name ∈ Keyed.keys (step.produced program schemas),
      name ∉ Keyed.keys (program.shapeOf schemas steps)) ↔
        ∀ earlier ∈ steps, ∀ name ∈ Keyed.keys (earlier.produced program schemas),
          name ∉ Keyed.keys (step.produced program schemas) := by
    simp only [Program.mem_keys_shapeOf, not_exists, not_and]
    exact ⟨fun fresh earlier member name old new => fresh name new earlier member old,
      fun fresh name new earlier member old => fresh earlier member name old new⟩
  rw [diagnostics_plan, List.append_eq_nil_iff, List.append_eq_nil_iff, List.append_eq_nil_iff,
    clashes_eq_nil_iff, checked_prompt_iff, checked_exampleSet_iff, produced, stands.producers,
    stands.shape, apart, and_assoc]

variable (expansion : Schema.IsExpansion program.definitions schemas)

include expansion

theorem Assembly.Stands.clean_take_iff (stands : d.Stands program schemas steps) :
    (d.take schemas loader (.inference step)).diagnostics = [] ↔
      d.diagnostics = [] ∧ step.Sound program schemas loader steps := by
  have suits := Yield.exists_ofStep_iff expansion step
  rw [take]
  cases yields : Yield.ofStep schemas step with
  | error ds =>
      have wrong : ds ≠ [] := fun none => Yield.ofStep_ne_error_nil expansion step (none ▸ yields)
      simp only [report, List.append_eq_nil_iff, wrong, and_false, false_iff]
      rintro ⟨-, sound⟩
      obtain ⟨y, yields'⟩ := suits.2 ⟨sound.extract, sound.classify⟩
      rw [yields] at yields'
      cases yields'
  | ok y =>
      obtain ⟨extract, classify⟩ := suits.1 ⟨y, yields⟩
      refine (stands.clean_plan_iff (Yield.produced_eq expansion yields)).trans
        (and_congr_right fun _ => ?_)
      constructor
      · rintro ⟨apart, prompt, examples⟩
        exact ⟨extract, classify, apart, prompt, examples⟩
      · intro sound
        exact ⟨sound.apart, sound.prompt, sound.examples⟩

theorem Assembly.Stands.take (stands : d.Stands program schemas steps)
    (distinct : ∀ e ∈ schemas, e.2.Distinct)
    (clean : (d.take schemas loader (.inference step)).diagnostics = []) :
    (d.take schemas loader (.inference step)).Stands program schemas (steps ++ [step]) := by
  rw [Assembly.take] at clean ⊢
  cases yields : Yield.ofStep schemas step with
  | error ds =>
      simp only [yields, report, List.append_eq_nil_iff] at clean
      exact absurd (clean.2 ▸ yields) (Yield.ofStep_ne_error_nil expansion step)
  | ok y =>
      simp only [yields] at clean ⊢
      obtain ⟨-, shape, producers⟩ := produced_of_clean stands.producers
        (Yield.fits_of_ofStep distinct yields).nodup clean
      refine ⟨?_, producers⟩
      rw [shape, stands.shape, Yield.produced_eq expansion yields, Program.shapeOf,
        Program.shapeOf, List.flatMap_append, List.flatMap_singleton]

end

/-! ### Pipelines -/

/-- What constructs come to. As long as there is no diagnostic the assembly has the fields of the
steps, and there is none exactly if the constructs are as they have to be. -/
structure Program.Assembled (program : Program) (schemas : Keyed Schema) (loader : Loader)
    (sources outputs : List String) (steps : List InferenceStep) (d : Assembly) : Prop where
  source : d.source = sources.head?
  output : d.output = outputs.head?
  clean : d.diagnostics = [] ↔
    sources.length ≤ 1 ∧ outputs.length ≤ 1 ∧ StepsSound program schemas loader steps
  stands : d.diagnostics = [] → d.Stands program schemas steps

theorem StepsSound.nil (program : Program) (schemas : Keyed Schema) (loader : Loader) :
    StepsSound program schemas loader [] := List.forall_split_nil

namespace Program.Assembled

variable {program : Program} {schemas : Keyed Schema} {loader : Loader}
  {sources outputs : List String} {steps : List InferenceStep} {d : Assembly}

/-- A second source is reported. -/
theorem take_source (h : program.Assembled schemas loader sources outputs steps d)
    (locator : String) (line : Nat) : program.Assembled schemas loader (sources ++ [locator])
      outputs steps (d.take schemas loader (.source locator line)) := by
  cases sources with
  | nil =>
      have first : d.source = none := h.source
      rw [Assembly.take, first]
      exact ⟨rfl, h.output, by simpa using h.clean,
        fun clean => ⟨(h.stands clean).shape, (h.stands clean).producers⟩⟩
  | cons earlier others =>
      have second : d.source = some earlier := h.source
      rw [Assembly.take, second]
      exact ⟨second, h.output, by simp [Assembly.report], by simp [Assembly.report]⟩

/-- A second output is reported. -/
theorem take_output (h : program.Assembled schemas loader sources outputs steps d)
    (locator : String) (line : Nat) : program.Assembled schemas loader sources
      (outputs ++ [locator]) steps (d.take schemas loader (.output locator line)) := by
  cases outputs with
  | nil =>
      have first : d.output = none := h.output
      rw [Assembly.take, first]
      exact ⟨h.source, rfl, by simpa using h.clean,
        fun clean => ⟨(h.stands clean).shape, (h.stands clean).producers⟩⟩
  | cons earlier others =>
      have second : d.output = some earlier := h.output
      rw [Assembly.take, second]
      exact ⟨h.source, second, by simp [Assembly.report], by simp [Assembly.report]⟩

variable (expansion : Schema.IsExpansion program.definitions schemas)
  (distinct : ∀ e ∈ schemas, e.2.Distinct)

include expansion distinct

theorem take_inference (h : program.Assembled schemas loader sources outputs steps d)
    (step : InferenceStep) : program.Assembled schemas loader sources outputs (steps ++ [step])
      (d.take schemas loader (.inference step)) := by
  -- what stands is known as long as nothing is reported, and diagnostics are never taken back
  have before : (d.take schemas loader (.inference step)).diagnostics = [] → d.diagnostics = [] :=
    Assembly.clean_of_foldl [.inference step]
  have clean : (d.take schemas loader (.inference step)).diagnostics = [] ↔
      d.diagnostics = [] ∧ step.Sound program schemas loader steps :=
    ⟨fun clean => ((h.stands (before clean)).clean_take_iff expansion).1 clean,
      fun ⟨clean, sound⟩ => ((h.stands clean).clean_take_iff expansion).2 ⟨clean, sound⟩⟩
  have kept := Assembly.take_inference_around schemas loader d d.source d.output d.rules step
  refine ⟨(congrArg Assembly.source kept).trans h.source,
    (congrArg Assembly.output kept).trans h.output, ?_,
    fun clean => (h.stands (before clean)).take expansion distinct clean⟩
  rw [clean, h.clean, StepsSound, StepsSound, List.forall_split_concat_iff, and_assoc, and_assoc]

theorem foldl (h : program.Assembled schemas loader sources outputs steps d)
    (pipeline : List Step) : program.Assembled schemas loader
      (sources ++ pipeline.filterMap Step.source?) (outputs ++ pipeline.filterMap Step.output?)
      (steps ++ pipeline.filterMap Step.inference?)
      (pipeline.foldl (Assembly.take schemas loader) d) := by
  induction pipeline generalizing sources outputs steps d with
  | nil => simpa using h
  | cons step rest ih =>
      cases step with
      | source locator line =>
          have later := ih (h.take_source locator line)
          rwa [List.append_assoc] at later
      | output locator line =>
          have later := ih (h.take_output locator line)
          rwa [List.append_assoc] at later
      | inference step =>
          have later := ih (h.take_inference expansion distinct step)
          rwa [List.append_assoc] at later
      | set overrides line | rule expression line =>
          -- neither fields nor diagnostics are touched
          exact ih ⟨h.source, h.output, h.clean,
            fun clean => ⟨(h.stands clean).shape, (h.stands clean).producers⟩⟩

end Program.Assembled

/-! ### Programs -/

theorem Step.any_isInference_iff {pipeline : List Step} :
    pipeline.any Step.isInference = true ↔ pipeline.filterMap Step.inference? ≠ [] := by
  rw [List.any_eq_true, ne_eq, List.filterMap_eq_nil_iff, Classical.not_forall]
  refine exists_congr fun step => ?_
  cases step with
  | source | rule | output | set | inference => simp [isInference, inference?]

/-- All rules are in order exactly if each of them is. -/
theorem planRules_clean_iff {shape : Keyed Schema} {rules : List (String × Nat)} :
    (planRules shape rules).2 = [] ↔ ∀ text ∈ rules.map (·.1), ∃ expr condition,
      Rule.read text = .ok expr ∧ Rule.typed shape expr = .ok condition := by
  induction rules with
  | nil => simp [planRules]
  | cons first rest ih =>
      obtain ⟨text, line⟩ := first
      rw [List.map_cons, List.forall_mem_cons, ← @exists_planRule_iff shape text line, ← ih]
      cases planned : planRule shape text line with
      | ok rule => simp [planRules, planned]
      | error faults =>
          have some : faults ≠ [] := by
            rintro rfl
            exact planRule_ne_error_nil shape text line planned
          simp [planRules, planned, some]

section

variable {program : Program} {schemas : Keyed Schema} {loader : Loader}

/-- There is a plan if nothing is wrong, and otherwise there is something in the error. -/
theorem Plan.compile_eq_ok_iff : (∃ plan, Plan.compile program schemas loader = .ok plan) ↔
    (program.assemble schemas loader).diagnostics = [] ∧
      (planRules (program.assemble schemas loader).shape
        (program.assemble schemas loader).rules).2 = [] := by
  rw [compile_eq]
  dsimp only
  rw [← List.append_eq_nil_iff, ← List.isEmpty_iff]
  split
  · next clean => simp [clean]
  · next wrong => simp [wrong]

theorem Plan.compile_ne_error_nil : Plan.compile program schemas loader ≠ .error [] := by
  rw [compile_eq]
  dsimp only
  split
  · nofun
  · next wrong =>
    intro eq
    rw [Except.error.inj eq] at wrong
    exact wrong rfl

variable (loader) (expansion : Schema.IsExpansion program.definitions schemas)
  (distinct : ∀ e ∈ schemas, e.2.Distinct)

include expansion distinct

theorem Program.assembled : program.Assembled schemas loader program.sources program.outputs
    program.inferenceSteps
    (program.pipeline.foldl (Assembly.take schemas loader) { overrides := program.settings }) := by
  have empty : program.Assembled schemas loader [] [] [] { overrides := program.settings } :=
    ⟨rfl, rfl, by simp [StepsSound.nil], fun _ => ⟨rfl, rfl⟩⟩
  exact empty.foldl expansion distinct program.pipeline

/-- The constructs of a program leave no diagnostic exactly if they are as they have to be. The
shape is then the one of all steps. -/
theorem Program.assemble_clean_iff : ((program.assemble schemas loader).diagnostics = [] ↔
    program.inferenceSteps ≠ [] ∧ program.sources.length ≤ 1 ∧ program.outputs.length ≤ 1 ∧
      StepsSound program schemas loader program.inferenceSteps) ∧
    ((program.assemble schemas loader).diagnostics = [] →
      (program.assemble schemas loader).shape =
        program.shapeOf schemas program.inferenceSteps) := by
  have assembled := Program.assembled loader expansion distinct
  rw [assemble]
  split
  · next some =>
    have steps : program.inferenceSteps ≠ [] := Step.any_isInference_iff.1 some
    exact ⟨by simp [steps, assembled.clean], fun clean => (assembled.stands clean).shape⟩
  · next none =>
    have steps : program.inferenceSteps = [] := by
      by_contra steps
      exact none (Step.any_isInference_iff.2 steps)
    exact ⟨by simp [steps, Assembly.report], by simp [Assembly.report]⟩

/-- With schemas of its definitions a program has a plan exactly if it is sound. -/
theorem Plan.exists_compile_iff :
    (∃ plan, Plan.compile program schemas loader = .ok plan) ↔ program.Sound schemas loader := by
  obtain ⟨clean, shape⟩ := Program.assemble_clean_iff loader expansion distinct
  rw [Plan.compile_eq_ok_iff, planRules_clean_iff, Program.rules_assemble]
  constructor
  · rintro ⟨none, rules⟩
    rw [shape none] at rules
    obtain ⟨inference, source, output, steps⟩ := clean.1 none
    exact ⟨inference, source, output, steps, rules⟩
  · rintro ⟨inference, source, output, steps, rules⟩
    have none := clean.2 ⟨inference, source, output, steps⟩
    rw [shape none]
    exact ⟨none, rules⟩

end

namespace Plan

/-- A program whose definitions have schemas and distinct fields has a plan exactly if it is sound:
it has a step, at most one source and at most one output; the targets of its steps name definitions
that suit them, where they are to name any; no field is produced by two steps; the resources are
there, examples are well formed, and prompts name fields of earlier steps; and its rules are typed
against the fields of all steps. Otherwise there is a diagnostic at least. -/
theorem compile_iff_sound {program : Program} {schemas : Keyed Schema} {loader : Loader}
    (resolved : Schema.resolve program.definitions = .ok schemas)
    (distinct : ∀ d ∈ program.definitions, d.Distinct) :
    ((∃ plan, compile program schemas loader = .ok plan) ↔ program.Sound schemas loader) ∧
    (¬ program.Sound schemas loader →
      ∃ ds, compile program schemas loader = .error ds ∧ ds ≠ []) := by
  have accepted := exists_compile_iff loader (Schema.isExpansion_of_resolve resolved)
    (Schema.distinct_of_resolve distinct resolved)
  refine ⟨accepted, fun unsound => ?_⟩
  cases compiled : compile program schemas loader with
  | ok plan => exact absurd (accepted.1 ⟨plan, compiled⟩) unsound
  | error ds => exact ⟨ds, rfl, fun none => compile_ne_error_nil (none ▸ compiled)⟩

/-- Steps of every kind, with a rule and an output above the last ones. The same program has no plan
with a prompt that names a field of a later step. -/
theorem compile_iff_sound_letter :
    let program : Program := ⟨[⟨"urgency", [⟨"level", .oneOf ["low", "high"], 2⟩], 1⟩,
        ⟨"claim", [⟨"holder", .object "person", 4⟩, ⟨"amount", .money, 5⟩], 3⟩,
        ⟨"person", [⟨"name", .text, 7⟩], 6⟩], [],
      [.source "in" 8, .inference ⟨.extract, "claim", none, none, none, 9⟩,
        .rule "level IS high AND reply IS thanks" 10, .output "out" 11,
        .inference ⟨.classify, "urgency", none, none, some "levels", 12⟩,
        .inference ⟨.draft, "reply", none, some "letter", none, 13⟩,
        .inference ⟨.classify, "tone", some ["calm", "angry"], none, none, 14⟩]⟩
    let loader (letter : String) := Loader.ofTexts [("letter", letter)]
      [("levels", "INPUT: now\nOUTPUT: high")]
    let early := loader "Dear \x7bholder.name\x7d, it is \x7blevel\x7d."
    let late := loader "Dear \x7bholder.name\x7d, you are \x7btone\x7d."
    ∃ schemas, Schema.resolve program.definitions = .ok schemas ∧
      (∀ d ∈ program.definitions, d.Distinct) ∧ program.Sound schemas early ∧
      ¬ program.Sound schemas late ∧ ∃ ds, compile program schemas late = .error ds ∧ ds ≠ [] := by
  intro program loader early late
  have distinct : ∀ d ∈ program.definitions, d.Distinct := by
    simp [program, Definition.Distinct]
  obtain ⟨plan, planned⟩ := Except.exists_of_isOk
    (show (program.plan early).isOk = true by decide +kernel)
  obtain ⟨schemas, resolved, compiled⟩ := Except.bind_eq_ok_iff.1 planned
  rw [Except.mapError_eq_ok_iff] at resolved compiled
  have unsound : ¬ program.Sound schemas late := by
    intro sound
    obtain ⟨plan', compiled'⟩ := (compile_iff_sound resolved distinct).1.2 sound
    have planned' : program.plan late = .ok plan' :=
      Except.bind_eq_ok_iff.2 ⟨schemas, Except.mapError_eq_ok_iff.2 resolved,
        Except.mapError_eq_ok_iff.2 compiled'⟩
    have refused : (program.plan late).isOk = false := by decide +kernel
    rw [planned'] at refused
    cases refused
  exact ⟨schemas, resolved, distinct, (compile_iff_sound resolved distinct).1.1 ⟨plan, compiled⟩,
    unsound, (compile_iff_sound resolved distinct).2 unsound⟩

end Plan

end RecordInference
