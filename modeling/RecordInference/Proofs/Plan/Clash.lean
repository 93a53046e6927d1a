import RecordInference.Proofs.Keyed
import RecordInference.Proofs.Plan.Acceptance

/-!
# Fields that two steps produce

A step has fields if its target is known, and one to classify by where it classifies by a definition
(`InferenceStep.suits`). They join the record together, unless one of them is there already
(`InferenceStep.Joins`); then the clash is reported, and none of them joins.

A field that is produced again is reported with a number for the step that it joined with
(`Plan.number_of_duplicate`). Steps without fields are left out of the count, so the number is the
position of that step only if there is none above it: `Plan.exists_number_ne` has one.
-/

set_option autoImplicit false

namespace RecordInference

/-! ### Entries written one after the other -/

namespace Keyed

variable {α : Type}

/-- What is written last under a name counts, and what was there before if nothing is. -/
theorem get?_extend (k : String) (m : Keyed α) (new : List (String × α)) :
    get? k (extend m new) = (get? k (ofList new)).or (get? k m) := by
  induction new using List.reverseRecOn with
  | nil => rfl
  | append_singleton new e ih =>
      rw [ofList_concat, extend, List.foldl_append, List.foldl_cons, List.foldl_nil]
      by_cases same : k = e.1
      · rw [same, get?_insert_self, get?_insert_self, Option.some_or]
      · rw [get?_insert_of_ne same, get?_insert_of_ne same]
        exact ih

theorem exists_get?_ofList_iff {k : String} {es : List (String × α)} :
    (∃ v, get? k (ofList es) = some v) ↔ k ∈ keys es := by
  induction es using List.reverseRecOn with
  | nil => simp [ofList, extend, get?, keys]
  | append_singleton es e ih =>
      rw [ofList_concat, keys_append, List.mem_append, ← ih]
      by_cases same : k = e.1
      · simp [same, get?_insert_self, keys]
      · simp [get?_insert_of_ne same, keys, same]

/-- What is written under new names comes to what was there before. -/
theorem get?_extend_iff {k : String} {v : α} {m : Keyed α} {new : List (String × α)}
    (fresh : ∀ name ∈ keys new, name ∉ keys m) :
    get? k (extend m new) = some v ↔ get? k m = some v ∨ get? k (ofList new) = some v := by
  rw [get?_extend, Option.or_eq_some_iff, or_comm]
  refine or_congr_left (and_iff_right_of_imp fun old => ?_)
  rw [Option.eq_none_iff_forall_ne_some]
  intro w found
  exact fresh k (exists_get?_ofList_iff.1 ⟨w, found⟩) (mem_keys_iff.2 ⟨v, old⟩)

/-- One value under several names. -/
theorem get?_ofList_map_iff {β : Type} {k : String} {es : List (String × α)} {b c : β} :
    get? k (ofList (es.map fun e => (e.1, b))) = some c ↔ k ∈ keys es ∧ b = c := by
  induction es using List.reverseRecOn with
  | nil => simp [ofList, extend, get?, keys]
  | append_singleton es e ih =>
      rw [List.map_append, List.map_singleton, ofList_concat, keys_append, List.mem_append]
      by_cases same : k = e.1
      · simp [same, get?_insert_self, keys]
      · simp [get?_insert_of_ne same, ih, keys, same]

end Keyed

/-! ### Steps by themselves -/

/-- Whether a definition has a single field, with given values. -/
def Definition.isChoice (d : Definition) : Bool :=
  match d.fields with
  | [⟨_, .oneOf _, _⟩] => true
  | _ => false

/-- Whether the target of a step is known, and one to classify by where the step does that. -/
def InferenceStep.suits (program : Program) (step : InferenceStep) : Bool :=
  match step.verb, step.categories with
  | .extract, _ => (program.definition? step.target).isSome
  | .classify, none => (program.definition? step.target).any Definition.isChoice
  | _, _ => true

/-- Whether a step has a field of this name. -/
structure InferenceStep.Produces (program : Program) (schemas : Keyed Schema)
    (step : InferenceStep) (field : String) : Prop where
  suits : step.suits program = true
  declared : field ∈ Keyed.keys (step.produced program schemas)

/-- Whether the fields of a step join the record after the steps `before`: none of them is a field
of a step that joined it. -/
def InferenceStep.Joins (program : Program) (schemas : Keyed Schema)
    (before : List InferenceStep) (step : InferenceStep) : Prop :=
  step.suits program = true ∧ ∀ earlier producer later,
    (_split : before = earlier ++ producer :: later) → producer.Joins program schemas earlier →
      ∀ name ∈ Keyed.keys (producer.produced program schemas),
        name ∉ Keyed.keys (step.produced program schemas)
termination_by before.length
decreasing_by
  rw [_split, List.length_append, List.length_cons]
  omega

/-- Whether a field has joined the record with a step that has this many steps with fields above
it. -/
def Program.Numbers (program : Program) (schemas : Keyed Schema) (steps : List InferenceStep)
    (field : String) (number : Nat) : Prop :=
  ∃ before step after, steps = before ++ step :: after ∧ step.Joins program schemas before ∧
    field ∈ Keyed.keys (step.produced program schemas) ∧
    before.countP (InferenceStep.suits program) = number

/-- Whether the first step with a field stands at this position, counted from 0. -/
structure Program.FirstProducer (program : Program) (schemas : Keyed Schema) (field : String)
    (position : Nat) : Prop where
  produces : ∃ step, program.inferenceSteps[position]? = some step ∧
    step.Produces program schemas field
  first : ∀ i < position, ∀ earlier, program.inferenceSteps[i]? = some earlier →
    ¬ earlier.Produces program schemas field

section

variable {program : Program} {schemas : Keyed Schema}

theorem Definition.isChoice_iff {d : Definition} :
    d.isChoice = true ↔ ∃ f values, d.fields = [f] ∧ f.type = .oneOf values := by
  rw [isChoice]
  split
  · next name values line eq => simp [eq]
  · next other =>
    simp only [Bool.false_eq_true, false_iff, not_exists, not_and]
    rintro ⟨name, type, line⟩ values alone rfl
    exact other name values line alone

theorem InferenceStep.suits_iff (step : InferenceStep) : step.suits program = true ↔
    (step.verb = .extract → ∃ d, program.definition? step.target = some d) ∧
    (step.verb = .classify → step.categories = none →
      ∃ d f values, program.definition? step.target = some d ∧ d.fields = [f] ∧
        f.type = .oneOf values) := by
  obtain ⟨verb, target, categories, prompt, examples, line⟩ := step
  cases verb with
  | extract => simp [suits, Option.isSome_iff_exists]
  | draft => simp [suits]
  | classify =>
      cases categories with
      | some values => simp [suits]
      | none => simp [suits, Option.any_eq_true, Definition.isChoice_iff]

/-- A step has fields exactly if it has a yield. -/
theorem Yield.exists_ofStep_iff_suits (expansion : Schema.IsExpansion program.definitions schemas)
    (step : InferenceStep) :
    (∃ y, Yield.ofStep schemas step = .ok y) ↔ step.suits program = true :=
  (Yield.exists_ofStep_iff expansion step).trans step.suits_iff.symm

theorem Program.numbers_concat_iff {steps : List InferenceStep} {last : InferenceStep}
    {field : String} {number : Nat} : program.Numbers schemas (steps ++ [last]) field number ↔
      program.Numbers schemas steps field number ∨ last.Joins program schemas steps ∧
        field ∈ Keyed.keys (last.produced program schemas) ∧
        steps.countP (InferenceStep.suits program) = number :=
  List.exists_split_concat_iff

/-- The fields of a step join the record exactly if none of them has done so before. -/
theorem InferenceStep.joins_iff {before : List InferenceStep} {step : InferenceStep} :
    step.Joins program schemas before ↔ step.suits program = true ∧
      ∀ name ∈ Keyed.keys (step.produced program schemas),
        ∀ number, ¬ program.Numbers schemas before name number := by
  rw [Joins]
  refine and_congr_right fun _ => ⟨?_, ?_⟩
  · rintro apart name new number ⟨earlier, producer, later, split, joins, old, -⟩
    exact apart earlier producer later split joins name old new
  · intro fresh earlier producer later split joins name old new
    exact fresh name new _ ⟨earlier, producer, later, split, joins, old, rfl⟩

end

/-! ### What is reported -/

section

variable {loader : Loader} {schemas : Keyed Schema} {line : Nat} {field : String} {number : Nat}

theorem Yield.not_duplicate_of_error {step : InferenceStep} {ds : List Diagnostic}
    (h : ofStep schemas step = .error ds) : .duplicateOutputField line field number ∉ ds := by
  simp only [ofStep] at h
  split at h
  · cases h
  · cases h
  · simp only [ofDefinition] at h
    split at h
    · cases h
      simp
    · split at h
      · cases h
      · simp only [ofClassification] at h
        split at h <;> cases h <;> simp
    · cases h
      simp

theorem planRules_not_duplicate (shape : Keyed Schema) (rules : List (String × Nat)) :
    .duplicateOutputField line field number ∉ (planRules shape rules).2 := by
  induction rules with
  | nil => exact List.not_mem_nil
  | cons rule rest ih =>
      obtain ⟨text, place⟩ := rule
      simp only [planRules, planRule]
      cases Rule.read text with
      | error fault => simp [ih]
      | ok expr =>
          cases typed : Rule.typed shape expr with
          | error misfits => simp [ih, typed]
          | ok condition => simp [ih, typed]

namespace Assembly

variable {d : Assembly} {step : InferenceStep} {y : Yield}

theorem mem_clashes_iff {place : Nat} {produced : List (String × Schema)} :
    .duplicateOutputField line field number ∈ d.clashes place produced ↔
      place = line ∧ field ∈ Keyed.keys produced ∧ Keyed.get? field d.producers = some number := by
  simp only [clashes, List.mem_filterMap, Option.map_eq_some_iff, Keyed.keys, List.mem_map]
  constructor
  · rintro ⟨e, member, previous, found, same⟩
    cases same
    exact ⟨rfl, ⟨e, member, rfl⟩, found⟩
  · rintro ⟨rfl, ⟨e, member, rfl⟩, found⟩
    exact ⟨e, member, number, found, rfl⟩

/-- Of a step with a yield, a field is reported as produced again exactly if it has a number. -/
theorem mem_diagnostics_plan_iff :
    .duplicateOutputField line field number ∈ (d.plan loader step y).diagnostics ↔
      .duplicateOutputField line field number ∈ d.diagnostics ∨ step.line = line ∧
        field ∈ Keyed.keys y.produced ∧ Keyed.get? field d.producers = some number := by
  have prompts : .duplicateOutputField line field number ∉
      (checked (d.prompt loader step.line) step.prompt).2 := by
    cases step.prompt with
    | none => exact List.not_mem_nil
    | some name =>
        simp only [checked, prompt]
        split <;> simp
  have examples : .duplicateOutputField line field number ∉
      (checked (exampleSet loader step.line) step.examples).2 := by
    cases step.examples with
    | none => exact List.not_mem_nil
    | some name =>
        simp only [checked, exampleSet]
        split
        · simp
        · split <;> simp
  simp only [diagnostics_plan, List.mem_append, prompts, examples, or_false, mem_clashes_iff]

end Assembly

end

/-! ### Plans under construction -/

/-- Whether a plan under construction has the fields that joined with the steps so far, and the
clashes of these. -/
structure Assembly.Joined (program : Program) (schemas : Keyed Schema)
    (steps : List InferenceStep) (d : Assembly) : Prop where
  count : d.steps.length = steps.countP (InferenceStep.suits program)
  shape : ∀ name schema, Keyed.get? name d.shape = some schema ↔ ∃ before step after,
    steps = before ++ step :: after ∧ step.Joins program schemas before ∧
      Keyed.get? name (Keyed.ofList (step.produced program schemas)) = some schema
  producers : ∀ name number, Keyed.get? name d.producers = some number ↔
    program.Numbers schemas steps name number
  clashes : ∀ line field number, .duplicateOutputField line field number ∈ d.diagnostics ↔
    ∃ before step after, steps = before ++ step :: after ∧ step.line = line ∧
      step.Produces program schemas field ∧ program.Numbers schemas before field number

theorem Assembly.shape_plan (d : Assembly) (loader : Loader) (step : InferenceStep) (y : Yield) :
    (d.plan loader step y).shape =
      if d.clashes step.line y.produced = [] then Keyed.extend d.shape y.produced else d.shape := by
  simp only [plan, report, List.isEmpty_iff]
  split <;> rfl

theorem Assembly.producers_plan (d : Assembly) (loader : Loader) (step : InferenceStep)
    (y : Yield) : (d.plan loader step y).producers =
      if d.clashes step.line y.produced = [] then
        Keyed.extend d.producers (y.produced.map fun e => (e.1, d.steps.length))
      else d.producers := by
  simp only [plan, report, List.isEmpty_iff]
  split <;> rfl

theorem Assembly.length_steps_plan (d : Assembly) (loader : Loader) (step : InferenceStep)
    (y : Yield) : (d.plan loader step y).steps.length = d.steps.length + 1 :=
  List.length_append

namespace Assembly.Joined

variable {program : Program} {schemas : Keyed Schema} {loader : Loader} {d : Assembly}
  {steps : List InferenceStep} {step : InferenceStep}

/-- There is a clash exactly if the fields of the step do not join. -/
theorem clashes_eq_nil_iff (h : d.Joined program schemas steps)
    (suits : step.suits program = true) (line : Nat) :
    d.clashes line (step.produced program schemas) = [] ↔ step.Joins program schemas steps := by
  simp only [Assembly.clashes_eq_nil_iff, InferenceStep.joins_iff, suits, true_and, ← h.producers,
    Keyed.mem_keys_iff, not_exists]

/-- Other diagnostics say nothing of clashes. -/
theorem report (h : d.Joined program schemas steps) {ds : List Diagnostic}
    (others : ∀ line field number, .duplicateOutputField line field number ∉ ds) :
    (d.report ds).Joined program schemas steps where
  count := h.count
  shape := h.shape
  producers := h.producers
  clashes line field number := by
    rw [← h.clashes, Assembly.report, List.mem_append, or_iff_left (others line field number)]

/-- A step without fields changes nothing. -/
theorem concat_of_unsuited (h : d.Joined program schemas steps)
    (unsuited : ¬ step.suits program = true) : d.Joined program schemas (steps ++ [step]) := by
  have apart : ¬ step.Joins program schemas steps := fun joins =>
    unsuited (InferenceStep.joins_iff.1 joins).1
  have fieldless : ∀ field, ¬ step.Produces program schemas field := fun _ produces =>
    unsuited produces.suits
  constructor
  · rw [List.countP_append, List.countP_singleton, if_neg unsuited]
    exact h.count
  · intro name schema
    rw [h.shape, List.exists_split_concat_iff, or_iff_left fun last => apart last.1]
  · intro name number
    rw [h.producers, Program.numbers_concat_iff, or_iff_left fun last => apart last.1]
  · intro line field number
    rw [h.clashes, List.exists_split_concat_iff, or_iff_left fun last => fieldless field last.2.1]

/-- A field is there exactly if it has a number. -/
theorem mem_keys_iff (h : d.Joined program schemas steps) {name : String} :
    (name ∈ Keyed.keys d.shape ↔ ∃ number, program.Numbers schemas steps name number) ∧
    (name ∈ Keyed.keys d.producers ↔ ∃ number, program.Numbers schemas steps name number) := by
  constructor
  · simp only [Keyed.mem_keys_iff, h.shape]
    constructor
    · rintro ⟨schema, before, step, after, split, joins, found⟩
      exact ⟨_, before, step, after, split, joins, Keyed.exists_get?_ofList_iff.1 ⟨_, found⟩, rfl⟩
    · rintro ⟨number, before, step, after, split, joins, declared, -⟩
      obtain ⟨schema, found⟩ := Keyed.exists_get?_ofList_iff.2 declared
      exact ⟨schema, before, step, after, split, joins, found⟩
  · simp only [Keyed.mem_keys_iff, h.producers]

theorem plan (h : d.Joined program schemas steps) (suits : step.suits program = true) {y : Yield}
    (produced : y.produced = step.produced program schemas) :
    (d.plan loader step y).Joined program schemas (steps ++ [step]) := by
  have free := h.clashes_eq_nil_iff suits step.line
  have fresh (joins : step.Joins program schemas steps) :
      ∀ name ∈ Keyed.keys (step.produced program schemas),
        name ∉ Keyed.keys d.shape ∧ name ∉ Keyed.keys d.producers := by
    intro name new
    rw [h.mem_keys_iff.1, h.mem_keys_iff.2, and_self, not_exists]
    exact (InferenceStep.joins_iff.1 joins).2 name new
  constructor
  · rw [length_steps_plan, h.count, List.countP_append, List.countP_singleton, if_pos suits]
  · intro name schema
    rw [List.exists_split_concat_iff, shape_plan, produced, ← h.shape]
    split
    · next joins =>
      rw [free] at joins
      rw [Keyed.get?_extend_iff fun name new => (fresh joins name new).1, and_iff_right joins]
    · next parted =>
      rw [free] at parted
      simp only [parted, false_and, or_false]
  · intro name number
    rw [Program.numbers_concat_iff, producers_plan, produced, ← h.producers, ← h.count]
    split
    · next joins =>
      rw [free] at joins
      have indexed := Keyed.keys_map (fun _ => d.steps.length) (step.produced program schemas)
      rw [Keyed.get?_extend_iff, Keyed.get?_ofList_map_iff, and_iff_right joins]
      rw [indexed]
      exact fun name new => (fresh joins name new).2
    · next parted =>
      rw [free] at parted
      simp only [parted, false_and, or_false]
  · intro line field number
    rw [List.exists_split_concat_iff, mem_diagnostics_plan_iff, h.clashes, h.producers, produced]
    refine or_congr_right (and_congr_right fun _ => and_congr_left fun _ => ?_)
    exact ⟨fun declared => ⟨suits, declared⟩, fun produces => produces.declared⟩

variable (expansion : Schema.IsExpansion program.definitions schemas)

include expansion

theorem take_inference (h : d.Joined program schemas steps) (loader : Loader)
    (step : InferenceStep) :
    (d.take schemas loader (.inference step)).Joined program schemas (steps ++ [step]) := by
  have suited := Yield.exists_ofStep_iff_suits expansion step
  rw [take]
  cases yields : Yield.ofStep schemas step with
  | error ds =>
      have unsuited : ¬ step.suits program = true := by
        rw [← suited, yields]
        rintro ⟨y, eq⟩
        cases eq
      exact (h.concat_of_unsuited unsuited).report fun _ _ _ => Yield.not_duplicate_of_error yields
  | ok y => exact h.plan (suited.1 ⟨y, yields⟩) (Yield.produced_eq expansion yields)

theorem foldl (h : d.Joined program schemas steps) (loader : Loader) (pipeline : List Step) :
    (pipeline.foldl (Assembly.take schemas loader) d).Joined program schemas
      (steps ++ pipeline.filterMap Step.inference?) := by
  induction pipeline generalizing steps d with
  | nil => simpa using h
  | cons step rest ih =>
      cases step with
      | source locator line | output locator line =>
          refine ih ?_
          rw [take]
          split
          · exact h.report (by simp)
          · exact ⟨h.count, h.shape, h.producers, h.clashes⟩
      | set overrides line | rule expression line =>
          exact ih ⟨h.count, h.shape, h.producers, h.clashes⟩
      | inference step =>
          have later := ih (h.take_inference expansion loader step)
          rwa [List.append_assoc] at later

end Assembly.Joined

/-- The steps of a program leave the fields that join, and the clashes of the others with these. -/
theorem Program.joined {program : Program} {schemas : Keyed Schema}
    (expansion : Schema.IsExpansion program.definitions schemas) (loader : Loader) :
    (program.assemble schemas loader).Joined program schemas program.inferenceSteps := by
  have start : Assembly.Joined program schemas [] { overrides := program.settings } := by
    constructor
    · rfl
    · simp [Keyed.get?]
    · simp [Keyed.get?, Numbers]
    · simp
  have folded := start.foldl expansion loader program.pipeline
  rw [assemble]
  split
  · exact folded
  · exact folded.report (by simp)

/-! ### Numbers of steps -/

section

variable {program : Program} {schemas : Keyed Schema} {loader : Loader} {ds : List Diagnostic}

/-- Only one position is that of the first step with a field. -/
theorem Program.FirstProducer.unique {field : String} {m n : Nat}
    (h : program.FirstProducer schemas field m) (h' : program.FirstProducer schemas field n) :
    m = n := by
  obtain ⟨step, found, produces⟩ := h.produces
  obtain ⟨step', found', produces'⟩ := h'.produces
  rcases Nat.lt_trichotomy m n with less | same | greater
  · exact absurd produces (h'.first m less step found)
  · exact same
  · exact absurd produces' (h.first n greater step' found')

theorem Program.firstProducer_of_split {field : String} {before after : List InferenceStep}
    {step : InferenceStep} (split : program.inferenceSteps = before ++ step :: after)
    (produces : step.Produces program schemas field)
    (first : ∀ earlier ∈ before, ¬ earlier.Produces program schemas field) :
    program.FirstProducer schemas field before.length := by
  constructor
  · exact ⟨step, by rw [split, List.getElem?_append_right le_rfl, Nat.sub_self]; rfl, produces⟩
  · intro i less earlier found
    rw [split, List.getElem?_append_left less] at found
    exact first earlier (List.mem_of_getElem? found)

variable (resolved : Schema.resolve program.definitions = .ok schemas)
  (failed : Plan.compile program schemas loader = .error ds)

include resolved failed

/-- A field is reported as produced again exactly for the steps with it below the one that it
joined the record with. -/
theorem Plan.mem_duplicate_iff (line number : Nat) (field : String) :
    .duplicateOutputField line field number ∈ ds ↔ ∃ before step after,
      program.inferenceSteps = before ++ step :: after ∧ step.line = line ∧
        step.Produces program schemas field ∧ program.Numbers schemas before field number := by
  have joined := Program.joined (Schema.isExpansion_of_resolve resolved) loader
  rw [Plan.compile_eq] at failed
  dsimp only at failed
  split at failed
  · cases failed
  · cases failed
    rw [List.mem_append, or_iff_left (planRules_not_duplicate _ _), joined.clashes]

end

namespace Plan

/-- A field is reported as produced again exactly for the steps with it below the one that it joined
the record with, and the number in the diagnostic is that of the steps with fields above that one.
Where none of these has the field, the number is the position of the first step with it exactly if
all of them have fields. -/
theorem number_of_duplicate {program : Program} {schemas : Keyed Schema} {loader : Loader}
    {ds : List Diagnostic} (resolved : Schema.resolve program.definitions = .ok schemas)
    (failed : compile program schemas loader = .error ds) (line number : Nat) (field : String) :
    (.duplicateOutputField line field number ∈ ds ↔ ∃ before step after,
      program.inferenceSteps = before ++ step :: after ∧ step.line = line ∧
        step.Produces program schemas field ∧ program.Numbers schemas before field number) ∧
    (.duplicateOutputField line field number ∈ ds → ∃ before producer after,
      program.inferenceSteps = before ++ producer :: after ∧
        producer.Joins program schemas before ∧ producer.Produces program schemas field ∧
        number = before.countP (InferenceStep.suits program) ∧
        ((∀ earlier ∈ before, ¬ earlier.Produces program schemas field) →
          (program.FirstProducer schemas field number ↔
            ∀ earlier ∈ before, earlier.suits program = true))) := by
  have reported := mem_duplicate_iff resolved failed line number field
  refine ⟨reported, fun member => ?_⟩
  obtain ⟨before, step, after, split, -, -, numbers⟩ := reported.1 member
  obtain ⟨above, producer, between, split', joins, declared, rfl⟩ := numbers
  have split : program.inferenceSteps = above ++ producer :: (between ++ step :: after) := by
    rw [split, split', List.append_assoc, List.cons_append]
  have produces : producer.Produces program schemas field :=
    ⟨(InferenceStep.joins_iff.1 joins).1, declared⟩
  refine ⟨above, producer, _, split, joins, produces, rfl, fun first => ?_⟩
  have position := Program.firstProducer_of_split split produces first
  rw [← List.countP_eq_length]
  exact ⟨fun number => number.unique position, fun all => all ▸ position⟩

/-- Both steps above the clash have fields, so the number is the position of the second one. -/
theorem number_of_duplicate_amount :
    let program : Program := ⟨[⟨"claim", [⟨"holder", .text, 2⟩, ⟨"amount", .money, 3⟩], 1⟩], [],
      [.inference ⟨.draft, "note", none, none, none, 4⟩,
        .inference ⟨.extract, "claim", none, none, none, 5⟩, .rule "note IS late" 6,
        .inference ⟨.classify, "amount", some ["low", "high"], none, none, 7⟩]⟩
    let schemas : Keyed Schema :=
      [("claim", .object "claim" [("holder", .text), ("amount", .money)])]
    ∃ ds, Schema.resolve program.definitions = .ok schemas ∧
      compile program schemas (.ofTexts [] []) = .error ds ∧
      .duplicateOutputField 7 "amount" 1 ∈ ds ∧ program.FirstProducer schemas "amount" 1 := by
  intro program schemas
  have resolved : Schema.resolve program.definitions = .ok schemas := by rfl
  have failed : compile program schemas (.ofTexts [] []) =
      .error [.duplicateOutputField 7 "amount" 1] := by rfl
  obtain ⟨before, producer, after, split, -, -, number, position⟩ :=
    (number_of_duplicate resolved failed 7 1 "amount").2 List.mem_cons_self
  have suited : ∀ step ∈ program.inferenceSteps, step.suits program = true := by decide
  have all : ∀ earlier ∈ before, earlier.suits program = true := fun earlier member =>
    suited earlier (split ▸ List.mem_append_left _ member)
  rw [List.countP_eq_length.2 all] at number
  -- so the only step above is the draft, which has another field
  obtain ⟨note, rfl⟩ := List.length_eq_one_iff.1 number.symm
  cases split
  refine ⟨_, resolved, failed, List.mem_cons_self, (position ?_).2 all⟩
  exact List.forall_mem_singleton.2 fun produces => absurd produces.declared (by decide)

/-- A step whose target is unknown stands above the others, and the field of the second step is
reported with the number of the first one. -/
theorem exists_number_ne :
    let program : Program := ⟨[], [], [.inference ⟨.extract, "ghost", none, none, none, 1⟩,
      .inference ⟨.draft, "a", none, none, none, 2⟩, .inference ⟨.draft, "a", none, none, none, 3⟩]⟩
    ∃ ds, Schema.resolve program.definitions = .ok [] ∧
      compile program [] (.ofTexts [] []) = .error ds ∧
      .duplicateOutputField 3 "a" 0 ∈ ds ∧ ¬ program.FirstProducer [] "a" 0 ∧
      program.FirstProducer [] "a" 1 := by
  intro program
  have failed : compile program [] (.ofTexts [] []) =
      .error [.unknownDefinition 1 .extract "ghost", .duplicateOutputField 3 "a" 0] := by rfl
  refine ⟨_, rfl, failed, by simp, ?_, ?_⟩
  · rintro ⟨⟨step, found, produces⟩, -⟩
    cases found
    exact absurd produces.suits (by decide)
  · refine ⟨⟨_, rfl, by decide, by decide⟩, fun i less earlier found => ?_⟩
    obtain rfl : i = 0 := Nat.lt_one_iff.1 less
    cases found
    exact fun produces => absurd produces.suits (by decide)

end Plan

end RecordInference
