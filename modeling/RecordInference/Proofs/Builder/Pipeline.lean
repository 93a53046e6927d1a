import RecordInference.Builder.Pipeline
import RecordInference.Proofs.Builder.Shape
import RecordInference.Proofs.Plan.Structure
import RecordInference.Proofs.Rule.Reading

/-!
# Programs that calls build

The definitions of a program that comes from calls are in order, so they have schemas, and nothing
is wrong with its constructs by themselves: what keeps it from a plan are fields that clash,
resources, or types (`sound_of_program`). A pipeline under construction has a shape that comes from
calls, and as long as there is no misuse its rules can be read (`Draft.Sound`).
-/

set_option autoImplicit false

namespace RecordInference.Pipeline

/-! ### Pipelines under construction -/

namespace Draft

variable {d : Draft}

/-- Whether the shape to extract comes from calls, and the rules can be read unless there is a
misuse. -/
structure Sound (d : Draft) : Prop where
  built : ∀ shape, d.primary = some (.extract shape) → shape.Built
  rules : d.error = none → ∀ text ∈ d.flags, ∃ expr, Rule.read text = .ok expr

theorem error_fail_ne_none (d : Draft) (e : BuildError) : (d.fail e).error ≠ none :=
  BuildError.first_ne_none d.error e

theorem Sound.fail (h : d.Sound) (e : BuildError) : (d.fail e).Sound :=
  ⟨h.built, fun none => absurd none (error_fail_ne_none d e)⟩

theorem Sound.checkName (h : d.Sound) (name : String) : (d.checkName name).Sound := by
  rw [Draft.checkName]
  split
  · exact h
  · exact h.fail _

theorem Sound.extract (h : d.Sound) {shape : Shape} (built : shape.Built) :
    (d.extract shape).Sound := by
  rw [Draft.extract]
  split
  · exact ⟨fun _ same => by cases same; exact built, (h.fail _).rules⟩
  · exact ⟨fun _ same => by cases same; exact built, h.rules⟩

theorem Sound.classify (h : d.Sound) (field : String) (categories : List String) :
    (d.classify field categories).Sound := by
  rw [Draft.classify]
  cases Shape.checkedValues field categories with
  | ok categories =>
      refine ⟨by simp, (Sound.checkName ?_ field).rules⟩
      split
      · exact h.fail _
      · exact h
  | error e =>
      refine (Sound.checkName ?_ field).fail e
      split
      · exact h.fail _
      · exact h

theorem Sound.flag (h : d.Sound) (rule : String) : (d.flag rule).Sound := by
  rw [Draft.flag]
  cases read : Rule.read rule with
  | ok expr =>
      refine ⟨h.built, fun none => List.forall_mem_append.2 ⟨h.rules none, ?_⟩⟩
      exact List.forall_mem_singleton.2 ⟨expr, (Rule.read_trimmed rule).trans read⟩
  | error fault => exact ⟨h.built, fun none => absurd none (error_fail_ne_none d _)⟩

theorem Sound.set (h : d.Sound) (o : Override) : (d.set o).Sound := by
  rw [Draft.set]
  split
  · exact ⟨h.built, h.rules⟩
  · exact ⟨h.built, (h.fail _).rules⟩

theorem Sound.call (h : d.Sound) {call : Call}
    (built : ∀ shape, call = .extract shape → shape.Built) : (d.call call).Sound := by
  cases call with
  | source | output | prompt | examples => exact ⟨h.built, h.rules⟩
  | extract shape => exact h.extract (built shape rfl)
  | classify field categories => exact h.classify field categories
  | draft field => exact ⟨(h.checkName field).built, (h.checkName field).rules⟩
  | flag rule => exact h.flag rule
  | set o => exact h.set o

theorem Sound.foldl (h : d.Sound) {calls : List Call}
    (built : ∀ shape, .extract shape ∈ calls → shape.Built) :
    (calls.foldl Draft.call d).Sound := by
  apply List.foldlRecOn calls Draft.call h
  intro d kept call member
  apply kept.call
  rintro shape rfl
  exact built shape member

end Draft

/-! ### Lines -/

theorem numberFields_renumber (line : Nat) (fields : List Field) :
    (numberFields line fields).map (Field.renumber fun _ => 0) =
      fields.map (Field.renumber fun _ => 0) := by
  induction fields generalizing line with
  | nil => rfl
  | cons f rest ih => exact congrArg (_ :: ·) (ih (line + 1))

theorem numberDefinitions_renumber (line : Nat) (ds : List Definition) :
    (numberDefinitions line ds).map (Definition.renumber fun _ => 0) =
      ds.map (Definition.renumber fun _ => 0) := by
  induction ds generalizing line with
  | nil => rfl
  | cons d rest ih =>
      rw [numberDefinitions, List.map_cons, List.map_cons, ih, Definition.renumber,
        numberFields_renumber, Definition.renumber]

theorem ordered_numberDefinitions {line : Nat} {ds : List Definition} (h : Ordered ds) :
    Ordered (numberDefinitions line ds) := by
  rw [← ordered_renumber_iff (f := fun _ => 0), numberDefinitions_renumber]
  exact ordered_renumber_iff.2 h

theorem names_numberDefinitions (line : Nat) (ds : List Definition) :
    (numberDefinitions line ds).map (·.name) = ds.map (·.name) := by
  induction ds generalizing line with
  | nil => rfl
  | cons d rest ih => exact congrArg (d.name :: ·) (ih _)

/-- What does not depend on lines is found in numbered constructs as without numbers. -/
theorem filterMap_numberSteps {α : Type} {f : Step → Option α} {steps : List (Nat → Step)}
    (fixed : ∀ step ∈ steps, ∀ line, f (step line) = f (step 0)) (line : Nat) :
    (numberSteps line steps).filterMap f = steps.filterMap fun step => f (step 0) := by
  induction steps generalizing line with
  | nil => rfl
  | cons step rest ih =>
      obtain ⟨here, later⟩ := List.forall_mem_cons.1 fixed
      rw [numberSteps, List.filterMap_cons, List.filterMap_cons, here line, ih later]

theorem mem_numberSteps {steps : List (Nat → Step)} {line : Nat} {s : Step}
    (h : s ∈ numberSteps line steps) : ∃ step ∈ steps, ∃ line, s = step line := by
  induction steps generalizing line with
  | nil => cases h
  | cons step rest ih =>
      rcases List.mem_cons.1 h with rfl | later
      · exact ⟨step, List.mem_cons_self, line, rfl⟩
      · obtain ⟨step', member, found⟩ := ih later
        exact ⟨step', List.mem_cons_of_mem _ member, found⟩

/-! ### Programs -/

theorem eq_of_collect {collected es ds : List Definition} (h : collect collected es = .ok ds) :
    ds = es.foldl Shape.withDefinition collected := by
  induction es generalizing collected with
  | nil =>
      cases h
      rfl
  | cons e rest ih =>
      obtain ⟨next, added, h⟩ := Except.bind_eq_ok_iff.1 h
      rw [ih h, Shape.eq_of_addDefinition added, List.foldl_cons]

namespace Draft

variable {d : Draft}

theorem of_program {p : Program} (h : d.program = .ok p) : d.error = none ∧
    ∃ definitions, d.definitions = .ok definitions ∧
      p = ⟨numberDefinitions 1 definitions, d.settings,
        numberSteps (1 + lineCount definitions) d.steps⟩ := by
  rw [program] at h
  split at h
  · cases h
  · next none =>
    obtain ⟨definitions, collected, h⟩ := Except.bind_eq_ok_iff.1 h
    cases h
    exact ⟨none, definitions, collected, rfl⟩

/-- The definitions are in order, and the one of the shape to extract is among them. -/
theorem Sound.ordered (h : d.Sound) {ds : List Definition} (collected : d.definitions = .ok ds) :
    Ordered ds ∧ ∀ shape, d.primary = some (.extract shape) →
      shape.definition.name ∈ ds.map (·.name) := by
  rw [definitions] at collected
  split at collected
  · next shape found =>
    obtain rfl := eq_of_collect collected
    obtain ⟨backward, -, names⟩ :=
      Shape.backward_foldl .nil (h.built shape found).backward
    refine ⟨⟨Shape.nodup_foldl List.nodup_nil, backward⟩, fun shape' same => ?_⟩
    rw [found] at same
    cases same
    exact names (List.mem_map_of_mem (by simp [Shape.definitions]))
  · next other =>
    cases collected
    exact ⟨⟨List.nodup_nil, .nil⟩, fun shape same => absurd same (other shape)⟩

/-! #### Constructs -/

theorem optional_eq {α β : Type} (f : α → β) (o : Option α) : optional f o = o.toList.map f := by
  cases o with
  | none => rfl
  | some a => rfl

theorem mem_steps {step : Nat → Step} (h : step ∈ d.steps) :
    (∃ locator, step = Step.source locator) ∨
    (∃ s ∈ d.inferenceSteps, step = fun line => .inference (s line)) ∨
    (∃ text ∈ d.flags, step = Step.rule text) ∨ ∃ locator, step = Step.output locator := by
  simp only [steps, optional_eq, List.mem_append, List.mem_map, List.mem_singleton] at h
  rcases h with ((⟨locator, -, rfl⟩ | ⟨s, member, rfl⟩) | ⟨text, member, rfl⟩) | rfl
  · exact Or.inl ⟨locator, rfl⟩
  · exact Or.inr (Or.inl ⟨s, member, rfl⟩)
  · exact Or.inr (Or.inr (Or.inl ⟨text, member, rfl⟩))
  · exact Or.inr (Or.inr (Or.inr ⟨_, rfl⟩))

/-- What is looked for in constructs other than steps is found in those of the calls, whatever the
lines. -/
theorem filterMap_numberSteps_steps {α : Type} {f : Step → Option α}
    (onSource onRule onOutput : String → Option α)
    (source : ∀ locator line, f (.source locator line) = onSource locator)
    (inference : ∀ step, f (.inference step) = none)
    (rule : ∀ text line, f (.rule text line) = onRule text)
    (output : ∀ locator line, f (.output locator line) = onOutput locator)
    (d : Draft) (line : Nat) : (numberSteps line d.steps).filterMap f =
      d.source.toList.filterMap onSource ++ d.flags.filterMap onRule ++
        [d.output.getD defaultOutput].filterMap onOutput := by
  rw [filterMap_numberSteps]
  · simp [steps, optional_eq, List.filterMap_map, List.filterMap_cons, source, inference, rule,
      output]
  · intro step member line
    rcases mem_steps member with ⟨_, rfl⟩ | ⟨_, -, rfl⟩ | ⟨_, -, rfl⟩ | ⟨_, rfl⟩
    · rw [source, source]
    · rw [inference, inference]
    · rw [rule, rule]
    · rw [output, output]

theorem sources_numberSteps (d : Draft) (line : Nat) :
    (numberSteps line d.steps).filterMap Step.source? = d.source.toList := by
  rw [filterMap_numberSteps_steps some (fun _ => none) (fun _ => none) (fun _ _ => rfl)
    (fun _ => rfl) (fun _ _ => rfl) fun _ _ => rfl]
  simp

theorem outputs_numberSteps (d : Draft) (line : Nat) :
    (numberSteps line d.steps).filterMap Step.output? = [d.output.getD defaultOutput] := by
  rw [filterMap_numberSteps_steps (fun _ => none) (fun _ => none) some (fun _ _ => rfl)
    (fun _ => rfl) (fun _ _ => rfl) fun _ _ => rfl]
  simp

theorem rules_numberSteps (d : Draft) (line : Nat) :
    (numberSteps line d.steps).filterMap Step.rule? = d.flags := by
  rw [filterMap_numberSteps_steps (fun _ => none) some (fun _ => none) (fun _ _ => rfl)
    (fun _ => rfl) (fun _ _ => rfl) fun _ _ => rfl]
  simp

theorem mem_bareSteps {s : Nat → InferenceStep} (h : s ∈ d.bareSteps) :
    (∃ primary, d.primary = some primary ∧ s = primary.step) ∨ ∃ field, s = draftStep field := by
  simp only [bareSteps, optional_eq, List.mem_append, List.mem_map, Option.mem_toList] at h
  rcases h with ⟨primary, found, rfl⟩ | ⟨field, -, rfl⟩
  · exact Or.inl ⟨primary, found, rfl⟩
  · exact Or.inr ⟨field, rfl⟩

/-- The resources do not make another step of a step. -/
theorem exists_bareStep {s : Nat → InferenceStep} (h : s ∈ d.inferenceSteps) :
    ∃ bare ∈ d.bareSteps, ∀ line, (s line).verb = (bare line).verb ∧
      (s line).target = (bare line).target ∧ (s line).categories = (bare line).categories ∧
        (s line).line = (bare line).line := by
  rw [inferenceSteps] at h
  split at h
  · cases h
  · next first rest eq =>
    rw [eq]
    rcases List.mem_cons.1 h with rfl | later
    · exact ⟨first, List.mem_cons_self, fun _ => ⟨rfl, rfl, rfl, rfl⟩⟩
    · exact ⟨s, List.mem_cons_of_mem _ later, fun _ => ⟨rfl, rfl, rfl, rfl⟩⟩

/-- The only step that names a definition is the extraction. -/
theorem extract_of_names {line : Nat} {step : InferenceStep}
    (member : step ∈ (numberSteps line d.steps).filterMap Step.inference?)
    (names : step.NamesDefinition) : ∃ shape, d.primary = some (.extract shape) ∧
      step.verb = .extract ∧ step.target = shape.definition.name := by
  obtain ⟨construct, listed, found⟩ := List.mem_filterMap.1 member
  obtain ⟨construct', listed', line', rfl⟩ := mem_numberSteps listed
  rcases mem_steps listed' with ⟨_, rfl⟩ | ⟨s, inside, rfl⟩ | ⟨_, -, rfl⟩ | ⟨_, rfl⟩
  · cases found
  · cases found
    obtain ⟨bare, member, same⟩ := exists_bareStep inside
    obtain ⟨verb, target, categories, -⟩ := same line'
    rw [InferenceStep.NamesDefinition, verb, categories] at names
    rcases mem_bareSteps member with ⟨primary, found, rfl⟩ | ⟨field, rfl⟩
    · cases primary with
      | extract shape => exact ⟨shape, found, verb, target⟩
      | classify field categories => simp [Primary.step] at names
    · simp [draftStep] at names
  · cases found
  · cases found

theorem Sound.structured (h : d.Sound) {p : Program} (built : d.program = .ok p) :
    Ordered p.definitions ∧ p.Structured := by
  obtain ⟨none, ds, collected, rfl⟩ := of_program built
  obtain ⟨ordered, known⟩ := h.ordered collected
  refine ⟨ordered_numberDefinitions ordered, ?_, ?_, ?_, ?_⟩
  · rw [Program.sources, sources_numberSteps]
    exact Option.length_toList_le
  · rw [Program.outputs, outputs_numberSteps]
    exact le_refl 1
  · intro step member names
    obtain ⟨shape, found, verb, target⟩ := extract_of_names member names
    refine ⟨verb, ?_⟩
    have defined : step.target ∈ (numberDefinitions 1 ds).map (·.name) := by
      rw [names_numberDefinitions, target]
      exact known shape found
    obtain ⟨d, -, -, found⟩ := Schema.exists_definition defined
    exact ⟨d, found⟩
  · rw [Program.rules, rules_numberSteps]
    exact h.rules none

end Draft

/-- A program that comes from calls never fails for what it says by itself. No name is defined twice
in it, and every reference is to a definition further up, so its definitions have schemas. Whatever
the loader, no diagnostic is about an unknown definition, a definition that no classification can
use, a rule that cannot be read, or a second source or output. -/
theorem sound_of_program {calls : List Call}
    (shapes : ∀ shape, .extract shape ∈ calls → shape.Built) {p : Program}
    (h : program calls = .ok p) :
    (p.definitions.map (·.name)).Nodup ∧
    (∀ before d after, p.definitions = before ++ d :: after → ∀ f ∈ d.fields, ∀ r,
      f.type.reference? = some r → r ∈ before.map (·.name)) ∧
    ∃ schemas, Schema.resolve p.definitions = .ok schemas ∧
      ∀ loader ds, Plan.compile p schemas loader = .error ds →
        ∀ x ∈ ds, x.isStructural = false := by
  have start : Draft.Sound {} := ⟨nofun, fun _ => List.forall_mem_nil _⟩
  obtain ⟨ordered, structured⟩ := (start.foldl shapes).structured h
  obtain ⟨schemas, resolved⟩ := ordered.exists_resolve
  exact ⟨ordered.distinct, ordered.backward, schemas, resolved, fun loader ds failed =>
    Plan.not_structural_of_compile structured (Schema.isExpansion_of_resolve resolved) failed⟩

/-- A shape with another one in two places, once by itself and once inside of a third one. -/
theorem sound_of_program_parties :
    let person : Shape := ⟨⟨"person", [⟨"name", .text, 0⟩], 0⟩, []⟩
    let party : Shape := ⟨⟨"party", [⟨"person", .object "person", 0⟩], 0⟩, person.definitions⟩
    let claim : Shape := ⟨⟨"claim", [⟨"parties", .listOf "party", 0⟩,
      ⟨"owner", .object "person", 0⟩, ⟨"amount", .money, 0⟩], 0⟩, party.definitions⟩
    let calls : List Call := [.source "in", .extract claim, .prompt "letter",
      .flag " amount OVER 10 ", .draft "reply", .set (.seed 7)]
    (∀ shape, .extract shape ∈ calls → shape.Built) ∧ ∃ p, program calls = .ok p ∧
      p.definitions.map (·.name) = ["person", "party", "claim"] ∧
      ∃ schemas, Schema.resolve p.definitions = .ok schemas ∧
        ∀ loader ds, Plan.compile p schemas loader = .error ds →
          ∀ x ∈ ds, x.isStructural = false := by
  intro person party claim calls
  have first : Shape.build "person" [.text "name"] = .ok person := by rfl
  have second : Shape.build "party" [.object "person" person] = .ok party := by rfl
  have third : Shape.build "claim"
      [.listOf "parties" party, .object "owner" person, .money "amount"] = .ok claim := by rfl
  have built : person.Built := .calls (by simp [Shape.Call.shape?]) first
  have built' : party.Built := .calls (by simp [Shape.Call.shape?, built]) second
  have built'' : claim.Built := .calls (by simp [Shape.Call.shape?, built, built']) third
  have shapes : ∀ shape, .extract shape ∈ calls → shape.Built := by
    simp [calls, built'']
  obtain ⟨p, finished⟩ := Except.exists_of_isOk
    (show (program calls).isOk = true by decide +kernel)
  have names : (program calls).map (fun p => p.definitions.map (·.name)) =
      .ok ["person", "party", "claim"] := by rfl
  rw [finished] at names
  obtain ⟨-, -, sound⟩ := sound_of_program shapes finished
  exact ⟨shapes, p, finished, Except.ok.inj names, sound⟩

end RecordInference.Pipeline
