import RecordInference.Proofs.Builder.Pipeline
import RecordInference.Proofs.Text.Word

/-!
# What calls check

Calls check what they are given: names of definitions, fields and targets are identifiers, fields
of a definition differ, values and categories are there and differ and have no blanks around them
(`Definition.Checked`, `Step.Checked`). They check neither locators nor the names of resources, and
of a rule only that it can be read.

A misuse stays in a draft, so a draft without one is what the last call made of a draft without one.
What a call does then is said once of each call (`Draft.eq_of_field`, `Draft.eq_of_classify` and the
like). So whatever is built is checked (`Shape.Built.checked`, `checked_of_program`).
-/

set_option autoImplicit false

namespace RecordInference

open Text

/-! ### Values -/

/-- Whether there are values, all different and without blanks around them. -/
structure CheckedValues (values : List String) : Prop where
  some : values ≠ []
  distinct : values.Nodup
  trimmed : ∀ value ∈ values, Trimmed value.toList

theorem trimmed_of_not_isEmpty {text : String} (h : (trimmed text).isEmpty = false) :
    Trimmed (trimmed text).toList := by
  rw [trimmed, String.toList_ofList]
  refine .of_trim fun blank => ?_
  rw [trimmed, blank] at h
  cases h

namespace Shape

theorem checkedValues_of_moreValues {seen values rest : List String}
    (h : moreValues seen rest = .ok values) (distinct : seen.Nodup)
    (trimmed : ∀ value ∈ seen, Trimmed value.toList) : CheckedValues values := by
  induction rest generalizing seen with
  | nil =>
      simp only [moreValues] at h
      split at h
      · cases h
      · next some =>
        cases h
        exact ⟨fun none => some (List.isEmpty_iff.2 none), distinct, trimmed⟩
  | cons value rest ih =>
      simp only [moreValues] at h
      split at h
      · cases h
      · next some =>
        split at h
        · cases h
        · next fresh =>
          refine ih h ?_ (List.forall_mem_append.2 ⟨trimmed, List.forall_mem_singleton.2 ?_⟩)
          · rw [← List.concat_eq_append]
            exact .concat fresh distinct
          · exact trimmed_of_not_isEmpty (Bool.not_eq_true _ ▸ some)

theorem checkedValues_of_ok {field : String} {values given : List String}
    (h : checkedValues field given = .ok values) : CheckedValues values :=
  checkedValues_of_moreValues (Except.mapError_eq_ok_iff.1 h) List.nodup_nil (List.forall_mem_nil _)

end Shape

/-! ### Definitions -/

/-- What is checked of the type of a field. -/
def FieldType.Checked : FieldType → Prop
  | .oneOf values => CheckedValues values
  | .listOf name => isIdentifier name.toList = true
  | .object name => isIdentifier name.toList = true
  | _ => True

/-- What is checked of a field. -/
structure Field.Checked (f : Field) : Prop where
  name : isIdentifier f.name.toList = true
  type : f.type.Checked

/-- What is checked of a definition. -/
structure Definition.Checked (d : Definition) : Prop where
  name : isIdentifier d.name.toList = true
  fields : ∀ f ∈ d.fields, f.Checked
  distinct : (d.fields.map (·.name)).Nodup

namespace Shape

namespace Draft

variable {d : Draft}

/-- What is checked of a draft. -/
structure Checked (d : Draft) : Prop where
  dependencies : ∀ e ∈ d.dependencies, e.Checked
  definition : Definition.Checked ⟨d.name, d.fields, 0⟩

/-- A misuse stays. -/
theorem error_fail_ne_none (d : Draft) (e : BuildError) : (d.fail e).error ≠ none :=
  BuildError.first_ne_none d.error e

theorem eq_of_new {name : String} (sound : (new name).error = none) :
    isIdentifier name.toList = true ∧ new name = { name } := by
  rw [new] at sound ⊢
  split
  · next identifier => exact ⟨identifier, rfl⟩
  · next other =>
    rw [if_neg other] at sound
    exact absurd sound (error_fail_ne_none _ _)

/-- Without a misuse a field is added under a name of its own. -/
theorem eq_of_field {name : String} {type : FieldType} (sound : (d.field name type).error = none) :
    isIdentifier name.toList = true ∧ name ∉ d.fields.map (·.name) ∧
      d.field name type = { d with fields := d.fields ++ [⟨name, type, 0⟩] } := by
  simp only [field] at sound ⊢
  -- the misuse that each of the two checks tells would have stayed
  split at sound
  · exact absurd sound (error_fail_ne_none _ _)
  · next identifier =>
    split at sound
    · exact absurd sound (error_fail_ne_none _ _)
    · next fresh =>
      rw [if_neg identifier, if_neg fresh]
      refine ⟨by simpa using identifier, fun old => fresh ?_, rfl⟩
      obtain ⟨f, member, same⟩ := List.mem_map.1 old
      exact List.any_eq_true.2 ⟨f, member, decide_eq_true same⟩

theorem Checked.field (h : d.error = none → d.Checked) {name : String} {type : FieldType}
    (checked : type.Checked) (sound : (d.field name type).error = none) :
    (d.field name type).Checked := by
  obtain ⟨identifier, fresh, eq⟩ := eq_of_field sound
  rw [eq] at sound ⊢
  obtain ⟨dependencies, definition⟩ := h sound
  refine ⟨dependencies, definition.name, ?_, ?_⟩
  · exact List.forall_mem_append.2 ⟨definition.fields, List.forall_mem_singleton.2
      ⟨identifier, checked⟩⟩
  · rw [List.map_append, List.map_singleton, ← List.concat_eq_append]
    exact .concat fresh definition.distinct

theorem Checked.addDependency (h : d.error = none → d.Checked) {e : Definition}
    (checked : e.Checked) (sound : (d.addDependency e).error = none) :
    (d.addDependency e).Checked := by
  rw [Draft.addDependency] at sound ⊢
  cases added : addDefinition d.dependencies e with
  | error fault =>
      rw [added] at sound
      exact absurd sound (error_fail_ne_none d fault)
  | ok ds =>
      rw [added] at sound
      obtain ⟨dependencies, definition⟩ := h sound
      refine ⟨?_, definition⟩
      show ∀ e ∈ ds, e.Checked
      rw [eq_of_addDefinition added]
      exact forall_mem_withDefinition dependencies checked

theorem Checked.dependOn (h : d.error = none → d.Checked) {shape : Shape}
    (part : ∀ e ∈ shape.definitions, e.Checked) (sound : (d.dependOn shape).error = none) :
    (d.dependOn shape).Checked := by
  refine List.foldlRecOn (motive := fun d : Draft => d.error = none → d.Checked) shape.definitions
    Draft.addDependency h (fun d ih e member => ?_) sound
  exact Checked.addDependency ih (part e member)

/-- A draft stays checked under a call, if the shape that the call hands over is checked. -/
theorem Checked.call (h : d.error = none → d.Checked) {call : Call}
    (parts : ∀ part, call.shape? = some part → ∀ e ∈ part.definitions, e.Checked)
    (sound : (d.call call).error = none) : (d.call call).Checked := by
  have last : ∀ shape : Shape, shape.definition ∈ shape.definitions := fun shape =>
    List.mem_append_right _ List.mem_cons_self
  cases call with
  | text name | money name | number name | yesNo name => exact Checked.field h trivial sound
  | oneOf name given =>
      rw [Draft.call] at sound ⊢
      cases values : checkedValues name given with
      | ok values' =>
          rw [values] at sound
          have checked : (FieldType.oneOf values').Checked := checkedValues_of_ok values
          exact Checked.field h checked sound
      | error e =>
          rw [values] at sound
          exact absurd sound (error_fail_ne_none d e)
  | object name shape | listOf name shape =>
      have part := parts shape rfl
      exact Checked.field (Checked.dependOn h part) (part _ (last shape)).name sound

end Draft

/-- All definitions of a shape that comes from calls are checked. -/
theorem Built.checked {shape : Shape} (h : shape.Built) : ∀ d ∈ shape.definitions, d.Checked := by
  induction h with
  | @calls name calls shape parts build ih =>
      have start (sound : (Draft.new name).error = none) : (Draft.new name).Checked := by
        obtain ⟨identifier, eq⟩ := Draft.eq_of_new sound
        rw [eq]
        exact ⟨List.forall_mem_nil _, identifier, List.forall_mem_nil _, List.nodup_nil⟩
      have final := List.foldlRecOn (motive := fun d : Draft => d.error = none → d.Checked) calls
        Draft.call start fun d kept call member => Draft.Checked.call kept (ih call member)
      rw [Shape.build, Draft.build] at build
      split at build
      · cases build
      · next none =>
        cases build
        obtain ⟨dependencies, definition⟩ := final none
        exact List.forall_mem_append.2 ⟨dependencies, List.forall_mem_singleton.2 definition⟩

end Shape

/-! ### Pipelines -/

/-- What is checked of a construct. -/
def Step.Checked : Step → Prop
  | .inference step => isIdentifier step.target.toList = true ∧
      ∀ values, step.categories = some values → step.verb = .classify ∧ CheckedValues values
  | .rule expression _ => Trimmed expression.toList
  | .set _ _ => False
  | _ => True

/-- What is checked of a program. -/
structure Program.Checked (p : Program) : Prop where
  definitions : ∀ d ∈ p.definitions, d.Checked
  distinct : (p.definitions.map (·.name)).Nodup
  settings : p.settings = []
  pipeline : ∀ step ∈ p.pipeline, step.Checked

namespace Pipeline

/-- What is checked of an extraction or classification. -/
def Primary.Checked : Primary → Prop
  | .extract shape => ∀ d ∈ shape.definitions, d.Checked
  | .classify field categories => isIdentifier field.toList = true ∧ CheckedValues categories

namespace Draft

variable {d : Draft}

/-- What is checked of a draft without settings. -/
structure Checked (d : Draft) : Prop where
  primary : ∀ primary ∈ d.primary, primary.Checked
  draft : ∀ field ∈ d.draft, isIdentifier field.toList = true
  flags : ∀ text ∈ d.flags, Trimmed text.toList
  settings : d.settings = []

theorem eq_of_checkName {name : String} (sound : (d.checkName name).error = none) :
    isIdentifier name.toList = true ∧ d.checkName name = d := by
  rw [checkName] at sound ⊢
  split at sound
  · next identifier => exact ⟨identifier, if_pos identifier⟩
  · exact absurd sound (error_fail_ne_none d _)

/-- Without a misuse an extraction takes the place of an earlier one. -/
theorem eq_of_extract {shape : Shape} (sound : (d.extract shape).error = none) :
    d.extract shape = { d with primary := some (.extract shape) } := by
  simp only [extract] at sound ⊢
  split at sound
  · exact absurd sound (error_fail_ne_none d _)
  · rfl

/-- Without a misuse a classification has an identifier for its target, and categories that differ.
Only the blanks around them are left out. -/
theorem eq_of_classify {field : String} {given : List String}
    (sound : (d.classify field given).error = none) : isIdentifier field.toList = true ∧
      ∃ categories, Shape.checkedValues field given = .ok categories ∧
        d.classify field given = { d with primary := some (.classify field categories) } := by
  simp only [classify] at sound ⊢
  cases values : Shape.checkedValues field given with
  | error e =>
      rw [values] at sound
      exact absurd sound (error_fail_ne_none _ e)
  | ok categories =>
      -- the name is checked last, and before it whether there is an extraction
      rw [values] at sound
      obtain ⟨identifier, eq⟩ := eq_of_checkName sound
      dsimp only at sound ⊢
      rw [eq] at sound ⊢
      refine ⟨identifier, categories, rfl, ?_⟩
      split at sound
      · exact absurd sound (error_fail_ne_none d _)
      · rfl

/-- Without a misuse a rule can be read. -/
theorem eq_of_flag {rule : String} (sound : (d.flag rule).error = none) :
    (∃ expr, Rule.read rule = .ok expr) ∧
      d.flag rule = { d with flags := d.flags ++ [Text.trimmed rule] } := by
  rw [flag] at sound ⊢
  cases read : Rule.read rule with
  | ok expr => exact ⟨⟨expr, rfl⟩, rfl⟩
  | error fault =>
      rw [read] at sound
      exact absurd sound (error_fail_ne_none d _)

/-- A rule that can be read is not blank. -/
theorem trimmed_of_read {rule : String} {expr : Rule.Expr} (read : Rule.read rule = .ok expr) :
    Trimmed (Text.trimmed rule).toList := by
  cases blank : (Text.trimmed rule).isEmpty with
  | false => exact trimmed_of_not_isEmpty blank
  | true =>
      -- the empty text is no rule
      rw [← Rule.read_trimmed, String.isEmpty_iff.1 blank] at read
      cases read

/-- A draft stays checked under a call, if shapes come from calls and no setting is added. -/
theorem Checked.call (h : d.error = none → d.Checked) {call : Call}
    (built : ∀ shape, call = .extract shape → shape.Built) (unset : ∀ o, call ≠ .set o)
    (sound : (d.call call).error = none) : (d.call call).Checked := by
  cases call with
  | source | output | prompt | examples =>
      obtain ⟨primary, draft, flags, settings⟩ := h sound
      exact ⟨primary, draft, flags, settings⟩
  | extract shape =>
      have eq := eq_of_extract sound
      rw [Draft.call, eq] at sound ⊢
      obtain ⟨primary, draft, flags, settings⟩ := h sound
      have checked : Primary.Checked (.extract shape) := (built shape rfl).checked
      exact ⟨by rintro _ ⟨⟩; exact checked, draft, flags, settings⟩
  | classify field given =>
      obtain ⟨identifier, categories, values, eq⟩ := eq_of_classify sound
      rw [Draft.call, eq] at sound ⊢
      obtain ⟨primary, draft, flags, settings⟩ := h sound
      have checked : Primary.Checked (.classify field categories) :=
        ⟨identifier, Shape.checkedValues_of_ok values⟩
      exact ⟨by rintro _ ⟨⟩; exact checked, draft, flags, settings⟩
  | draft field =>
      have named : (d.checkName field).error = none := sound
      obtain ⟨identifier, eq⟩ := eq_of_checkName named
      rw [Draft.call, eq] at sound ⊢
      obtain ⟨primary, draft, flags, settings⟩ := h sound
      exact ⟨primary, by rintro _ ⟨⟩; exact identifier, flags, settings⟩
  | flag rule =>
      obtain ⟨⟨expr, read⟩, eq⟩ := eq_of_flag sound
      rw [Draft.call, eq] at sound ⊢
      obtain ⟨primary, draft, flags, settings⟩ := h sound
      refine ⟨primary, draft, ?_, settings⟩
      exact List.forall_mem_append.2 ⟨flags, List.forall_mem_singleton.2 (trimmed_of_read read)⟩
  | set o => exact absurd rfl (unset o)

theorem checked_foldl {calls : List Call} (built : ∀ shape, .extract shape ∈ calls → shape.Built)
    (unset : ∀ o, .set o ∉ calls) (sound : (calls.foldl Draft.call {}).error = none) :
    (calls.foldl Draft.call {}).Checked := by
  refine List.foldlRecOn (motive := fun d : Draft => d.error = none → d.Checked) calls Draft.call
    (fun _ => ⟨nofun, nofun, List.forall_mem_nil _, rfl⟩) (fun d kept call member => ?_) sound
  apply Checked.call kept
  · rintro shape rfl
    exact built shape member
  · rintro o rfl
    exact unset o member

end Draft

/-! ### Programs -/

theorem checked_numberFields {fields : List Field} (checked : ∀ f ∈ fields, f.Checked)
    (line : Nat) : ∀ f ∈ numberFields line fields, f.Checked := by
  induction fields generalizing line with
  | nil => exact nofun
  | cons f rest ih =>
      obtain ⟨⟨name, type⟩, later⟩ := List.forall_mem_cons.1 checked
      exact List.forall_mem_cons.2 ⟨⟨name, type⟩, ih later (line + 1)⟩

theorem names_numberFields (line : Nat) (fields : List Field) :
    (numberFields line fields).map (·.name) = fields.map (·.name) := by
  induction fields generalizing line with
  | nil => rfl
  | cons f rest ih => exact congrArg (f.name :: ·) (ih _)

/-- Numbers are not checked. -/
theorem checked_numberDefinitions {ds : List Definition} (checked : ∀ d ∈ ds, d.Checked)
    (line : Nat) : ∀ d ∈ numberDefinitions line ds, d.Checked := by
  induction ds generalizing line with
  | nil => exact nofun
  | cons d rest ih =>
      obtain ⟨⟨name, fields, distinct⟩, later⟩ := List.forall_mem_cons.1 checked
      refine List.forall_mem_cons.2 ⟨⟨name, checked_numberFields fields _, ?_⟩, ih later _⟩
      show ((numberFields _ d.fields).map (·.name)).Nodup
      rw [names_numberFields]
      exact distinct

namespace Draft

variable {d : Draft}

/-- The definitions that are collected are those of the shape. -/
theorem forall_mem_definitions {P : Definition → Prop} {ds : List Definition}
    (collected : d.definitions = .ok ds)
    (each : ∀ shape, d.primary = some (.extract shape) → ∀ e ∈ shape.definitions, P e) :
    (∀ e ∈ ds, P e) ∧ (ds.map (·.name)).Nodup := by
  rw [definitions] at collected
  split at collected
  · next shape found =>
    obtain rfl := eq_of_collect collected
    refine ⟨?_, Shape.nodup_foldl List.nodup_nil⟩
    refine List.foldlRecOn (motive := fun ds => ∀ e ∈ ds, P e) shape.definitions
      Shape.withDefinition (List.forall_mem_nil _) fun ds kept e member => ?_
    exact Shape.forall_mem_withDefinition kept (each shape found e member)
  · cases collected
    exact ⟨List.forall_mem_nil _, List.nodup_nil⟩

theorem Checked.bareSteps (h : d.Checked) {s : Nat → InferenceStep} (member : s ∈ d.bareSteps)
    (line : Nat) : Step.Checked (.inference (s line)) := by
  simp only [Draft.bareSteps, optional_eq, List.mem_append, List.mem_map,
    Option.mem_toList] at member
  rcases member with ⟨primary, found, rfl⟩ | ⟨field, found, rfl⟩
  · cases primary with
    | extract shape =>
        have checked : ∀ e ∈ shape.definitions, e.Checked := h.primary _ found
        refine ⟨(checked shape.definition ?_).name, by simp [Primary.step]⟩
        exact List.mem_append_right _ List.mem_cons_self
    | classify field categories =>
        obtain ⟨identifier, checked⟩ : isIdentifier field.toList = true ∧
          CheckedValues categories := h.primary _ found
        refine ⟨identifier, ?_⟩
        rintro _ ⟨⟩
        exact ⟨rfl, checked⟩
  · exact ⟨h.draft field found, by simp [draftStep]⟩

theorem Checked.steps (h : d.Checked) {step : Nat → Step} (member : step ∈ d.steps) (line : Nat) :
    (step line).Checked := by
  rcases mem_steps member with ⟨_, rfl⟩ | ⟨s, inside, rfl⟩ | ⟨text, listed, rfl⟩ | ⟨_, rfl⟩
  · trivial
  · obtain ⟨bare, there, same⟩ := exists_bareStep inside
    obtain ⟨verb, target, categories, -⟩ := same line
    have checked := h.bareSteps there line
    rw [Step.Checked] at checked ⊢
    rw [verb, target, categories]
    exact checked
  · exact h.flags text listed
  · trivial

end Draft

/-- What comes from calls is checked, unless they add settings. -/
theorem checked_of_program {calls : List Call}
    (shapes : ∀ shape, .extract shape ∈ calls → shape.Built) (unset : ∀ o, .set o ∉ calls)
    {p : Program} (h : program calls = .ok p) : p.Checked := by
  obtain ⟨sound, ds, collected, rfl⟩ := Draft.of_program h
  have checked := Draft.checked_foldl shapes unset sound
  obtain ⟨definitions, distinct⟩ := Draft.forall_mem_definitions (P := Definition.Checked) collected
    fun shape found => checked.primary _ found
  refine ⟨checked_numberDefinitions definitions 1, ?_, checked.settings, fun step member => ?_⟩
  · rw [names_numberDefinitions]
    exact distinct
  · obtain ⟨step', listed, line, rfl⟩ := mem_numberSteps member
    exact checked.steps listed line

end Pipeline

end RecordInference
