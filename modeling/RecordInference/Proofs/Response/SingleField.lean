import RecordInference.Proofs.Plan.Origin
import RecordInference.Response.Validation

/-!
# Responses for one field

The step of a classification and that of a draft have one field each, and a raw response holds a
value for a field bare or as a member of an object (`Holds`). The verdict on a classification is the
same for both (`Chooses`), and a draft is refused only for an object without a text in its place
(`Drafts`). This is so for every step of a plan (`Plan.single_field_of_compile`).
-/

set_option autoImplicit false

namespace RecordInference

/-- The verdict on a raw response to a step. -/
def PlannedStep.verdict (step : PlannedStep) (raw : String) : Verdict :=
  Response.checkStep step.verb step.schema step.output raw

namespace Response

variable {field raw : String} {schema : Schema} {v : Json} {members : List (String × Json)}

/-- Whether a JSON value is an object. -/
def IsObject (v : Json) : Prop := ∃ members, v = .obj members

/-- The value that a raw response holds for a field: the member of that name of the object that it
decodes to, or what it decodes to if that is no object. -/
inductive Holds (field raw : String) : Json → Prop where
  | wrapped {members : List (String × Json)} {v : Json} (decoded : decode raw = .ok (.obj members))
      (found : Keyed.get? field members = some v) : Holds field raw v
  | bare {v : Json} (decoded : decode raw = .ok v) (other : ¬ IsObject v) : Holds field raw v

/-- How a classification into values answers to raw responses. -/
structure Chooses (field : String) (values : List String) (verdict : String → Verdict) : Prop where
  /-- Bare or wrapped, a value has one verdict. -/
  same : ∀ raw raw' v, Holds field raw v → Holds field raw' v → verdict raw = verdict raw'
  accepted : ∀ raw v, Holds field raw v →
    ∀ t, verdict raw = .ok t ↔ ∃ s ∈ values, v = .str s ∧ t = .oneOf s
  located : ∀ raw v, Holds field raw v →
    ∀ violations, verdict raw = .error violations → ∀ x ∈ violations, x.path = field
  missing : ∀ raw members, decode raw = .ok (.obj members) → Keyed.get? field members = none →
    verdict raw = .error [⟨field, (Schema.oneOf values).describe, "missing"⟩]
  undecodable : ∀ raw violation, decode raw = .error violation →
    verdict raw = .error [violation] ∧ violation.path = rootPath

/-- How a draft answers to raw responses. -/
structure Drafts (field : String) (verdict : String → Verdict) : Prop where
  refused_iff : ∀ raw, (∃ violations, verdict raw = .error violations) ↔
    ∃ members, decode raw = .ok (.obj members) ∧ ∀ s, Keyed.get? field members ≠ some (.str s)
  text : ∀ raw s, Holds field raw (.str s) → verdict raw = .ok (.text s)
  /-- What decodes neither to an object nor to a text stands for itself. -/
  plain : ∀ raw, (∀ v, decode raw = .ok v → ¬ IsObject v ∧ ∀ s, v ≠ .str s) →
    verdict raw = .ok (.text (Text.trimmed raw))

/-! ### Verdicts on what a response holds -/

theorem checkStep_of_wrapped {verb : Verb} (decoded : decode raw = .ok (.obj members))
    (found : Keyed.get? field members = some v) :
    checkStep verb schema (.field field) raw = check schema v field := by
  simp only [checkStep, fieldValue, decoded, found]

theorem checkStep_of_missing {verb : Verb} (decoded : decode raw = .ok (.obj members))
    (absent : Keyed.get? field members = none) :
    checkStep verb schema (.field field) raw = .error [⟨field, schema.describe, "missing"⟩] := by
  simp only [checkStep, fieldValue, decoded, absent]

/-- A classification looks at what a response holds, in whichever way. -/
theorem checkStep_classify_of_holds (holds : Holds field raw v) :
    checkStep .classify schema (.field field) raw = check schema v field := by
  cases holds with
  | wrapped decoded found => exact checkStep_of_wrapped decoded found
  | bare decoded other =>
      cases v with
      | obj members => exact absurd ⟨members, rfl⟩ other
      | null | bool | int | float | str | arr => simp only [checkStep, fieldValue, decoded]

theorem checkStep_draft_of_text {s : String} (holds : Holds field raw (.str s)) :
    checkStep .draft .text (.field field) raw = .ok (.text s) := by
  cases holds with
  | wrapped decoded found =>
      rw [checkStep_of_wrapped decoded found]
      rfl
  | bare decoded =>
      simp only [checkStep, fieldValue, decoded]
      rfl

theorem checkStep_draft_of_plain
    (plain : ∀ v, decode raw = .ok v → ¬ IsObject v ∧ ∀ s, v ≠ .str s) :
    checkStep .draft .text (.field field) raw = .ok (.text (Text.trimmed raw)) := by
  cases decoded : decode raw with
  | error violation =>
      simp only [checkStep, fieldValue, decoded]
      rfl
  | ok v =>
      obtain ⟨other, noText⟩ := plain v decoded
      cases v with
      | obj members => exact absurd ⟨members, rfl⟩ other
      | str s => exact absurd rfl (noText s)
      | null | bool | int | float | arr =>
          simp only [checkStep, fieldValue, decoded]
          rfl

theorem path_of_decode {violation : Violation} (h : decode raw = .error violation) :
    violation.path = rootPath := by
  simp only [decode] at h
  split at h
  · cases h
  · cases h
    rfl

/-- The check of a value against given values. -/
theorem check_oneOf (values : List String) (v : Json) (path : String) :
    (∃ s ∈ values, v = .str s ∧ check (.oneOf values) v path = .ok (.oneOf s)) ∨
      (∀ s ∈ values, v ≠ .str s) ∧ check (.oneOf values) v path =
        .error [⟨path, (Schema.oneOf values).describe, describe v⟩] := by
  cases v with
  | str s =>
      by_cases member : s ∈ values
      · left
        exact ⟨s, member, rfl, if_pos member⟩
      · right
        refine ⟨?_, if_neg member⟩
        rintro _ listed ⟨⟩
        exact member listed
  | null | bool | int | float | arr | obj => exact Or.inr ⟨nofun, rfl⟩

theorem chooses_checkStep (field : String) (values : List String) :
    Chooses field values (checkStep .classify (.oneOf values) (.field field)) where
  same := by
    intro raw raw' v holds holds'
    rw [checkStep_classify_of_holds holds, checkStep_classify_of_holds holds']
  accepted := by
    intro raw v holds t
    rw [checkStep_classify_of_holds holds]
    rcases check_oneOf values v field with ⟨s, listed, rfl, checked⟩ | ⟨unlisted, checked⟩
    · rw [checked]
      constructor
      · rintro ⟨⟩
        exact ⟨s, listed, rfl, rfl⟩
      · rintro ⟨_, -, ⟨⟩, rfl⟩
        rfl
    · rw [checked]
      constructor
      · nofun
      · rintro ⟨s, listed, same, -⟩
        exact absurd same (unlisted s listed)
  located := by
    intro raw v holds violations
    rw [checkStep_classify_of_holds holds]
    rcases check_oneOf values v field with ⟨s, -, -, checked⟩ | ⟨-, checked⟩
    · rw [checked]
      nofun
    · rw [checked]
      rintro ⟨⟩
      exact List.forall_mem_singleton.2 rfl
  missing := fun _ _ decoded absent => checkStep_of_missing decoded absent
  undecodable := by
    intro raw violation decoded
    refine ⟨?_, path_of_decode decoded⟩
    simp only [checkStep, fieldValue, decoded]

theorem drafts_checkStep (field : String) :
    Drafts field (checkStep .draft .text (.field field)) where
  text := fun _ _ holds => checkStep_draft_of_text holds
  plain := fun _ plain => checkStep_draft_of_plain plain
  refused_iff := by
    intro raw
    -- what is no object is accepted, as a text or as it stands
    by_cases object : ∃ members, decode raw = .ok (.obj members)
    · obtain ⟨members, decoded⟩ := object
      simp only [decoded, Except.ok.injEq, Json.obj.injEq, exists_eq_left']
      cases found : Keyed.get? field members with
      | none => simp [checkStep_of_missing decoded found]
      | some v =>
          rw [checkStep_of_wrapped decoded found]
          cases v with
          | str s => simp [check]
          | null | bool | int | float | arr | obj => simp [check]
    · have refused : ¬ ∃ members, decode raw = .ok (.obj members) ∧
          ∀ s, Keyed.get? field members ≠ some (.str s) :=
        fun ⟨members, decoded, _⟩ => object ⟨members, decoded⟩
      have other : ∀ v, decode raw = .ok v → ¬ IsObject v := by
        rintro v decoded ⟨members, rfl⟩
        exact object ⟨members, decoded⟩
      refine iff_of_false ?_ refused
      rintro ⟨violations, verdict⟩
      by_cases text : ∃ s, decode raw = .ok (.str s)
      · obtain ⟨s, decoded⟩ := text
        rw [checkStep_draft_of_text (.bare decoded (other _ decoded))] at verdict
        cases verdict
      · rw [checkStep_draft_of_plain] at verdict
        · cases verdict
        · intro v decoded
          refine ⟨other v decoded, ?_⟩
          rintro s rfl
          exact text ⟨s, decoded⟩

end Response

/-! ### Steps of a plan -/

/-- A step for one field gives the verdict of its verb on that field. -/
theorem PlannedStep.StemsFrom.verdict_eq {planned : PlannedStep} {step : InferenceStep}
    {field : String} {schema : Schema} (stems : planned.StemsFrom step (.single field schema)) :
    planned.verdict = Response.checkStep step.verb schema (.field field) := by
  funext raw
  rw [PlannedStep.verdict, stems.verb, stems.schema, stems.output]
  rfl

namespace Plan

/-- Every classification of a plan has one field and chooses among values for it, and every draft
of a plan has one field and drafts a text for it. -/
theorem single_field_of_compile {program : Program} {schemas : Keyed Schema} {loader : Loader}
    {plan : Plan} (h : compile program schemas loader = .ok plan) : ∀ step ∈ plan.steps,
      (step.verb = .classify → ∃ field values, step.output = .field field ∧
        step.schema = .oneOf values ∧ Response.Chooses field values step.verdict) ∧
      (step.verb = .draft → ∃ field, step.output = .field field ∧
        step.schema = .text ∧ Response.Drafts field step.verdict) := by
  intro step member
  obtain ⟨inference, y, -, yields, stems⟩ := exists_yield_of_compile h step member
  obtain ⟨classify, draft⟩ := Yield.eq_single_of_ofStep yields
  rw [stems.schema, stems.output, stems.verb]
  constructor
  · intro verb
    obtain ⟨field, values, rfl⟩ := classify verb
    refine ⟨field, values, rfl, rfl, ?_⟩
    rw [stems.verdict_eq, verb]
    exact Response.chooses_checkStep field values
  · intro verb
    obtain ⟨field, rfl⟩ := draft verb
    refine ⟨field, rfl, rfl, ?_⟩
    rw [stems.verdict_eq, verb]
    exact Response.drafts_checkStep field

/-- A classification by a definition with a single field, and a draft. -/
theorem single_field_of_compile_urgency :
    let program : Program := ⟨[⟨"urgency", [⟨"level", .oneOf ["low", "high"], 2⟩], 1⟩], [],
      [.inference ⟨.classify, "urgency", none, none, none, 3⟩,
        .inference ⟨.draft, "reply", none, none, none, 4⟩]⟩
    ∃ schemas plan, Schema.resolve program.definitions = .ok schemas ∧
      compile program schemas (.ofTexts [] []) = .ok plan ∧
      plan.steps.map (fun step => (step.verb, step.output)) =
        [(.classify, .field "level"), (.draft, .field "reply")] ∧
      ∀ step ∈ plan.steps,
        (step.verb = .classify → ∃ field values, step.output = .field field ∧
          step.schema = .oneOf values ∧ Response.Chooses field values step.verdict) ∧
        (step.verb = .draft → ∃ field, step.output = .field field ∧
          step.schema = .text ∧ Response.Drafts field step.verdict) := by
  intro program
  have steps : (program.plan (.ofTexts [] [])).toOption.map
      (fun plan => plan.steps.map fun step => (step.verb, step.output)) =
        some [(.classify, .field "level"), (.draft, .field "reply")] := by
    decide +kernel
  obtain ⟨plan, planned, outputs⟩ := Option.map_eq_some_iff.1 steps
  rw [Except.toOption_eq_some_iff] at planned
  obtain ⟨schemas, resolved, compiled⟩ := Program.plan_eq_ok_iff.1 planned
  exact ⟨schemas, plan, resolved, compiled, outputs, single_field_of_compile compiled⟩

end Plan

end RecordInference
