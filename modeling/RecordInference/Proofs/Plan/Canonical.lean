import RecordInference.Plan.Compilation
import RecordInference.Proofs.Digest.Fingerprint
import RecordInference.Proofs.Json.Unique
import RecordInference.Proofs.Outcome

/-!
# The canonical text of a plan

The canonical text keeps everything that a plan says. In a plan whose numbers are finite
(`Plan.Finite`) no number is lost in the text, so the text gives back the JSON value that it was
written from (`Json.shown_of_compact`); and every part of a plan is determined by its JSON value
(`Plan.toJson_inj`). Plans with one text are therefore one plan, down to the order of their steps,
rules, fields and headers (`Plan.eq_of_canonical`).
-/

set_option autoImplicit false

namespace RecordInference

namespace Json

@[simp] theorem shown_str (s : String) : (Json.str s).shown = .str s := rfl

@[simp] theorem shown_int (i : Int) : (Json.int i).shown = .int i := rfl

@[simp] theorem shown_bool (b : Bool) : (Json.bool b).shown = .bool b := rfl

theorem shown_float {x : Float} (finite : x.isFinite = true) : (Json.float x).shown = .float x := by
  rw [shown, if_pos finite]

@[simp] theorem shown_obj (members : List (String × Json)) :
    (Json.obj members).shown = .obj (members.map fun m => (m.1, m.2.shown)) := by
  rw [shown, shownMembers_eq_map]

@[simp] theorem shown_arr (items : List Json) :
    (Json.arr items).shown = .arr (items.map shown) := by
  rw [shown, shownItems_eq_map]

theorem map_shown {α : Type} {f : α → Json} {l : List α} (kept : ∀ a ∈ l, (f a).shown = f a) :
    (l.map f).map shown = l.map f := by
  rw [List.map_map]
  exact List.map_congr_left kept

theorem shown_ofOption {α : Type} {f : α → Json} {a : Option α}
    (kept : ∀ b ∈ a, (f b).shown = f b) : (ofOption f a).shown = ofOption f a := by
  cases a with
  | none => rfl
  | some b => exact kept b rfl

theorem ofOption_inj {α : Type} {f : α → Json} {a b : Option α} (present : ∀ c, f c ≠ .null)
    (inj : ∀ c d, f c = f d → c = d) (same : ofOption f a = ofOption f b) : a = b := by
  cases a with
  | none =>
      cases b with
      | none => rfl
      | some d => exact absurd same.symm (present d)
  | some c =>
      cases b with
      | none => exact absurd same (present c)
      | some d => exact congrArg some (inj c d same)

end Json

/-! ### Schemas -/

namespace Schema

theorem fieldsToJson_eq_map (fields : List (String × Schema)) :
    fieldsToJson fields = fields.map fun f => .arr [.str f.1, f.2.toJson] := by
  induction fields with
  | nil => rfl
  | cons f rest ih => rw [fieldsToJson, ih, List.map_cons]

/-- There are no numbers in a schema. -/
@[simp] theorem shown_toJson (schema : Schema) : schema.toJson.shown = schema.toJson := by
  induction schema using Schema.induction with
  | text | money | number | yesNo => simp [toJson]
  | oneOf values => simp [toJson, Json.ofTexts]
  | list items ih => simp [toJson, ih]
  | object name fields ih =>
      have each : (fieldsToJson fields).map Json.shown = fieldsToJson fields := by
        rw [fieldsToJson_eq_map]
        apply Json.map_shown
        intro f member
        simp [ih f member]
      simp [toJson, each]

/-- A list of fields is determined by its JSON value if the schema of each field is. -/
theorem fieldsToJson_inj {fields fields' : List (String × Schema)}
    (each : ∀ f ∈ fields, ∀ schema, f.2.toJson = schema.toJson → f.2 = schema)
    (same : fieldsToJson fields = fieldsToJson fields') : fields = fields' := by
  induction fields generalizing fields' with
  | nil =>
      cases fields' with
      | nil => rfl
      | cons f' rest' => cases same
  | cons f rest ih =>
      obtain ⟨here, later⟩ := List.forall_mem_cons.1 each
      cases fields' with
      | nil => cases same
      | cons f' rest' =>
          simp only [fieldsToJson, List.cons.injEq, Json.arr.injEq, Json.str.injEq, and_true]
            at same
          obtain ⟨⟨name, schema⟩, others⟩ := same
          rw [ih later others, Prod.ext name (here f'.2 schema)]

theorem toJson_inj {schema schema' : Schema} (same : schema.toJson = schema'.toJson) :
    schema = schema' := by
  induction schema using Schema.induction generalizing schema' with
  | text | money | number | yesNo =>
      cases schema' <;> simp_all [toJson]
  | oneOf values =>
      cases schema' with
      | oneOf values' =>
          simp only [toJson, Json.ofTexts, Json.obj.injEq, List.cons.injEq, Prod.mk.injEq,
            Json.arr.injEq, true_and, and_true] at same
          rw [(List.map_inj_right fun _ _ => Json.str.inj).1 same]
      | _ => simp [toJson] at same
  | list items ih =>
      cases schema' with
      | list items' =>
          simp only [toJson, Json.obj.injEq, List.cons.injEq, Prod.mk.injEq, true_and, and_true]
            at same
          rw [ih same]
      | _ => simp [toJson] at same
  | object name fields ih =>
      cases schema' with
      | object name' fields' =>
          simp only [toJson, Json.obj.injEq, List.cons.injEq, Prod.mk.injEq, Json.str.injEq,
            Json.arr.injEq, true_and, and_true] at same
          rw [same.1, fieldsToJson_inj (fun f member _ => ih f member) same.2]
      | _ => simp [toJson] at same

end Schema

/-! ### Parameters -/

namespace Parameters

/-- The parameters whose numbers are finite. -/
structure Finite (p : Parameters) : Prop where
  temperature : p.temperature.isFinite = true
  topP : ∀ x ∈ p.topP, x.isFinite = true

instance (p : Parameters) : Decidable p.Finite :=
  decidable_of_iff (p.temperature.isFinite = true ∧ ∀ x ∈ p.topP, x.isFinite = true)
    ⟨fun h => ⟨h.1, h.2⟩, fun h => ⟨h.temperature, h.topP⟩⟩

theorem shown_toJson {p : Parameters} (finite : p.Finite) : p.toJson.shown = p.toJson := by
  have model : (Json.ofOption .str p.model).shown = Json.ofOption .str p.model :=
    Json.shown_ofOption fun _ _ => Json.shown_str _
  have topP : (Json.ofOption .float p.topP).shown = Json.ofOption .float p.topP :=
    Json.shown_ofOption fun x member => Json.shown_float (finite.topP x member)
  have whole (n : Option Nat) : (Json.ofOption (fun (n : Nat) => .int n) n).shown =
      Json.ofOption (fun (n : Nat) => .int n) n :=
    Json.shown_ofOption fun _ _ => Json.shown_int _
  simp [toJson, model, Json.shown_float finite.temperature, topP, whole]

theorem toJson_inj {p q : Parameters} (same : p.toJson = q.toJson) : p = q := by
  obtain ⟨model, temperature, topP, seed, maxTokens, headers⟩ := p
  obtain ⟨model', temperature', topP', seed', maxTokens', headers'⟩ := q
  simp only [toJson, Json.obj.injEq, List.cons.injEq, Prod.mk.injEq, Json.float.injEq, true_and,
    and_true] at same
  obtain ⟨models, rfl, topPs, seeds, counts, entries⟩ := same
  have whole (n m : Nat) (h : Json.int n = Json.int m) : n = m := Int.ofNat.inj (Json.int.inj h)
  obtain rfl := Json.ofOption_inj nofun (fun _ _ => Json.str.inj) models
  obtain rfl := Json.ofOption_inj nofun (fun _ _ => Json.float.inj) topPs
  obtain rfl := Json.ofOption_inj nofun whole seeds
  obtain rfl := Json.ofOption_inj nofun whole counts
  have entry (e e' : String × String) (h : (e.1, Json.str e.2) = (e'.1, Json.str e'.2)) : e = e' :=
    Prod.ext (Prod.mk.inj h).1 (Json.str.inj (Prod.mk.inj h).2)
  rw [(List.map_inj_right entry).1 entries]

end Parameters

/-! ### Rules -/

namespace Rule

/-- The operands that are no number or a finite one. -/
def Operand.Finite : Operand → Prop
  | number x => x.isFinite = true
  | yesNo _ => True
  | text _ => True

/-- The conditions whose operands are finite. -/
def Condition.Finite : Condition → Prop
  | compare _ _ operand => operand.Finite
  | join _ left right => left.Finite ∧ right.Finite

instance : (operand : Operand) → Decidable operand.Finite
  | .number x => inferInstanceAs (Decidable (x.isFinite = true))
  | .yesNo _ => isTrue trivial
  | .text _ => isTrue trivial

instance Condition.decidableFinite : (condition : Condition) → Decidable condition.Finite
  | .compare _ _ operand => inferInstanceAs (Decidable operand.Finite)
  | .join _ left right =>
    haveI := left.decidableFinite
    haveI := right.decidableFinite
    inferInstanceAs (Decidable (left.Finite ∧ right.Finite))

theorem Comparison.tag_inj {op op' : Comparison} (same : op.tag = op'.tag) : op = op' := by
  cases op <;> cases op' <;> first | rfl | exact absurd same (by decide)

theorem Connective.tag_inj {op op' : Connective} (same : op.tag = op'.tag) : op = op' := by
  cases op <;> cases op' <;> first | rfl | exact absurd same (by decide)

theorem Operand.shown_toJson {operand : Operand} (finite : operand.Finite) :
    operand.toJson.shown = operand.toJson := by
  cases operand with
  | number x => simp [toJson, Json.shown_float finite]
  | yesNo b => simp [toJson]
  | text s => simp [toJson]

theorem Operand.toJson_inj {operand operand' : Operand} (same : operand.toJson = operand'.toJson) :
    operand = operand' := by
  cases operand <;> cases operand' <;> simp_all [toJson]

theorem Condition.shown_toJson {condition : Condition} (finite : condition.Finite) :
    condition.toJson.shown = condition.toJson := by
  induction condition with
  | compare field op operand => simp [toJson, Operand.shown_toJson finite]
  | join op left right ihl ihr => simp [toJson, ihl finite.1, ihr finite.2]

theorem Condition.toJson_inj {condition condition' : Condition}
    (same : condition.toJson = condition'.toJson) : condition = condition' := by
  induction condition generalizing condition' with
  | compare field op operand =>
      cases condition' with
      | compare field' op' operand' =>
          simp only [toJson, Json.obj.injEq, List.cons.injEq, Prod.mk.injEq, Json.str.injEq,
            true_and, and_true] at same
          rw [same.1, Comparison.tag_inj same.2.1, Operand.toJson_inj same.2.2]
      | join => simp [toJson] at same
  | join op left right ihl ihr =>
      cases condition' with
      | compare => simp [toJson] at same
      | join op' left' right' =>
          simp only [toJson, Json.obj.injEq, List.cons.injEq, Prod.mk.injEq, Json.str.injEq,
            true_and, and_true] at same
          rw [Connective.tag_inj same.1, ihl same.2.1, ihr same.2.2]

end Rule

/-! ### Steps -/

theorem Verb.tag_inj {verb verb' : Verb} (same : verb.tag = verb'.tag) : verb = verb' := by
  cases verb <;> cases verb' <;> first | rfl | exact absurd same (by decide)

theorem ResourceKind.name_inj {kind kind' : ResourceKind} (same : kind.name = kind'.name) :
    kind = kind' := by
  cases kind <;> cases kind' <;> first | rfl | exact absurd same (by decide)

@[simp] theorem StepOutput.shown_toJson (output : StepOutput) :
    output.toJson.shown = output.toJson := by
  cases output <;> simp [toJson]

theorem StepOutput.toJson_inj {output output' : StepOutput}
    (same : output.toJson = output'.toJson) : output = output' := by
  cases output <;> cases output' <;> simp_all [toJson]

@[simp] theorem Handle.shown_toJson (h : Handle) : h.toJson.shown = h.toJson := by simp [toJson]

theorem Handle.toJson_ne_null (h : Handle) : h.toJson ≠ .null := by simp [toJson]

theorem Handle.toJson_inj {h h' : Handle} (same : h.toJson = h'.toJson) : h = h' := by
  obtain ⟨kind, name⟩ := h
  obtain ⟨kind', name'⟩ := h'
  simp only [toJson, Json.obj.injEq, List.cons.injEq, Prod.mk.injEq, Json.str.injEq, true_and,
    and_true] at same
  rw [ResourceKind.name_inj same.1, same.2]

namespace PlannedStep

theorem shown_ofHandle (h : Option Handle) :
    (Json.ofOption Handle.toJson h).shown = Json.ofOption Handle.toJson h :=
  Json.shown_ofOption fun handle _ => handle.shown_toJson

theorem shown_toJson {step : PlannedStep} (finite : step.parameters.Finite) :
    step.toJson.shown = step.toJson := by
  simp [toJson, Parameters.shown_toJson finite, shown_ofHandle]

theorem toJson_inj {step step' : PlannedStep} (same : step.toJson = step'.toJson) :
    step = step' := by
  obtain ⟨index, verb, target, schema, output, instructions, parameters, prompt, examples⟩ := step
  obtain ⟨index', verb', target', schema', output', instructions', parameters', prompt',
    examples'⟩ := step'
  simp only [toJson, Json.obj.injEq, List.cons.injEq, Prod.mk.injEq, Json.str.injEq,
    Json.int.injEq, Int.natCast_inj, true_and, and_true] at same
  obtain ⟨rfl, verbs, rfl, schemas, outputs, rfl, params, prompts, sets⟩ := same
  rw [Verb.tag_inj verbs, Schema.toJson_inj schemas, StepOutput.toJson_inj outputs,
    Parameters.toJson_inj params,
    Json.ofOption_inj Handle.toJson_ne_null (fun _ _ => Handle.toJson_inj) prompts,
    Json.ofOption_inj Handle.toJson_ne_null (fun _ _ => Handle.toJson_inj) sets]

end PlannedStep

theorem PlannedRule.shown_toJson {rule : PlannedRule} (finite : rule.condition.Finite) :
    rule.toJson.shown = rule.toJson := by
  simp [toJson, Rule.Condition.shown_toJson finite]

theorem PlannedRule.toJson_inj {rule rule' : PlannedRule} (same : rule.toJson = rule'.toJson) :
    rule = rule' := by
  obtain ⟨text, condition⟩ := rule
  obtain ⟨text', condition'⟩ := rule'
  simp only [toJson, Json.obj.injEq, List.cons.injEq, Prod.mk.injEq, Json.str.injEq, true_and,
    and_true] at same
  rw [same.1, Rule.Condition.toJson_inj same.2]

/-! ### Plans -/

namespace Plan

/-- The plans whose parameters and operands are finite. -/
structure Finite (p : Plan) : Prop where
  parameters : ∀ step ∈ p.steps, step.parameters.Finite
  operands : ∀ rule ∈ p.rules, rule.condition.Finite

instance (p : Plan) : Decidable p.Finite :=
  decidable_of_iff
    ((∀ step ∈ p.steps, step.parameters.Finite) ∧ ∀ rule ∈ p.rules, rule.condition.Finite)
    ⟨fun h => ⟨h.1, h.2⟩, fun h => ⟨h.parameters, h.operands⟩⟩

theorem shown_toJson {p : Plan} (finite : p.Finite) : p.toJson.shown = p.toJson := by
  have text (s : Option String) : (Json.ofOption .str s).shown = Json.ofOption .str s :=
    Json.shown_ofOption fun _ _ => Json.shown_str _
  have steps := Json.map_shown fun step member =>
    PlannedStep.shown_toJson (finite.parameters step member)
  have rules := Json.map_shown fun rule member =>
    PlannedRule.shown_toJson (finite.operands rule member)
  simp only [toJson, Json.shown_obj, Json.shown_arr, List.map_cons, List.map_nil, text, steps,
    rules, List.map_map, Function.comp_def, Schema.shown_toJson]

/-- The bytes of the canonical text. -/
def bytes (p : Plan) : List UInt8 := p.toJson.chars.flatMap String.utf8EncodeChar

theorem bytesOf_canonical (p : Plan) : Digest.bytesOf p.canonical = p.bytes :=
  Digest.bytesOf_ofList p.toJson.chars

/-- The canonical text tells what is written of each step. -/
theorem shown_steps_of_canonical {p q : Plan} (same : p.canonical = q.canonical) :
    p.steps.map (·.toJson.shown) = q.steps.map (·.toJson.shown) := by
  have shown := Json.shown_of_compact same
  simp only [toJson, Json.shown_obj, Json.shown_arr, List.map_cons, List.map_nil, Json.obj.injEq,
    List.cons.injEq, Prod.mk.injEq, Json.arr.injEq, List.map_map, true_and] at shown
  exact shown.2.1

theorem toJson_inj {p q : Plan} (same : p.toJson = q.toJson) : p = q := by
  obtain ⟨source, steps, rules, output, shape⟩ := p
  obtain ⟨source', steps', rules', output', shape'⟩ := q
  simp only [toJson, Json.obj.injEq, List.cons.injEq, Prod.mk.injEq, Json.arr.injEq, true_and,
    and_true] at same
  obtain ⟨sources, planned, checked, outputs, fields⟩ := same
  obtain rfl := Json.ofOption_inj nofun (fun _ _ => Json.str.inj) sources
  obtain rfl := Json.ofOption_inj nofun (fun _ _ => Json.str.inj) outputs
  obtain rfl := (List.map_inj_right fun _ _ => PlannedStep.toJson_inj).1 planned
  obtain rfl := (List.map_inj_right fun _ _ => PlannedRule.toJson_inj).1 checked
  have field (e e' : String × Schema) (h : (e.1, e.2.toJson) = (e'.1, e'.2.toJson)) : e = e' :=
    Prod.ext (Prod.mk.inj h).1 (Schema.toJson_inj (Prod.mk.inj h).2)
  rw [(List.map_inj_right field).1 fields]

/-- The canonical text of a plan loses nothing. -/
theorem eq_of_canonical {p q : Plan} (finite : p.Finite) (finite' : q.Finite)
    (same : p.canonical = q.canonical) : p = q := by
  apply toJson_inj
  calc p.toJson = p.toJson.shown := (shown_toJson finite).symm
    _ = q.toJson.shown := Json.shown_of_compact same
    _ = q.toJson := shown_toJson finite'

/-- Two spellings of one number leave one canonical text, and so one plan. -/
theorem eq_of_canonical_spelled :
    ∃ p q,
      ofDeclaration "SET TEMPERATURE 0.5\nDRAFT r\nFLAG WHEN r IS x" (fun _ _ => none) = .ok p ∧
      ofDeclaration "FLAG WHEN r IS x\nSET TEMPERATURE 5e-1\nDRAFT r" (fun _ _ => none) = .ok q ∧
      p.Finite ∧ q.Finite ∧ p.canonical = q.canonical ∧ p = q := by
  have plans : ((ofDeclaration "SET TEMPERATURE 0.5\nDRAFT r\nFLAG WHEN r IS x"
        fun _ _ => none).toOption.bind fun p =>
      (ofDeclaration "FLAG WHEN r IS x\nSET TEMPERATURE 5e-1\nDRAFT r"
        fun _ _ => none).toOption.map fun q =>
      decide (p.Finite ∧ q.Finite ∧ p.toJson.chars = q.toJson.chars)) = some true := by
    decide +kernel
  obtain ⟨p, compiled, plans⟩ := Option.bind_eq_some_iff.1 plans
  obtain ⟨q, compiled', plans⟩ := Option.map_eq_some_iff.1 plans
  rw [Except.toOption_eq_some_iff] at compiled compiled'
  obtain ⟨finite, finite', chars⟩ := of_decide_eq_true plans
  have same : p.canonical = q.canonical := congrArg String.ofList chars
  exact ⟨p, q, compiled, compiled', finite, finite', same, eq_of_canonical finite finite' same⟩

end Plan

end RecordInference
