import RecordInference.Proofs.Response.RoundTrip
import RecordInference.Proofs.Schema.Document

/-!
# The check and the rendered schema

A client is told the shape of a response in the terms of JSON Schema, and the response is checked
against the shape itself. The two agree (`validate_agrees`): what satisfies the rendering is
accepted, as the data that it is; and what is accepted, after whatever was read generously or
passed over, satisfies the rendering.
-/

set_option autoImplicit false

namespace RecordInference.Response

/-- What satisfies the rendering of a schema passes the check, and the value that the check yields
is the same data; and every value that the check yields satisfies the rendering. -/
theorem validate_agrees {schema : Schema} (distinct : schema.Distinct) :
    (∀ v, v.Finite → Json.Satisfies schema.jsonSchema v →
      ∃ t, validate schema v = .ok t ∧ Json.Same t.toJson.sorted v) ∧
    (∀ v t, v.Finite → validate schema v = .ok t →
      Json.Satisfies schema.jsonSchema t.toJson.sorted) := by
  constructor
  · intro v finite satisfied
    obtain ⟨t, conforms, same⟩ := (Schema.satisfies_jsonSchema_iff distinct finite).1 satisfied
    have sorted := conforms.same_sorted distinct
    exact ⟨t, check_of_same distinct conforms same rootPath, sorted.symm.trans same⟩
  · intro v t finite accepted
    have conforms := conforms_of_check distinct finite accepted
    exact Schema.satisfies_of_same distinct conforms (conforms.same_sorted distinct)

/-- An order that satisfies the rendering, with a whole number and its members out of order, and one
whose number and truth value come as texts. -/
theorem validate_agrees_order :
    (Json.Satisfies (Schema.object "order" [("total", .money), ("paid", .yesNo)]).jsonSchema
        (.obj [("paid", .bool true), ("total", .int 12)]) ∧
      ∃ t, validate (.object "order" [("total", .money), ("paid", .yesNo)])
          (.obj [("paid", .bool true), ("total", .int 12)]) = .ok t ∧
        Json.Same t.toJson.sorted (.obj [("paid", .bool true), ("total", .int 12)])) ∧
    ∃ t, validate (.object "order" [("total", .money), ("paid", .yesNo)])
        (.obj [("note", .null), ("paid", .str "Yes"), ("total", .str " 12.50")]) = .ok t ∧
      Json.Satisfies (Schema.object "order" [("total", .money), ("paid", .yesNo)]).jsonSchema
        t.toJson.sorted := by
  have distinct : (Schema.object "order" [("total", .money), ("paid", .yesNo)]).Distinct := by
    simp [Schema.Distinct, Schema.FieldsDistinct, Keyed.keys]
  obtain ⟨accepts, describes⟩ := validate_agrees distinct
  constructor
  · have finite : (Json.obj [("paid", .bool true), ("total", .int 12)]).Finite :=
      .obj (List.forall_mem_cons.2 ⟨.bool true,
        List.forall_mem_cons.2 ⟨.int (by decide) (by decide), List.forall_mem_nil _⟩⟩)
    have conforms : Conforms (.object "order" [("total", .money), ("paid", .yesNo)])
        (.object [("total", .money (Float.ofInt 12)), ("paid", .yesNo true)]) :=
      .object _ (.cons _ (.money (Decimal.isFinite_ofInt (by decide) (by decide)))
        (.cons _ (.yesNo true) .nil))
    have same : Json.Same
        (Value.object [("total", .money (Float.ofInt 12)), ("paid", .yesNo true)]).toJson
        (.obj [("paid", .bool true), ("total", .int 12)]) := by
      apply Json.Same.of_members
      · exact List.forall_mem_cons.2 ⟨⟨.int 12, by simp [Keyed.get?], .number rfl rfl⟩,
          List.forall_mem_cons.2 ⟨⟨.bool true, by simp [Keyed.get?], .bool true⟩,
            List.forall_mem_nil _⟩⟩
      · simp [Keyed.keys, Value.fieldsToJson]
    have satisfied := (Schema.satisfies_jsonSchema_iff distinct finite).2 ⟨_, conforms, same⟩
    exact ⟨satisfied, accepts _ finite satisfied⟩
  · have finite : (Json.obj [("note", .null), ("paid", .str "Yes"),
        ("total", .str " 12.50")]).Finite :=
      .obj (List.forall_mem_cons.2 ⟨.null, List.forall_mem_cons.2 ⟨.str _,
        List.forall_mem_cons.2 ⟨.str _, List.forall_mem_nil _⟩⟩⟩)
    obtain ⟨t, accepted⟩ := Except.exists_of_isOk
      (show (validate (.object "order" [("total", .money), ("paid", .yesNo)])
        (.obj [("note", .null), ("paid", .str "Yes"), ("total", .str " 12.50")])).isOk = true
        by decide +kernel)
    exact ⟨t, accepted, describes _ t finite accepted⟩

end RecordInference.Response
