import RecordInference.Proofs.Json.Sameness
import RecordInference.Proofs.Schema.Conformance

/-!
# Values as JSON

A value of a schema is written as JSON without its shape. The order of the members of objects is
that of the schema; the ascending form is the same data (`Conforms.same_sorted`).
-/

set_option autoImplicit false

namespace RecordInference

namespace Value

theorem itemsToJson_eq_map (items : List Value) : itemsToJson items = items.map toJson := by
  induction items with
  | nil => rfl
  | cons v rest ih => rw [itemsToJson, ih, List.map_cons]

theorem fieldsToJson_eq_map (fields : List (String × Value)) :
    fieldsToJson fields = fields.map fun e => (e.1, e.2.toJson) := by
  induction fields with
  | nil => rfl
  | cons e rest ih => rw [fieldsToJson, ih, List.map_cons]

theorem keys_fieldsToJson (fields : List (String × Value)) :
    Keyed.keys (fieldsToJson fields) = Keyed.keys fields := by
  rw [fieldsToJson_eq_map, Keyed.keys_map]

end Value

namespace Schema

theorem fieldsDistinct_iff {fields : List (String × Schema)} :
    FieldsDistinct fields ↔ ∀ f ∈ fields, f.2.Distinct := by
  induction fields with
  | nil => simp [FieldsDistinct]
  | cons f rest ih => rw [FieldsDistinct, ih, List.forall_mem_cons]

end Schema

namespace FieldsConform

variable {fields : List (String × Schema)} {values : List (String × Value)}

/-- Every value stands under the name of a field, and is of the shape of that field. -/
theorem exists_field (h : FieldsConform fields values) :
    ∀ e ∈ values, ∃ schema, (e.1, schema) ∈ fields ∧ Conforms schema e.2 := by
  induction fields generalizing values with
  | nil =>
      cases h
      exact nofun
  | cons field fields ih =>
      cases h with
      | cons name first rest =>
          intro e member
          rcases List.mem_cons.1 member with rfl | later
          · exact ⟨_, List.mem_cons_self, first⟩
          · obtain ⟨schema, declared, conforms⟩ := ih rest e later
            exact ⟨schema, List.mem_cons_of_mem _ declared, conforms⟩

end FieldsConform

/-- The ascending form of a value of a schema is the same data. -/
theorem Conforms.same_sorted {schema : Schema} (distinct : schema.Distinct) {t : Value}
    (h : Conforms schema t) : Json.Same t.toJson t.toJson.sorted := by
  induction schema using Schema.induction generalizing t with
  | text | money | number | yesNo | oneOf =>
      cases h
      exact .refl _
  | list items ih =>
      cases h with
      | list each =>
          rw [Value.toJson, Json.sorted, Json.sortedItems_eq_map, Value.itemsToJson_eq_map]
          refine .arr ?_
          rw [List.forall₂_map_left_iff, List.forall₂_map_right_iff, List.forall₂_map_right_iff]
          exact List.forall₂_same.2 fun v member => ih distinct (each v member)
  | object name fields ih =>
      cases h with
      | @object _ _ values each =>
          obtain ⟨names, inside⟩ := distinct
          have keys : (Keyed.keys (Value.fieldsToJson values)).Nodup := by
            rw [Value.keys_fieldsToJson, each.keys_eq]
            exact names
          rw [Value.toJson, Json.sorted, Json.sortedMembers_eq_map]
          refine .obj fun k => ?_
          rw [Json.get?_ascending (by rwa [Keyed.keys_map]), Keyed.get?_map,
            Value.fieldsToJson_eq_map, Keyed.get?_map]
          cases found : Keyed.get? k values with
          | none => exact .none
          | some v =>
              obtain ⟨schema, declared, conforms⟩ :=
                each.exists_field _ (Keyed.mem_of_get? found)
              exact .some
                (ih _ declared (Schema.fieldsDistinct_iff.1 inside _ declared) conforms)

end RecordInference
