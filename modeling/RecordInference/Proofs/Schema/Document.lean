import RecordInference.Proofs.Json.Satisfaction
import RecordInference.Proofs.Schema.Serialization

/-!
# Schemas in the terms of JSON Schema

What satisfies the rendering of a schema is, as data, what the values of the schema are written as
(`satisfies_jsonSchema_iff`). A value of the schema is found by going down the schema and the JSON
value together; in the other direction the members of an object are found by their names, which
differ.
-/

set_option autoImplicit false

namespace RecordInference

namespace FieldsConform

/-- Where every field has a value there are values for the fields. -/
theorem exists_values {fields : List (String × Schema)} {P : String → Value → Prop}
    (each : ∀ name schema, (name, schema) ∈ fields → ∃ t, Conforms schema t ∧ P name t) :
    ∃ values, FieldsConform fields values ∧ ∀ e ∈ values, P e.1 e.2 := by
  induction fields with
  | nil => exact ⟨[], .nil, nofun⟩
  | cons field rest ih =>
      obtain ⟨name, schema⟩ := field
      obtain ⟨t, conforms, suits⟩ := each name schema List.mem_cons_self
      obtain ⟨values, conform, suit⟩ := ih fun name schema member =>
        each name schema (List.mem_cons_of_mem _ member)
      exact ⟨(name, t) :: values, .cons name conforms conform,
        List.forall_mem_cons.2 ⟨suits, suit⟩⟩

end FieldsConform

namespace Schema

theorem fieldSchemas_eq_map (fields : List (String × Schema)) :
    fieldSchemas fields = fields.map fun f => (f.1, f.2.jsonSchema) := by
  induction fields with
  | nil => rfl
  | cons f rest ih => rw [fieldSchemas, ih, List.map_cons]

/-- Where names differ, the properties of an object are its fields. -/
theorem get?_properties {fields : List (String × Schema)} (names : (Keyed.keys fields).Nodup)
    (name : String) : Keyed.get? name (Json.ascending (fieldSchemas fields)) =
      (Keyed.get? name fields).map jsonSchema := by
  rw [fieldSchemas_eq_map, Json.get?_ascending (by rwa [Keyed.keys_map]), Keyed.get?_map]

theorem mem_keys_properties {fields : List (String × Schema)} (names : (Keyed.keys fields).Nodup)
    (name : String) : name ∈ Keyed.keys (Json.ascending (fieldSchemas fields)) ↔
      name ∈ Keyed.keys fields := by
  rw [Keyed.mem_keys_iff, Keyed.mem_keys_iff, get?_properties names]
  simp

/-- What satisfies the rendering of a schema is a value of the schema, written as JSON. -/
theorem exists_conforms_of_satisfies {schema : Schema} (distinct : schema.Distinct) {v : Json}
    (finite : v.Finite) (h : Json.Satisfies schema.jsonSchema v) :
    ∃ t, Conforms schema t ∧ Json.Same t.toJson v := by
  induction schema using Schema.induction generalizing v with
  | text =>
      rw [jsonSchema, Json.satisfies_type_iff, Json.typeName?_eq_string_iff] at h
      obtain ⟨s, rfl⟩ := h
      exact ⟨.text s, .text s, .refl _⟩
  | money =>
      rw [jsonSchema, Json.satisfies_type_iff, Json.typeName?_eq_number_iff] at h
      obtain ⟨x, stands, -⟩ := h
      exact ⟨.money x, .money (finite.isFinite_of_double? stands), .number rfl stands⟩
  | number =>
      rw [jsonSchema, Json.satisfies_type_iff, Json.typeName?_eq_number_iff] at h
      obtain ⟨x, stands, -⟩ := h
      exact ⟨.number x, .number (finite.isFinite_of_double? stands), .number rfl stands⟩
  | yesNo =>
      rw [jsonSchema, Json.satisfies_type_iff, Json.typeName?_eq_boolean_iff] at h
      obtain ⟨b, rfl⟩ := h
      exact ⟨.yesNo b, .yesNo b, .refl _⟩
  | oneOf values =>
      rw [jsonSchema, Json.ofTexts, Json.satisfies_enum_iff, Json.typeName?_eq_string_iff] at h
      obtain ⟨⟨s, rfl⟩, w, listed, same⟩ := h
      obtain ⟨s', member, rfl⟩ := List.mem_map.1 listed
      cases same.eq_str
      exact ⟨.oneOf s, .oneOf member, .refl _⟩
  | list items ih =>
      rw [jsonSchema, Json.satisfies_items_iff] at h
      obtain ⟨elements, rfl, satisfied⟩ := h
      cases finite with
      | arr finites =>
          have each : ∀ w ∈ elements, ∃ t, Conforms items t ∧ Json.Same t.toJson w :=
            fun w member => ih distinct (finites w member) (satisfied w member)
          obtain ⟨ts, conform, sames⟩ := List.exists_forall₂ each
          refine ⟨.list ts, .list conform, ?_⟩
          rw [Value.toJson, Value.itemsToJson_eq_map]
          exact .arr (List.forall₂_map_left_iff.2 sames)
  | object name fields ih =>
      rw [jsonSchema, Json.satisfies_properties_iff] at h
      obtain ⟨members, rfl, properties, required, declaredOnly⟩ := h
      obtain ⟨names, inside⟩ := distinct
      rw [fieldsDistinct_iff] at inside
      cases finite with
      | obj finites =>
          have each : ∀ k schema, (k, schema) ∈ fields → ∃ t, Conforms schema t ∧
              ∃ w, Keyed.get? k members = some w ∧ Json.Same t.toJson w := by
            intro k schema declared
            obtain ⟨w, found⟩ := Keyed.mem_keys_iff.1 (required k (List.mem_map_of_mem declared))
            have property : Keyed.get? k (Json.ascending (fieldSchemas fields)) =
                some schema.jsonSchema := by
              rw [get?_properties names, Keyed.get?_of_mem names declared, Option.map_some]
            obtain ⟨t, conforms, same⟩ := ih _ declared (inside _ declared)
              (finites _ (Keyed.mem_of_get? found)) (properties k _ w property found)
            exact ⟨t, conforms, w, found, same⟩
          obtain ⟨values, conform, sames⟩ := FieldsConform.exists_values each
          refine ⟨.object values, .object name conform, ?_⟩
          rw [Value.toJson]
          apply Json.Same.of_members
          · rw [Value.fieldsToJson_eq_map]
            exact List.forall_mem_map.2 sames
          · intro k member
            rw [Value.keys_fieldsToJson, conform.keys_eq]
            exact (mem_keys_properties names k).1 (declaredOnly k member)

/-- A value of a schema, written as JSON in whatever way, satisfies the rendering of the schema. -/
theorem satisfies_of_same {schema : Schema} (distinct : schema.Distinct) {t : Value}
    (conforms : Conforms schema t) {v : Json} (same : Json.Same t.toJson v) :
    Json.Satisfies schema.jsonSchema v := by
  induction schema using Schema.induction generalizing t v with
  | text =>
      cases conforms
      obtain rfl := same.eq_str
      rw [jsonSchema, Json.satisfies_type_iff, Json.typeName?]
  | money | number =>
      rw [jsonSchema, Json.satisfies_type_iff, Json.typeName?_eq_number_iff]
      cases conforms with
      | _ finite =>
          refine ⟨_, same.double?_eq rfl, ?_⟩
          rintro rfl
          exact finite
  | yesNo =>
      cases conforms
      obtain rfl := same.eq_bool
      rw [jsonSchema, Json.satisfies_type_iff, Json.typeName?]
  | oneOf values =>
      cases conforms with
      | oneOf member =>
          obtain rfl := same.eq_str
          rw [jsonSchema, Json.ofTexts, Json.satisfies_enum_iff]
          exact ⟨rfl, _, List.mem_map_of_mem member, .refl _⟩
  | list items ih =>
      cases conforms with
      | list each =>
          obtain ⟨elements, rfl, sames⟩ := same.exists_arr
          rw [jsonSchema, Json.satisfies_items_iff]
          rw [Value.itemsToJson_eq_map, List.forall₂_map_left_iff] at sames
          refine ⟨elements, rfl, fun w member => ?_⟩
          obtain ⟨t, stands, same⟩ := sames.exists_left w member
          exact ih distinct (each t stands) same
  | object name fields ih =>
      cases conforms with
      | @object _ _ values conform =>
          obtain ⟨members, rfl, sames⟩ := same.exists_obj
          obtain ⟨names, inside⟩ := distinct
          rw [fieldsDistinct_iff] at inside
          have keys (k : String) : k ∈ Keyed.keys members ↔ k ∈ Keyed.keys fields := by
            rw [← same.mem_keys_iff, Value.keys_fieldsToJson, conform.keys_eq]
          rw [jsonSchema, Json.satisfies_properties_iff]
          refine ⟨members, rfl, ?_, fun k declared => (keys k).2 declared, ?_⟩
          · intro k property w stands found
            rw [get?_properties names] at stands
            obtain ⟨schema, declared, rfl⟩ := Option.map_eq_some_iff.1 stands
            have here := conform.get?_rel k
            rw [declared] at here
            obtain ⟨t, value, conforms⟩ := here.exists_of_some
            have same := sames k
            rw [Value.fieldsToJson_eq_map, Keyed.get?_map, value, found] at same
            obtain ⟨w', eq, same⟩ := same.exists_of_some
            cases eq
            have member := Keyed.mem_of_get? declared
            exact ih _ member (inside _ member) conforms same
          · intro k member
            exact (mem_keys_properties names k).2 ((keys k).1 member)

/-- The rendering of a schema describes its values, written as JSON. -/
theorem satisfies_jsonSchema_iff {schema : Schema} (distinct : schema.Distinct) {v : Json}
    (finite : v.Finite) :
    Json.Satisfies schema.jsonSchema v ↔ ∃ t, Conforms schema t ∧ Json.Same t.toJson v := by
  constructor
  · exact exists_conforms_of_satisfies distinct finite
  · rintro ⟨t, conforms, same⟩
    exact satisfies_of_same distinct conforms same

end Schema

end RecordInference
