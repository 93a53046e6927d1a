import RecordInference.Proofs.Json.Sameness

/-!
# JSON Schema

`Satisfies document v` says that the JSON value `v` satisfies the JSON Schema `document`, itself a
JSON value. A schema is `true`, which every value satisfies, or `false`, which none does, or an
object whose keywords each put a condition on the value. The keywords are those that shapes are
rendered with: `type`, `enum`, `items`, `properties`, `required` and `additionalProperties`. A
keyword for lists says nothing about other values, and neither does one for objects.
-/

set_option autoImplicit false

namespace RecordInference.Json

/-- The name that JSON Schema gives to the type of a value. A double that is not finite is no JSON
number. -/
def typeName? : Json → Option String
  | .null => some "null"
  | .bool _ => some "boolean"
  | .int _ => some "number"
  | .float x => if x.isFinite then some "number" else none
  | .str _ => some "string"
  | .arr _ => some "array"
  | .obj _ => some "object"

/-- The values that satisfy a schema. -/
inductive Satisfies : (document v : Json) → Prop
  | always (v : Json) : Satisfies (.bool true) v
  | keywords {document : List (String × Json)} {v : Json}
      (type : ∀ name, Keyed.get? "type" document = some (.str name) → v.typeName? = some name)
      (enum : ∀ values, Keyed.get? "enum" document = some (.arr values) →
        ∃ w ∈ values, Same w v)
      (items : ∀ each elements, Keyed.get? "items" document = some each → v = .arr elements →
        ∀ w ∈ elements, Satisfies each w)
      (properties : ∀ declared members name property w,
        Keyed.get? "properties" document = some (.obj declared) → v = .obj members →
        Keyed.get? name declared = some property → Keyed.get? name members = some w →
        Satisfies property w)
      (required : ∀ names members name,
        Keyed.get? "required" document = some (.arr names) → v = .obj members →
        .str name ∈ names → name ∈ Keyed.keys members)
      (additional : ∀ other members name w,
        Keyed.get? "additionalProperties" document = some other → v = .obj members →
        Keyed.get? name members = some w →
        (∀ declared, Keyed.get? "properties" document = some (.obj declared) →
          name ∉ Keyed.keys declared) →
        Satisfies other w) :
      Satisfies (.obj document) v

/-! ### Types -/

section

variable {v : Json}

theorem typeName?_eq_boolean_iff : v.typeName? = some "boolean" ↔ ∃ b, v = .bool b := by
  cases v <;> simp [typeName?]

theorem typeName?_eq_string_iff : v.typeName? = some "string" ↔ ∃ s, v = .str s := by
  cases v <;> simp [typeName?]

theorem typeName?_eq_array_iff : v.typeName? = some "array" ↔ ∃ items, v = .arr items := by
  cases v <;> simp [typeName?]

theorem typeName?_eq_object_iff : v.typeName? = some "object" ↔ ∃ members, v = .obj members := by
  cases v <;> simp [typeName?]

/-- The numbers stand for doubles, of which those that are kept as such are finite. -/
theorem typeName?_eq_number_iff : v.typeName? = some "number" ↔
    ∃ x, v.double? = some x ∧ (v = .float x → x.isFinite = true) := by
  cases v <;> simp [typeName?, double?]

end

/-! ### Documents of the forms that shapes are rendered in -/

section

variable {v each : Json} {name : String} {values : List Json} {declared : List (String × Json)}
  {names : List String}

theorem satisfies_type_iff :
    Satisfies (.obj [("type", .str name)]) v ↔ v.typeName? = some name := by
  constructor
  · intro h
    cases h with
    | keywords type => exact type name (by simp [Keyed.get?])
  · intro h
    refine .keywords ?_ ?_ ?_ ?_ ?_ ?_
    · intro name' found
      simp only [Keyed.get?, if_true, Option.some.injEq, Json.str.injEq] at found
      rw [h, found]
    all_goals simp [Keyed.get?]

theorem satisfies_enum_iff :
    Satisfies (.obj [("enum", .arr values), ("type", .str "string")]) v ↔
      v.typeName? = some "string" ∧ ∃ w ∈ values, Same w v := by
  constructor
  · intro h
    cases h with
    | keywords type enum =>
        exact ⟨type _ (by simp [Keyed.get?]), enum _ (by simp [Keyed.get?])⟩
  · rintro ⟨type, enum⟩
    refine .keywords ?_ ?_ ?_ ?_ ?_ ?_
    · simpa [Keyed.get?] using type
    · simpa [Keyed.get?] using enum
    all_goals simp [Keyed.get?]

theorem satisfies_items_iff :
    Satisfies (.obj [("items", each), ("type", .str "array")]) v ↔
      ∃ elements, v = .arr elements ∧ ∀ w ∈ elements, Satisfies each w := by
  constructor
  · intro h
    cases h with
    | keywords type _ items =>
        obtain ⟨elements, rfl⟩ := typeName?_eq_array_iff.1 (type _ (by simp [Keyed.get?]))
        exact ⟨elements, rfl, items each elements (by simp [Keyed.get?]) rfl⟩
  · rintro ⟨elements, rfl, items⟩
    refine .keywords ?_ ?_ ?_ ?_ ?_ ?_
    · simp [Keyed.get?, typeName?]
    · simp [Keyed.get?]
    · simpa [Keyed.get?] using items
    all_goals simp [Keyed.get?]

theorem satisfies_properties_iff :
    Satisfies (.obj [("additionalProperties", .bool false), ("properties", .obj declared),
        ("required", ofTexts names), ("type", .str "object")]) v ↔
      ∃ members, v = .obj members ∧
        (∀ name property w, Keyed.get? name declared = some property →
          Keyed.get? name members = some w → Satisfies property w) ∧
        (∀ name ∈ names, name ∈ Keyed.keys members) ∧
        ∀ name ∈ Keyed.keys members, name ∈ Keyed.keys declared := by
  constructor
  · intro h
    cases h with
    | keywords type _ _ properties required additional =>
        obtain ⟨members, rfl⟩ := typeName?_eq_object_iff.1 (type _ (by simp [Keyed.get?]))
        refine ⟨members, rfl, ?_, ?_, ?_⟩
        · intro name property w stands found
          exact properties declared members name property w (by simp [Keyed.get?]) rfl stands found
        · intro name member
          apply required (names.map .str) members name
          · simp [Keyed.get?, ofTexts]
          · rfl
          · exact List.mem_map_of_mem member
        · intro name member
          obtain ⟨w, found⟩ := Keyed.mem_keys_iff.1 member
          by_contra undeclared
          -- no value satisfies the schema of the members that are not declared
          have none : Satisfies (.bool false) w := by
            apply additional (.bool false) members name w
            · simp [Keyed.get?]
            · rfl
            · exact found
            · simpa [Keyed.get?] using undeclared
          cases none
  · rintro ⟨members, rfl, properties, required, declaredOnly⟩
    refine .keywords ?_ ?_ ?_ ?_ ?_ ?_
    · simp [Keyed.get?, typeName?]
    · simp [Keyed.get?]
    · simp [Keyed.get?]
    · intro declared' members' name property w keyword same stands found
      obtain rfl : declared = declared' := by simpa [Keyed.get?] using keyword
      cases same
      exact properties name property w stands found
    · intro names' members' name keyword same member
      obtain rfl : names.map .str = names' := by simpa [Keyed.get?, ofTexts] using keyword
      cases same
      exact required name (by simpa using member)
    · intro other members' name w stands same found undeclared
      cases same
      have member : name ∈ Keyed.keys members := Keyed.mem_keys_iff.2 ⟨w, found⟩
      exact absurd (declaredOnly name member) (undeclared declared (by simp [Keyed.get?]))

end

end RecordInference.Json
