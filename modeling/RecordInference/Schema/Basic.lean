import RecordInference.Declaration.Program
import RecordInference.Json.Basic

/-!
# Schemas

A schema is the shape that a response must have, with every reference to a definition
replaced by the object that it names. `Schema.jsonSchema` states the shape in the terms of
JSON Schema, and `Schema.toJson` is the schema itself as a JSON value.
-/

set_option autoImplicit false

namespace RecordInference

/-- The shape of a value. -/
inductive Schema where
  | text
  | money
  | number
  | yesNo
  | oneOf (values : List String)
  | list (items : Schema)
  | object (name : String) (fields : List (String × Schema))

namespace Schema

/-- Induction over a schema, through its elements and its fields. -/
@[elab_as_elim]
theorem induction {motive : Schema → Prop} (text : motive .text) (money : motive .money)
    (number : motive .number) (yesNo : motive .yesNo) (oneOf : ∀ values, motive (.oneOf values))
    (list : ∀ items, motive items → motive (.list items))
    (object : ∀ name fields, (∀ f ∈ fields, motive f.2) → motive (.object name fields)) :
    ∀ schema, motive schema
  | .text => text
  | .money => money
  | .number => number
  | .yesNo => yesNo
  | .oneOf values => oneOf values
  | .list items => list items (induction text money number yesNo oneOf list object items)
  | .object name fields =>
    object name fields fun f member => by
      have smaller := List.sizeOf_lt_of_mem member
      exact induction text money number yesNo oneOf list object f.2
termination_by schema => sizeOf schema
decreasing_by
  · simp only [Schema.list.sizeOf_spec]
    omega
  · obtain ⟨fieldName, schema⟩ := f
    simp only [Prod.mk.sizeOf_spec, Schema.object.sizeOf_spec] at smaller ⊢
    omega

/-- The words for a shape. -/
def describe : Schema → String
  | text => "text"
  | money => "money"
  | number => "number"
  | yesNo => "yes/no"
  | oneOf values => "one of " ++ bracketed values
  | list items => "list of " ++ items.describe
  | object name _ => "object " ++ name

/-- Whether values of the shape are numbers. -/
def isNumeric : Schema → Bool
  | money => true
  | number => true
  | _ => false

/-- The shape of the field `name` of an object. -/
def field? (name : String) : Schema → Option Schema
  | object _ fields => Keyed.get? name fields
  | _ => none

mutual

/-- The shape in the terms of JSON Schema, members in ascending order. An object requires
all of its fields and admits no others. -/
def jsonSchema : Schema → Json
  | text => .obj [("type", .str "string")]
  | money => .obj [("type", .str "number")]
  | number => .obj [("type", .str "number")]
  | yesNo => .obj [("type", .str "boolean")]
  | oneOf values => .obj [("enum", Json.ofTexts values), ("type", .str "string")]
  | list items => .obj [("items", items.jsonSchema), ("type", .str "array")]
  | object _ fields =>
    .obj [("additionalProperties", .bool false),
      ("properties", .obj (Json.ascending (fieldSchemas fields))),
      ("required", Json.ofTexts (fields.map (·.1))), ("type", .str "object")]

/-- The fields with their shapes in the terms of JSON Schema. -/
def fieldSchemas : List (String × Schema) → List (String × Json)
  | [] => []
  | (name, schema) :: rest => (name, schema.jsonSchema) :: fieldSchemas rest

end

mutual

/-- The schema as a JSON value: fields in their order, and the name of the definition. -/
def toJson : Schema → Json
  | text => .obj [("type", .str "text")]
  | money => .obj [("type", .str "money")]
  | number => .obj [("type", .str "number")]
  | yesNo => .obj [("type", .str "bool")]
  | oneOf values => .obj [("type", .str "enum"), ("values", Json.ofTexts values)]
  | list items => .obj [("type", .str "list"), ("items", items.toJson)]
  | object name fields =>
    .obj [("type", .str "object"), ("name", .str name), ("fields", .arr (fieldsToJson fields))]

/-- The fields, each a pair of its name and its schema. -/
def fieldsToJson : List (String × Schema) → List Json
  | [] => []
  | (name, schema) :: rest => .arr [.str name, schema.toJson] :: fieldsToJson rest

end

end Schema

end RecordInference
