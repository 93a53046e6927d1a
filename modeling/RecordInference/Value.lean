import RecordInference.Json.Printer

/-!
# Typed values

A typed value has the constructor of the schema that it conforms to. A record holds the
typed values that the steps of a pipeline have produced, under their field names.
-/

set_option autoImplicit false

namespace RecordInference

/-- A value of a known shape. -/
inductive Value where
  | text (s : String)
  | money (x : Float)
  | number (x : Float)
  | yesNo (b : Bool)
  | oneOf (s : String)
  | list (items : List Value)
  | object (fields : List (String × Value))

/-- Values under field names, in the order in which they were produced. -/
abbrev Record := Keyed Value

namespace Value

/-- The word for the shape of a value. -/
def kind : Value → String
  | text _ => "text"
  | money _ => "money"
  | number _ => "number"
  | yesNo _ => "yes/no"
  | oneOf _ => "enum"
  | list _ => "list"
  | object _ => "object"

/-- The number that a money or number value holds. -/
def number? : Value → Option Float
  | money x => some x
  | number x => some x
  | _ => none

mutual

/-- The value without its shape, as JSON. -/
def toJson : Value → Json
  | text s => .str s
  | money x => .float x
  | number x => .float x
  | yesNo b => .bool b
  | oneOf s => .str s
  | list items => .arr (itemsToJson items)
  | object fields => .obj (fieldsToJson fields)

/-- The elements of a list as JSON. -/
def itemsToJson : List Value → List Json
  | [] => []
  | v :: rest => v.toJson :: itemsToJson rest

/-- The fields of an object as members. -/
def fieldsToJson : List (String × Value) → List (String × Json)
  | [] => []
  | (name, v) :: rest => (name, v.toJson) :: fieldsToJson rest

end

/-- Numbers in running text have no exponent and no needless fraction. -/
def numberLayout : Decimal.Layout where
  positional _ := true
  pointZero := false
  tie := .up

/-- The value as it stands in running text: texts bare, lists and objects as JSON. -/
def render : Value → String
  | text s => s
  | oneOf s => s
  | money x => String.ofList (numberLayout.write x)
  | number x => String.ofList (numberLayout.write x)
  | yesNo b => if b then "yes" else "no"
  | list items => (list items).toJson.compact
  | object fields => (object fields).toJson.compact

end Value

/-- A record as a JSON object. -/
def Record.toJson (record : Record) : Json := .obj (Value.fieldsToJson record)

end RecordInference
