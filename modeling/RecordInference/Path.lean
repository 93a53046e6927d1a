import RecordInference.Schema.Basic
import RecordInference.Text.Line
import RecordInference.Value

/-!
# Dotted paths

A path names a field, and after each dot a field of the object found so far. A path is
followed through the shape of a record and through a record in the same way; lists have no
fields.
-/

set_option autoImplicit false

namespace RecordInference

/-- The names between the dots of a path: at least one, perhaps empty. -/
def pathParts (path : String) : List String :=
  (Text.splitOn '.' path.toList).map String.ofList

namespace Schema

/-- The shape found through the fields of objects. -/
def follow? : Schema → List String → Option Schema
  | schema, [] => some schema
  | schema, name :: rest => (schema.field? name).bind fun s => s.follow? rest

/-- The shape at a path. -/
def lookup? (shape : Keyed Schema) (path : String) : Option Schema :=
  match pathParts path with
  | [] => none
  | name :: rest => (Keyed.get? name shape).bind fun s => s.follow? rest

end Schema

namespace Value

/-- The field `name` of an object. -/
def field? (name : String) : Value → Option Value
  | object fields => Keyed.get? name fields
  | _ => none

/-- The value found through the fields of objects. -/
def follow? : Value → List String → Option Value
  | v, [] => some v
  | v, name :: rest => (v.field? name).bind fun w => w.follow? rest

end Value

/-- The value at a path. -/
def Record.lookup? (record : Record) (path : String) : Option Value :=
  match pathParts path with
  | [] => none
  | name :: rest => (Keyed.get? name record).bind fun v => v.follow? rest

end RecordInference
