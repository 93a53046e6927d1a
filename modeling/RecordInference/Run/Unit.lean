import RecordInference.Json.Reader

/-!
# Input units

A source yields units of input: a text, or texts under names.
-/

set_option autoImplicit false

namespace RecordInference

/-- A unit of input. -/
inductive InputUnit where
  | text (s : String)
  | fields (entries : Keyed String)
deriving DecidableEq, Repr

namespace InputUnit

/-- The text that a model gets: named texts one a line, each after its name. -/
def render : InputUnit → String
  | text s => s
  | fields entries => "\n".intercalate (entries.map fun (name, value) => name ++ ": " ++ value)

/-- A unit as a JSON value. -/
def toJson : InputUnit → Json
  | text s => .str s
  | fields entries => .obj (entries.map fun (name, value) => (name, .str value))

/-- Named texts from the members of an object, all of which must be texts. -/
def fieldsOfMembers? : List (String × Json) → Option (List (String × String))
  | [] => some []
  | (name, .str value) :: rest => (fieldsOfMembers? rest).map ((name, value) :: ·)
  | _ => none

/-- The unit that a JSON value denotes. -/
def ofJson? : Json → Option InputUnit
  | .str s => some (text s)
  | .obj members => (fieldsOfMembers? members).map fun entries => fields (Keyed.ofList entries)
  | _ => none

/-- The unit that a JSON text denotes. -/
def read? (json : String) : Option InputUnit :=
  match Json.read 127 json.toList with
  | .ok v => ofJson? v
  | .error _ => none

end InputUnit

end RecordInference
