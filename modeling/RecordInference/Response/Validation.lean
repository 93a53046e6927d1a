import RecordInference.Json.Printer
import RecordInference.Json.Reader
import RecordInference.Plan.Basic
import RecordInference.Response.Fence

/-!
# Checking responses

A response is decoded and checked against the schema of its step. The check yields a typed
value, or every violation with its path. Two things are read generously: a number may stand
in a text, and so may yes, no, true and false. Fields that a schema does not declare are
ignored.
-/

set_option autoImplicit false

namespace RecordInference

/-- A place where a response does not have its shape. -/
structure Violation where
  path : String
  expected : String
  actual : String
deriving DecidableEq, Repr

/-- The text of a violation. -/
def Violation.message (v : Violation) : String :=
  s!"{v.path}: expected {v.expected}, got {v.actual}"

/-- The outcome of a check: a typed value or violations. -/
abbrev Verdict := Except (List Violation) Value

namespace Response

/-- The longest excerpt of a text in a violation. -/
def excerptLength : Nat := 40

/-- The words for a JSON value in a violation. -/
def describe : Json → String
  | .null => "null"
  | .bool b => if b then "true" else "false"
  | .int i => String.ofList (Json.intChars i)
  | .float x => String.ofList (Json.floatChars x)
  | .str s =>
    if s.length > excerptLength then
      "\"" ++ String.ofList (s.toList.take excerptLength) ++ "...\""
    else "\"" ++ s ++ "\""
  | .arr items => s!"array of {items.length}"
  | .obj _ => "object"

/-- The path of the response itself. -/
def rootPath : String := "$"

/-- The path of a field. -/
def fieldPath (parent name : String) : String :=
  if parent = rootPath then name else parent ++ "." ++ name

/-- The path of an element. -/
def itemPath (parent : String) (index : Nat) : String := s!"{parent}[{index}]"

/-- The number that a JSON value gives: a number, or a text that denotes a finite one. -/
def number? : Json → Option Float
  | .int i => some (Float.ofInt i)
  | .float x => some x
  | .str s => (Decimal.readFloat? (Text.trim s.toList)).filter Float.isFinite
  | _ => none

/-- The truth value that a JSON value gives: itself, or a text that denotes one. -/
def yesNo? : Json → Option Bool
  | .bool b => some b
  | .str s => Rule.readYesNo? (Text.trim s.toList)
  | _ => none

/-- Joins two outcomes, with the violations of both. -/
def collect {α : Type} (first : Except (List Violation) α) (rest : Except (List Violation) (List α)) :
    Except (List Violation) (List α) :=
  match first, rest with
  | .ok a, .ok as => .ok (a :: as)
  | .ok _, .error es => .error es
  | .error e, .ok _ => .error e
  | .error e, .error es => .error (e ++ es)

/-- Checks the elements of a list from index `i` on. -/
def checkItems (check : Json → String → Verdict) (path : String) (i : Nat) :
    List Json → Except (List Violation) (List Value)
  | [] => .ok []
  | v :: rest => collect (check v (itemPath path i)) (checkItems check path (i + 1) rest)

mutual

/-- Checks a JSON value that stands at a path. -/
def check : Schema → Json → String → Verdict
  | .text, v, path =>
    match v with
    | .str s => .ok (.text s)
    | _ => .error [⟨path, Schema.text.describe, describe v⟩]
  | .money, v, path =>
    match number? v with
    | some x => .ok (.money x)
    | none => .error [⟨path, Schema.money.describe, describe v⟩]
  | .number, v, path =>
    match number? v with
    | some x => .ok (.number x)
    | none => .error [⟨path, Schema.number.describe, describe v⟩]
  | .yesNo, v, path =>
    match yesNo? v with
    | some b => .ok (.yesNo b)
    | none => .error [⟨path, Schema.yesNo.describe, describe v⟩]
  | .oneOf values, v, path =>
    match v with
    | .str s =>
      if s ∈ values then .ok (.oneOf s)
      else .error [⟨path, (Schema.oneOf values).describe, describe v⟩]
    | _ => .error [⟨path, (Schema.oneOf values).describe, describe v⟩]
  | .list items, v, path =>
    match v with
    | .arr elements => (checkItems (check items) path 0 elements).map .list
    | _ => .error [⟨path, (Schema.list items).describe, describe v⟩]
  | .object name fields, v, path =>
    match v with
    -- members that are not declared are passed over
    | .obj members => (checkFields fields members path).map fun fs => .object (Keyed.ofList fs)
    | _ => .error [⟨path, (Schema.object name fields).describe, describe v⟩]

/-- Checks the declared fields of an object that stands at a path. -/
def checkFields : List (String × Schema) → List (String × Json) → String →
    Except (List Violation) (List (String × Value))
  | [], _, _ => .ok []
  | (name, schema) :: rest, members, path =>
    let checked : Verdict :=
      match Keyed.get? name members with
      | some v => check schema v (fieldPath path name)
      | none => .error [⟨fieldPath path name, schema.describe, "missing"⟩]
    collect (checked.map fun v => (name, v)) (checkFields rest members path)

end

/-- Checks a decoded response. -/
def validate (schema : Schema) (v : Json) : Verdict := check schema v rootPath

/-- The greatest number of brackets and braces that may be open at once in a response. -/
def depthLimit : Nat := 127

/-- Decodes a response. The members of objects come in ascending order of their names. -/
def decode (raw : String) : Except Violation Json :=
  let text := unfenced raw.toList
  match Json.read depthLimit text with
  | .ok v => .ok v.sorted
  | .error fault =>
    .error ⟨rootPath, "a JSON value", s!"undecodable response ({fault.message text})"⟩

/-- The value of a response for one field: the member of that name of an object, else the
response itself. A drafted text need not be JSON at all. -/
def fieldValue (verb : Verb) (schema : Schema) (field raw : String) :
    Except (List Violation) Json :=
  match decode raw, verb with
  | .ok (.obj members), _ =>
    match Keyed.get? field members with
    | some v => .ok v
    | none => .error [⟨field, schema.describe, "missing"⟩]
  | .ok (.str s), .draft => .ok (.str s)
  | _, .draft => .ok (.str (Text.trimmed raw))
  | .ok v, _ => .ok v
  | .error violation, _ => .error [violation]

/-- Checks the raw response to a step. -/
def checkStep (verb : Verb) (schema : Schema) (output : StepOutput) (raw : String) : Verdict :=
  match output with
  | .fields =>
    match decode raw with
    | .ok v => validate schema v
    | .error violation => .error [violation]
  | .field name =>
    match fieldValue verb schema name raw with
    | .ok v => check schema v name
    | .error violations => .error violations

end Response

end RecordInference
