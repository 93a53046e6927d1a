import RecordInference.Builder.Fault
import RecordInference.Declaration.Program
import RecordInference.Json.Outline
import RecordInference.Text.Word

/-!
# Shapes built by calls

A shape is a definition together with all definitions that it refers to, those first that
others refer to. It is built field by field, or read from a JSON document: an object with a
name and with fields, each of which has the word for its type or a list of values. Other
members of it say nothing.
-/

set_option autoImplicit false

namespace RecordInference

/-- A definition, and what it refers to. A definition stands behind those it refers to. -/
structure Shape where
  definition : Definition
  dependencies : List Definition
deriving DecidableEq, Repr

namespace Shape

/-- The definitions of a shape, its own last. -/
def definitions (s : Shape) : List Definition := s.dependencies ++ [s.definition]

/-- Adds a definition to others, unless it is there. The same name with other fields is a
conflict. -/
def addDefinition (ds : List Definition) (d : Definition) : Except BuildError (List Definition) :=
  match ds.find? fun e => e.name = d.name with
  | some e => if e.fields = d.fields then .ok ds else .error (.conflictingDefinition d.name)
  | none => .ok (ds ++ [d])

/-- The values that follow those in `seen`, without the blanks around them. None is empty and
none is there already. -/
def moreValues (seen : List String) : List String → Except ValuesFault (List String)
  | [] => if seen.isEmpty then .error .noValues else .ok seen
  | value :: rest =>
    let value := Text.trimmed value
    if value.isEmpty then .error .emptyValue
    else if value ∈ seen then .error (.duplicate value)
    else moreValues (seen ++ [value]) rest

/-- The values of a field: at least one, none empty and all different. -/
def checkedValues (field : String) (values : List String) : Except BuildError (List String) :=
  (moreValues [] values).mapError (.invalidValues field)

/-- A call that adds a field to a shape. -/
inductive Call where
  | text (name : String)
  | money (name : String)
  | number (name : String)
  | yesNo (name : String)
  | oneOf (name : String) (values : List String)
  | object (name : String) (shape : Shape)
  | listOf (name : String) (shape : Shape)

/-- A shape under construction, and the first misuse. -/
structure Draft where
  name : String
  fields : List Field := []
  dependencies : List Definition := []
  error : Option BuildError := none

namespace Draft

/-- The draft with a misuse. -/
def fail (d : Draft) (e : BuildError) : Draft := { d with error := BuildError.first d.error e }

/-- An empty draft. Its name is an identifier. -/
def new (name : String) : Draft :=
  let d : Draft := { name }
  if Text.isIdentifier name.toList then d else d.fail (.invalidName name)

/-- The draft with one more field. Names of fields are identifiers and all different. -/
def field (d : Draft) (name : String) (type : FieldType) : Draft :=
  let checked :=
    if !Text.isIdentifier name.toList then d.fail (.invalidName name)
    else if d.fields.any fun f => f.name = name then d.fail (.duplicateField d.name name)
    else d
  { checked with fields := d.fields ++ [⟨name, type, 0⟩] }

/-- The draft with one more definition that it refers to. -/
def addDependency (d : Draft) (definition : Definition) : Draft :=
  match addDefinition d.dependencies definition with
  | .ok dependencies => { d with dependencies }
  | .error e => d.fail e

/-- The draft with a shape that it refers to. -/
def dependOn (d : Draft) (shape : Shape) : Draft := shape.definitions.foldl addDependency d

/-- The draft after a call. Values that are no good leave the field out. -/
def call (d : Draft) : Call → Draft
  | .text name => d.field name .text
  | .money name => d.field name .money
  | .number name => d.field name .number
  | .yesNo name => d.field name .yesNo
  | .oneOf name values =>
    match checkedValues name values with
    | .ok values => d.field name (.oneOf values)
    | .error e => d.fail e
  | .object name shape => (d.dependOn shape).field name (.object shape.definition.name)
  | .listOf name shape => (d.dependOn shape).field name (.listOf shape.definition.name)

/-- The finished shape, or the first misuse. -/
def build (d : Draft) : Except BuildError Shape :=
  match d.error with
  | some e => .error e
  | none => .ok ⟨⟨d.name, d.fields, 0⟩, d.dependencies⟩

end Draft

/-- The shape that calls build. -/
def build (name : String) (calls : List Call) : Except BuildError Shape :=
  (calls.foldl Draft.call (Draft.new name)).build

/-! ### Documents -/

/-- The texts of a list of texts. -/
def texts? : List Json → Option (List String)
  | [] => some []
  | .str s :: rest => (texts? rest).map (s :: ·)
  | _ => none

/-- What a document says of a field: the word for its type, or its values. -/
inductive FieldEntry where
  | word (type : String)
  | values (values : List String)
deriving DecidableEq, Repr

/-- The entry that a JSON value stands for. -/
def FieldEntry.ofJson? : Json → Option FieldEntry
  | .str type => some (.word type)
  | .arr items => (texts? items).map .values
  | _ => none

/-- The entries of the members of an object. -/
def entries? : List (String × Json) → Option (List (String × FieldEntry))
  | [] => some []
  | (name, v) :: rest => do
    let entry ← FieldEntry.ofJson? v
    return (name, entry) :: (← entries? rest)

/-- The only value of the members named `name`. -/
def only? (name : String) (members : List (String × Json)) : Option Json :=
  match members.filter fun m => m.1 = name with
  | [m] => some m.2
  | _ => none

/-- A name and the fields of a document. Of a repeated field the last entry counts, in the first
place. Instead of an object there may be a list of the two. -/
def document? : Json → Option (String × Keyed FieldEntry)
  | .obj members =>
    match only? "name" members, only? "fields" members with
    | some (.str name), some (.obj fields) => (entries? fields).map fun es => (name, Keyed.ofList es)
    | _, _ => none
  | .arr [.str name, .obj fields] => (entries? fields).map fun es => (name, Keyed.ofList es)
  | _ => none

/-- The call that an entry stands for. -/
def callOf (name : String) : FieldEntry → Except BuildError Call
  | .values values => .ok (.oneOf name values)
  | .word type =>
    if Text.isWord "TEXT" type.toList then .ok (.text name)
    else if Text.isWord "MONEY" type.toList then .ok (.money name)
    else if Text.isWord "NUMBER" type.toList then .ok (.number name)
    else if Text.isWord "BOOL" type.toList then .ok (.yesNo name)
    else .error (.unknownType name type)

/-- The calls that entries stand for. -/
def callsOf : List (String × FieldEntry) → Except BuildError (List Call)
  | [] => .ok []
  | (name, entry) :: rest => do
    let call ← callOf name entry
    return call :: (← callsOf rest)

/-- The shape that a JSON document describes. -/
def ofDocument (text : String) : Except BuildError Shape :=
  let wanted := fun name => name = "name" || name = "fields"
  match Json.readMembers wanted text.length text.toList with
  | .error _ => .error .malformedDocument
  | .ok v =>
    match document? v with
    | none => .error .malformedDocument
    | some (name, entries) => do build name (← callsOf entries)

end Shape

end RecordInference
