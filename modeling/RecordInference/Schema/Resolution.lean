import RecordInference.Schema.Basic

/-!
# From definitions to schemas

Every definition becomes an object in which references are replaced by the objects they
name. Definitions are visited depth first; the names under visit form a stack, and a
reference back to it is a cycle. What is finished is kept and not visited again.

Refused are, in this order: a name that is defined twice, a reference to no definition,
and a cycle.
-/

set_option autoImplicit false

namespace RecordInference

/-- Why definitions have no schemas. -/
inductive SchemaError where
  | duplicate (name : String)
  | unresolved (definition field reference : String)
  | cycle (path : List String)
deriving DecidableEq, Repr

/-- The text of the error. -/
def SchemaError.message : SchemaError → String
  | duplicate name => s!"definition '{name}' declared more than once"
  | unresolved definition field reference =>
    s!"definition '{definition}' field '{field}' references unknown definition '{reference}'"
  | cycle path => "cyclic definition: " ++ " -> ".intercalate path

namespace Schema

/-- The first name that occurs in `seen` or earlier in the list. -/
def firstRepeated? (seen : List String) : List String → Option String
  | [] => none
  | name :: rest => if name ∈ seen then some name else firstRepeated? (name :: seen) rest

/-- The first field, in order of declaration, that refers to none of the definitions `names`. -/
def firstUnresolved? (names : List String) (definitions : List Definition) :
    Option (String × String × String) :=
  definitions.findSome? fun d => d.fields.findSome? fun f =>
    f.type.reference?.bind fun r => if r ∈ names then none else some (d.name, f.name, r)

/-- The part of the stack from `name` on, and `name` again. -/
def cycleTo (name : String) (stack : List String) : List String :=
  stack.dropWhile (fun n => n != name) ++ [name]

/-- The schema of a type, with a given way to visit the definition that it refers to. -/
def visitType (visit : String → Keyed Schema → Except SchemaError (Schema × Keyed Schema))
    (done : Keyed Schema) : FieldType → Except SchemaError (Schema × Keyed Schema)
  | .text => .ok (.text, done)
  | .money => .ok (.money, done)
  | .number => .ok (.number, done)
  | .yesNo => .ok (.yesNo, done)
  | .oneOf values => .ok (.oneOf values, done)
  | .object d => visit d done
  | .listOf d => (visit d done).map fun (schema, done) => (.list schema, done)

/-- The schemas of the fields of a definition, with a given way to visit the definitions
that they refer to. -/
def visitFields (visit : String → Keyed Schema → Except SchemaError (Schema × Keyed Schema)) :
    List Field → Keyed Schema → Except SchemaError (List (String × Schema) × Keyed Schema)
  | [], done => .ok ([], done)
  | f :: rest, done => do
    let (schema, done) ← visitType visit done f.type
    let (fields, done) ← visitFields visit rest done
    return ((f.name, schema) :: fields, done)

/-- The schema of the definition `name`, when the names in `stack` are under visit and at
most `room` definitions are not. Without room every definition is on the stack. -/
def visit (definitions : List Definition) : (room : Nat) → (stack : List String) →
    (name : String) → (done : Keyed Schema) → Except SchemaError (Schema × Keyed Schema)
  | 0, stack, name, done =>
    match Keyed.get? name done with
    | some schema => .ok (schema, done)
    | none => .error (.cycle (cycleTo name stack))
  | room + 1, stack, name, done =>
    match Keyed.get? name done with
    | some schema => .ok (schema, done)
    | none =>
      if name ∈ stack then .error (.cycle (cycleTo name stack))
      else do
        -- every name that is referred to has a definition, since that was checked before
        let fields := ((definitions.find? fun d => d.name = name).map (·.fields)).getD []
        let (fields, done) ←
          visitFields (visit definitions room (stack ++ [name])) fields done
        let schema := .object name fields
        return (schema, Keyed.insert name schema done)

/-- The schemas of the definitions `names`, visited one after the other. -/
def visitAll (definitions : List Definition) :
    List String → Keyed Schema → Except SchemaError (List (String × Schema))
  | [], _ => .ok []
  | name :: rest, done => do
    let (schema, done) ← visit definitions definitions.length [] name done
    let schemas ← visitAll definitions rest done
    return (name, schema) :: schemas

/-- The schema of every definition, in their order. -/
def resolve (definitions : List Definition) : Except SchemaError (Keyed Schema) :=
  let names := definitions.map (·.name)
  match firstRepeated? [] names with
  | some name => .error (.duplicate name)
  | none =>
    match firstUnresolved? names definitions with
    | some (d, f, r) => .error (.unresolved d f r)
    | none => visitAll definitions names []

end Schema

end RecordInference
