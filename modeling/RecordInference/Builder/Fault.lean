import RecordInference.Declaration.Override
import RecordInference.Rule.Expr

/-!
# Misuse of the builders

Shapes and pipelines can be built call by call. The first call that makes no sense is
remembered, and it is what the finished builder reports.
-/

set_option autoImplicit false

namespace RecordInference

/-- What is wrong with the values of a field. -/
inductive ValuesFault where
  | emptyValue
  | duplicate (value : String)
  | noValues
deriving DecidableEq, Repr

/-- The words for what is wrong. -/
def ValuesFault.message : ValuesFault → String
  | emptyValue => "empty value"
  | duplicate value => s!"duplicate '{value}'"
  | noValues => "no values"

/-- Why nothing was built. -/
inductive BuildError where
  | invalidName (name : String)
  | duplicateField (definition field : String)
  | invalidValues (field : String) (fault : ValuesFault)
  | unknownType (field found : String)
  | malformedDocument
  | unreadable (path reason : String)
  | conflictingDefinition (name : String)
  | exclusiveSteps
  | rule (text : String) (fault : Rule.Fault)
  | setting (fault : OverrideFault)
deriving DecidableEq, Repr

/-- The text of the error. -/
def BuildError.message : BuildError → String
  | invalidName name => s!"'{name}' is not a valid name"
  | duplicateField definition field =>
    s!"schema '{definition}' declares field '{field}' more than once"
  | invalidValues field fault => s!"field '{field}': {fault.message}"
  | unknownType field found => s!"unknown type '{found}' for field '{field}'"
  | malformedDocument => "malformed schema JSON"
  | unreadable path reason => s!"cannot read {path}: {reason}"
  | conflictingDefinition name => s!"definition '{name}' is used with two different shapes"
  | exclusiveSteps => "extract() and classify() are mutually exclusive"
  | rule text fault => s!"invalid rule '{text}': {fault.message}"
  | setting fault => s!"invalid setting: expected {fault.expected}"

/-- The first of two errors. -/
def BuildError.first (seen : Option BuildError) (e : BuildError) : Option BuildError :=
  match seen with
  | some earlier => some earlier
  | none => some e

end RecordInference
