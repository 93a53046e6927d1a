import RecordInference.Declaration.Program

/-!
# Faults of a declaration

Why a line of a declaration is refused. The message names what was expected at the line
and what was found instead.
-/

set_option autoImplicit false

namespace RecordInference.Declaration

/-- The two places that take a list in brackets. -/
inductive ListPlace where
  | oneOf
  | into
deriving DecidableEq, Repr

/-- Why a line is refused. -/
inductive Cause where
  | fieldOutsideBlock (text : String)
  | unknownConstruct (head : String)
  | definitionName (text : String)
  | duplicateDefinition (name : String) (line : Nat)
  | fieldName (word : String)
  | fieldTypeMissing (field : String)
  | fieldType (text : String)
  | duplicateField (definition field : String)
  | listMissing (place : ListPlace)
  | unbracketedList (token : String)
  | emptyListValue (token : String)
  | duplicateListValue (value : String)
  | overrideValueMissing (parameter : String)
  | overrideValue (fault : OverrideFault) (value : String)
  | headerForm (value : String)
  | unknownParameter (word : String)
  | locatorMissing (ofSource : Bool)
  | stepTarget (verb : Verb) (found : Option String)
  | unknownModifier (token : String)
  | resourceName (keyword : String) (found : Option String)
  | duplicateModifier (kind : ResourceKind) (name existing : String)
  | modifierWithoutStep (text : String)
  | whenMissing (word : String)
  | conditionMissing
deriving DecidableEq, Repr

/-- What a verb takes after it. -/
def targetOf : Verb → String
  | .extract => "a definition name after EXTRACT"
  | .classify => "a field or definition name after CLASSIFY"
  | .draft => "a field name after DRAFT"

namespace Cause

/-- What was expected. -/
def expected : Cause → String
  | fieldOutsideBlock _ => "a field line inside a DEFINE block"
  | unknownConstruct _ =>
    "DEFINE, SET, FROM, EXTRACT, CLASSIFY, DRAFT, WITH, PROMPT, USE, FLAG or OUTPUT"
  | definitionName _ => "a definition name after DEFINE"
  | duplicateDefinition _ _ => "a unique definition name"
  | fieldName _ => "a field name"
  | fieldTypeMissing field => s!"a type after field '{field}'"
  | fieldType _ =>
    "a field type (TEXT, MONEY, NUMBER, YES/NO, ONE OF [...], LIST OF <name> or <name>)"
  | duplicateField definition _ => s!"a unique field name in '{definition}'"
  | listMissing .oneOf => "a [value, ...] list after ONE OF"
  | listMissing .into => "a [category, ...] list after INTO"
  | unbracketedList _ => "a bracketed [value, ...] list"
  | emptyListValue _ => "a non-empty list value"
  | duplicateListValue _ => "unique list values"
  | overrideValueMissing parameter => s!"a value after SET {parameter}"
  | overrideValue fault _ => fault.expected
  | headerForm _ => "SET HEADER <name> <value>"
  | unknownParameter _ => "MODEL, TEMPERATURE, TOP_P, SEED, MAX_TOKENS or HEADER after SET"
  | locatorMissing true => "a source locator after FROM"
  | locatorMissing false => "an output locator after OUTPUT"
  | stepTarget verb _ => targetOf verb
  | unknownModifier _ => "WITH, PROMPT or USE"
  | resourceName keyword _ => s!"a resource name after {keyword}"
  | duplicateModifier kind _ _ => s!"at most one {kind.name} resource per step"
  | modifierWithoutStep _ => "an EXTRACT, CLASSIFY or DRAFT step before this modifier"
  | whenMissing _ => "WHEN after FLAG"
  | conditionMissing => "a condition after FLAG WHEN"

/-- A text in single quotes. -/
def quote (text : String) : String := s!"'{text}'"

/-- A found token, or that there was none. -/
def quoteOrEnd : Option String → String
  | some token => quote token
  | none => "end of line"

/-- What was found. -/
def found : Cause → String
  | fieldOutsideBlock text => s!"'{text}' outside any definition"
  | unknownConstruct head => quote head
  | definitionName text => quote text
  | duplicateDefinition name line => s!"'{name}' (already defined on line {line})"
  | fieldName word => quote word
  | fieldTypeMissing _ => "end of line"
  | fieldType text => quote text
  | duplicateField _ field => s!"duplicate field '{field}'"
  | listMissing _ => "end of line"
  | unbracketedList token => quote token
  | emptyListValue token => quote token
  | duplicateListValue value => s!"duplicate '{value}'"
  | overrideValueMissing _ => "end of line"
  | overrideValue _ value => quote value
  | headerForm value => quote value
  | unknownParameter word => quote word
  | locatorMissing _ => "end of line"
  | stepTarget _ token => quoteOrEnd token
  | unknownModifier token => quote token
  | resourceName _ token => quoteOrEnd token
  | duplicateModifier _ name existing => s!"'{name}' after '{existing}'"
  | modifierWithoutStep text => quote text
  | whenMissing word => quote word
  | conditionMissing => "end of line"

end Cause

/-- A refused line. -/
structure Fault where
  line : Nat
  cause : Cause
deriving DecidableEq, Repr

/-- The text of a fault. -/
def Fault.message (f : Fault) : String :=
  s!"line {f.line}: expected {f.cause.expected}, found {f.cause.found}"

end RecordInference.Declaration
