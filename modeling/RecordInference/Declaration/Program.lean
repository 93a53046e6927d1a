import RecordInference.Declaration.Override
import RecordInference.Keyed

/-!
# Programs

A program is what a declaration says: definitions of record shapes, settings for every
step, and a pipeline of constructs whose order counts. Every construct keeps its line.

Prompts and example sets are texts kept outside the declaration and named in it. A loader
finds the text of a name, or finds nothing.
-/

set_option autoImplicit false

namespace RecordInference

/-- The declared type of a field. -/
inductive FieldType where
  | text
  | money
  | number
  | yesNo
  | oneOf (values : List String)
  | listOf (definition : String)
  | object (definition : String)
deriving DecidableEq, Repr

/-- The definition that a type refers to. -/
def FieldType.reference? : FieldType → Option String
  | listOf d => some d
  | object d => some d
  | _ => none

/-- The values of a list in brackets. -/
def bracketed (values : List String) : String := "[" ++ ", ".intercalate values ++ "]"

/-- A type as a declaration writes it. -/
def FieldType.written : FieldType → String
  | text => "TEXT"
  | money => "MONEY"
  | number => "NUMBER"
  | yesNo => "YES/NO"
  | oneOf values => "ONE OF " ++ bracketed values
  | listOf d => "LIST OF " ++ d
  | object d => d

/-- A field of a definition. -/
structure Field where
  name : String
  type : FieldType
  line : Nat
deriving DecidableEq, Repr

/-- A named record shape. -/
structure Definition where
  name : String
  fields : List Field
  line : Nat
deriving DecidableEq, Repr

/-- What an inference step does. -/
inductive Verb where
  | extract
  | classify
  | draft
deriving DecidableEq, Repr

/-- The keyword of a verb. -/
def Verb.keyword : Verb → String
  | extract => "EXTRACT"
  | classify => "CLASSIFY"
  | draft => "DRAFT"

/-- An inference step as written. The target is a definition, or the field that the step
produces; categories stand on a classification into given values. -/
structure InferenceStep where
  verb : Verb
  target : String
  categories : Option (List String)
  prompt : Option String
  examples : Option String
  line : Nat
deriving DecidableEq, Repr

/-- One construct of the pipeline. -/
inductive Step where
  | source (locator : String) (line : Nat)
  | inference (step : InferenceStep)
  | rule (expression : String) (line : Nat)
  | output (locator : String) (line : Nat)
  | set (overrides : List Override) (line : Nat)

/-- The line of a construct. -/
def Step.line : Step → Nat
  | source _ line => line
  | inference step => step.line
  | rule _ line => line
  | output _ line => line
  | set _ line => line

/-- What a declaration says. -/
structure Program where
  definitions : List Definition
  settings : List Override
  pipeline : List Step

/-- The definition of a name. -/
def Program.definition? (p : Program) (name : String) : Option Definition :=
  p.definitions.find? fun d => d.name = name

/-! ### Text resources -/

/-- The two kinds of text resource. -/
inductive ResourceKind where
  | prompt
  | examples
deriving DecidableEq, Repr

/-- The word for a kind of resource. -/
def ResourceKind.name : ResourceKind → String
  | prompt => "prompt"
  | examples => "examples"

/-- A resource named by a step. Its text is not part of it. -/
structure Handle where
  kind : ResourceKind
  name : String
deriving DecidableEq, Repr

/-- Finds the text of a resource. -/
abbrev Loader := ResourceKind → String → Option String

/-- The loader over given texts. -/
def Loader.ofTexts (prompts examples : Keyed String) : Loader
  | .prompt, name => Keyed.get? name prompts
  | .examples, name => Keyed.get? name examples

end RecordInference
