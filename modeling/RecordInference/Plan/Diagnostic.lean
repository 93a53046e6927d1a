import RecordInference.Declaration.Program
import RecordInference.Prompt.Examples
import RecordInference.Rule.Typing

/-!
# Diagnostics

What keeps a program from becoming a plan. All diagnostics of a program are collected.
-/

set_option autoImplicit false

namespace RecordInference

/-- What a definition has in place of a single field with given values. -/
inductive Unclassifiable where
  | noFields
  | oneField (name type : String)
  | manyFields (count : Nat)
deriving DecidableEq, Repr

/-- The words for what a definition has. -/
def Unclassifiable.describe : Unclassifiable → String
  | noFields => "no fields"
  | oneField name type => s!"field '{name}' ({type})"
  | manyFields count => s!"{count} fields"

/-- The constructs of which a pipeline has at most one. -/
inductive Singular where
  | source
  | output
deriving DecidableEq, Repr

/-- The keyword of the construct. -/
def Singular.keyword : Singular → String
  | source => "FROM"
  | output => "OUTPUT"

/-- A reason why a program has no plan. -/
inductive Diagnostic where
  | unknownDefinition (line : Nat) (verb : Verb) (name : String)
  | notClassifiable (line : Nat) (name : String) (found : Unclassifiable)
  | duplicateOutputField (line : Nat) (field : String) (previous : Nat)
  | misfit (line : Nat) (misfit : Rule.Misfit)
  | ruleSyntax (line : Nat) (fault : Rule.Fault)
  | missingResource (line : Nat) (handle : Handle)
  | malformedResource (line : Nat) (handle : Handle) (fault : Example.Fault)
  | duplicateStep (line : Nat) (construct : Singular)
  | noInferenceStep
deriving DecidableEq, Repr

/-- The text of a misfit at a line. -/
def Rule.Misfit.message (line : Nat) : Rule.Misfit → String
  | undeclared field => s!"line {line}: reference to undeclared field '{field}'"
  | operator op field type => s!"line {line}: {op.keyword} cannot be applied to '{field}' ({type})"
  | literal field word type =>
    s!"line {line}: literal '{word}' is not valid for '{field}' ({type})"

namespace Diagnostic

/-- The text of a diagnostic. -/
def message : Diagnostic → String
  | unknownDefinition line verb name =>
    s!"line {line}: {verb.keyword} references unknown definition '{name}'"
  | notClassifiable line name found =>
    s!"line {line}: CLASSIFY {name} needs a definition with a single enum field, " ++
      s!"found {found.describe}"
  | duplicateOutputField line field previous =>
    s!"line {line}: field '{field}' is already produced by inference step {previous}"
  | misfit line m => m.message line
  | ruleSyntax line fault => s!"line {line}: invalid rule: {fault.message}"
  | missingResource line handle =>
    s!"line {line}: {handle.kind.name} resource '{handle.name}' not found"
  | malformedResource line handle fault =>
    s!"line {line}: {handle.kind.name} resource '{handle.name}' is malformed: {fault.message}"
  | duplicateStep line construct =>
    s!"line {line}: pipeline declares more than one {construct.keyword}"
  | noInferenceStep => "pipeline declares no inference step"

/-- The text of several diagnostics: their number, then one a line. -/
def summary (ds : List Diagnostic) : String :=
  s!"{ds.length} compile error(s)" ++ String.join (ds.map fun d => "\n  " ++ d.message)

end Diagnostic

end RecordInference
