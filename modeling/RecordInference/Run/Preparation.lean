import RecordInference.Plan.Basic
import RecordInference.Prompt.Examples
import RecordInference.Prompt.Instructions
import RecordInference.Prompt.Template
import RecordInference.Settings
import RecordInference.Value

/-!
# Preparing a plan

Before a run, the settings are checked and the texts that the plan names are loaded, step by
step, the prompt of a step before its examples. The fingerprint of what was prepared covers
the plan and those texts. A request is made of the step, its texts, the input and the record
so far; of the record it uses what the prompt names, and all of it for a draft.
-/

set_option autoImplicit false

namespace RecordInference

/-- A step with the texts that its requests are made of. -/
structure PreparedStep where
  step : PlannedStep
  context : Option String
  /-- The examples in the form in which a request shows them. -/
  examples : Option String

/-- A plan that is ready to run. -/
structure Prepared where
  plan : Plan
  steps : List PreparedStep
  settings : Settings
  fingerprint : String

/-- Why a plan is not ready to run. -/
inductive PreparationError where
  | settings (problems : List SettingsProblem)
  | missing (handle : Handle)
  | malformed (handle : Handle) (fault : Example.Fault)
deriving DecidableEq, Repr

/-- The text of the error. -/
def PreparationError.message : PreparationError → String
  | settings problems => (SettingsError.problems problems).message
  | missing handle => s!"{handle.kind.name} resource '{handle.name}' not found"
  | malformed handle fault =>
    s!"{handle.kind.name} resource '{handle.name}' is malformed: {fault.message}"

namespace Prepared

/-- The text of a resource. -/
def load (loader : Loader) (handle : Handle) : Except PreparationError String :=
  match loader handle.kind handle.name with
  | some text => .ok text
  | none => .error (.missing handle)

/-- The text of a resource that may be named or not. -/
def loadOptional (loader : Loader) : Option Handle → Except PreparationError (Option String)
  | none => .ok none
  | some handle => (load loader handle).map some

/-- The examples of a step in the form in which a request shows them. -/
def showExamples (handle : Option Handle) (text : Option String) :
    Except PreparationError (Option String) :=
  match handle, text with
  | some handle, some text =>
    match Example.read text with
    | .ok examples => .ok (some (Example.render examples))
    | .error fault => .error (.malformed handle fault)
  | _, _ => .ok none

/-- A step with its texts, and the texts as they were loaded. -/
def prepareStep (loader : Loader) (step : PlannedStep) :
    Except PreparationError (PreparedStep × List String) := do
  let context ← loadOptional loader step.prompt
  let source ← loadOptional loader step.examples
  let examples ← showExamples step.examples source
  return (⟨step, context, examples⟩, context.toList ++ source.toList)

/-- The steps with their texts, and all texts as they were loaded. -/
def prepareSteps (loader : Loader) :
    List PlannedStep → Except PreparationError (List PreparedStep × List String)
  | [] => .ok ([], [])
  | step :: rest => do
    let (step, texts) ← prepareStep loader step
    let (steps, more) ← prepareSteps loader rest
    return (step :: steps, texts ++ more)

/-- The plan with its texts, if there is nothing wrong with them or with the settings. -/
def ofPlan (plan : Plan) (loader : Loader) (settings : Settings) :
    Except PreparationError Prepared :=
  if !settings.problems.isEmpty then .error (.settings settings.problems)
  else do
    let (steps, texts) ← prepareSteps loader plan.steps
    return ⟨plan, steps, settings, Digest.ofTexts (plan.fingerprint :: texts.map Digest.ofText)⟩

end Prepared

/-! ### Requests -/

/-- What goes out to a model. -/
structure Request where
  recordId : Nat
  /-- The index of the step. -/
  step : Nat
  verb : Verb
  /-- The shape of the response, in the terms of JSON Schema. -/
  schema : Json
  system : String
  input : String
  parameters : Parameters

/-- The written form of a request. -/
def Request.toJson (r : Request) : Json :=
  .obj [("record_id", .int r.recordId), ("step", .int r.step), ("verb", .str r.verb.tag),
    ("schema", r.schema), ("system", .str r.system), ("input", .str r.input),
    ("params", r.parameters.toJson)]

namespace PreparedStep

/-- The input of a request: for a draft, the record so far stands before it. -/
def inputOf (verb : Verb) (input : String) (record : Record) : String :=
  match verb with
  | .draft => "Structured data:\n" ++ record.toJson.indented ++ "\n\nOriginal input:\n" ++ input
  | _ => input

/-- The request of a step for a record. -/
def request (p : PreparedStep) (recordId : Nat) (input : String) (record : Record) : Request where
  recordId := recordId
  step := p.step.index
  verb := p.step.verb
  schema := p.step.schema.jsonSchema
  system := Instructions.systemPrompt (p.context.map fun text => Template.fill text record)
    p.step.instructions p.examples
  input := inputOf p.step.verb input record
  parameters := p.step.parameters

end PreparedStep

end RecordInference
