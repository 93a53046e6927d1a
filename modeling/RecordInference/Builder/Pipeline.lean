import RecordInference.Builder.Shape

/-!
# Pipelines built by calls

A pipeline has at most one extraction or classification, and at most one draft behind it.
Prompt and examples go to the first step. What is built has no text, so its constructs are
numbered in the order in which they would stand: definitions with their fields, the source,
the steps, the rules, the output.
-/

set_option autoImplicit false

namespace RecordInference.Pipeline

/-- The step that reads the input into fields. -/
inductive Primary where
  | extract (shape : Shape)
  | classify (field : String) (categories : List String)
deriving DecidableEq, Repr

/-- A call to a pipeline. -/
inductive Call where
  | source (locator : String)
  | output (locator : String)
  | extract (shape : Shape)
  | classify (field : String) (categories : List String)
  | draft (field : String)
  | prompt (name : String)
  | examples (name : String)
  | flag (rule : String)
  | set (o : Override)

/-- A pipeline under construction, and the first misuse. -/
structure Draft where
  source : Option String := none
  output : Option String := none
  primary : Option Primary := none
  draft : Option String := none
  prompt : Option String := none
  examples : Option String := none
  flags : List String := []
  settings : List Override := []
  error : Option BuildError := none

/-- Where the output goes if no call says so. -/
def defaultOutput : String := "output.json"

namespace Draft

/-- The draft with a misuse. -/
def fail (d : Draft) (e : BuildError) : Draft := { d with error := BuildError.first d.error e }

/-- The draft, with a misuse unless the name is an identifier. -/
def checkName (d : Draft) (name : String) : Draft :=
  if Text.isIdentifier name.toList then d else d.fail (.invalidName name)

/-- The draft with an extraction, which no classification goes before. -/
def extract (d : Draft) (shape : Shape) : Draft :=
  -- the later call is taken even where it is a misuse
  let checked := match d.primary with
    | some (.classify _ _) => d.fail .exclusiveSteps
    | _ => d
  { checked with primary := some (.extract shape) }

/-- The draft with a classification, which no extraction goes before. -/
def classify (d : Draft) (field : String) (categories : List String) : Draft :=
  let checked := match d.primary with
    | some (.extract _) => d.fail .exclusiveSteps
    | _ => d
  let checked := checked.checkName field
  match Shape.checkedValues field categories with
  | .ok categories => { checked with primary := some (.classify field categories) }
  | .error e => checked.fail e

/-- The draft with a rule, which has to be readable. -/
def flag (d : Draft) (rule : String) : Draft :=
  let checked := match Rule.read rule with
    | .ok _ => d
    | .error fault => d.fail (.rule rule fault)
  { checked with flags := d.flags ++ [Text.trimmed rule] }

/-- The draft with a setting for all steps. -/
def set (d : Draft) (o : Override) : Draft :=
  let checked := match o.fault? with
    | none => d
    | some fault => d.fail (.setting fault)
  { checked with settings := d.settings ++ [o] }

/-- The draft after a call. -/
def call (d : Draft) : Call → Draft
  | .source locator => { d with source := some locator }
  | .output locator => { d with output := some locator }
  | .extract shape => d.extract shape
  | .classify field categories => d.classify field categories
  | .draft field => { d.checkName field with draft := some field }
  | .prompt name => { d with prompt := some name }
  | .examples name => { d with examples := some name }
  | .flag rule => d.flag rule
  | .set o => d.set o

end Draft

/-! ### The program -/

/-- Definitions without conflicts among them. -/
def collect : List Definition → List Definition → Except BuildError (List Definition)
  | collected, [] => .ok collected
  | collected, d :: rest => do collect (← Shape.addDefinition collected d) rest

/-- The fields with the lines from `line` on. -/
def numberFields (line : Nat) : List Field → List Field
  | [] => []
  | f :: rest => { f with line } :: numberFields (line + 1) rest

/-- The definitions with the lines from `line` on, their fields between them. -/
def numberDefinitions (line : Nat) : List Definition → List Definition
  | [] => []
  | d :: rest =>
    { d with line, fields := numberFields (line + 1) d.fields } ::
      numberDefinitions (line + 1 + d.fields.length) rest

/-- The number of lines of definitions. -/
def lineCount (ds : List Definition) : Nat :=
  ds.foldr (fun d lines => 1 + d.fields.length + lines) 0

/-- The constructs with the lines from `line` on. -/
def numberSteps (line : Nat) : List (Nat → Step) → List Step
  | [] => []
  | step :: rest => step line :: numberSteps (line + 1) rest

/-- What an optional value stands for, if it is there. -/
def optional {α β : Type} (f : α → β) : Option α → List β
  | some a => [f a]
  | none => []

/-- An extraction or classification without its resources. -/
def Primary.step (primary : Primary) (line : Nat) : InferenceStep :=
  match primary with
  | .extract shape => ⟨.extract, shape.definition.name, none, none, none, line⟩
  | .classify field categories => ⟨.classify, field, some categories, none, none, line⟩

/-- A draft without its resources. -/
def draftStep (field : String) (line : Nat) : InferenceStep :=
  ⟨.draft, field, none, none, none, line⟩

namespace Draft

/-- The definitions that the program needs. -/
def definitions (d : Draft) : Except BuildError (List Definition) :=
  match d.primary with
  | some (.extract shape) => collect [] shape.definitions
  | _ => .ok []

/-- The inference steps without their resources. -/
def bareSteps (d : Draft) : List (Nat → InferenceStep) :=
  optional Primary.step d.primary ++ optional draftStep d.draft

/-- The inference steps. The first one has the resources. -/
def inferenceSteps (d : Draft) : List (Nat → InferenceStep) :=
  match d.bareSteps with
  | [] => []
  | first :: rest =>
    (fun line => { first line with prompt := d.prompt, examples := d.examples }) :: rest

/-- The constructs of the pipeline, up to their lines. -/
def steps (d : Draft) : List (Nat → Step) :=
  optional Step.source d.source ++ d.inferenceSteps.map (fun step line => .inference (step line)) ++
    d.flags.map Step.rule ++ [Step.output (d.output.getD defaultOutput)]

/-- The finished program, or the first misuse. -/
def program (d : Draft) : Except BuildError Program :=
  match d.error with
  | some e => .error e
  | none => do
    let definitions ← d.definitions
    return ⟨numberDefinitions 1 definitions, d.settings,
      numberSteps (1 + lineCount definitions) d.steps⟩

end Draft

/-- The program that calls build. -/
def program (calls : List Call) : Except BuildError Program :=
  (calls.foldl Draft.call {}).program

end RecordInference.Pipeline
