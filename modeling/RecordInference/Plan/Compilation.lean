import RecordInference.Declaration.Reading
import RecordInference.Plan.Basic
import RecordInference.Plan.Diagnostic
import RecordInference.Prompt.Instructions
import RecordInference.Prompt.Template
import RecordInference.Schema.Resolution

/-!
# From programs to plans

The constructs of a pipeline are taken up in order. An inference step gets the schema of
its response, the parameters set above it, and its resources, which are looked up and
checked; the fields it produces join the shape of the record, so that a prompt can name the
fields of earlier steps only. Rules are checked at the end against the fields of all steps.

Nothing stops at the first problem: a program has a plan exactly if there is no diagnostic.
-/

set_option autoImplicit false

namespace RecordInference

/-- What a step yields: the schema of its response, where the value goes, and the fields
that it adds to the record. -/
structure Yield where
  schema : Schema
  output : StepOutput
  produced : List (String × Schema)

namespace Yield

/-- A value under one field. -/
def single (name : String) (schema : Schema) : Yield := ⟨schema, .field name, [(name, schema)]⟩

/-- The yield of a classification by a definition, which must have a single field with given
values. -/
def ofClassification (line : Nat) (target : String) :
    List (String × Schema) → Except (List Diagnostic) Yield
  | [(name, .oneOf values)] => .ok (single name (.oneOf values))
  | [] => .error [.notClassifiable line target .noFields]
  | [(name, schema)] => .error [.notClassifiable line target (.oneField name schema.describe)]
  | fields => .error [.notClassifiable line target (.manyFields fields.length)]

/-- The yield of a step that names a definition. -/
def ofDefinition (schemas : Keyed Schema) (step : InferenceStep) :
    Except (List Diagnostic) Yield :=
  match Keyed.get? step.target schemas with
  | none => .error [.unknownDefinition step.line step.verb step.target]
  | some (.object name fields) =>
    if step.verb = .extract then .ok ⟨.object name fields, .fields, fields⟩
    else ofClassification step.line step.target fields
  -- the schema of a definition is an object
  | some _ => .error []

/-- The yield of a step. -/
def ofStep (schemas : Keyed Schema) (step : InferenceStep) : Except (List Diagnostic) Yield :=
  match step.verb, step.categories with
  | .classify, some categories => .ok (single step.target (.oneOf categories))
  | .draft, _ => .ok (single step.target .text)
  | _, _ => ofDefinition schemas step

end Yield

/-- A plan under construction. -/
structure Assembly where
  source : Option String := none
  output : Option String := none
  /-- The overrides in force, those for all steps first. -/
  overrides : List Override
  steps : List PlannedStep := []
  shape : Keyed Schema := []
  /-- The step that produces each field. -/
  producers : Keyed Nat := []
  rules : List (String × Nat) := []
  diagnostics : List Diagnostic := []

namespace Assembly

/-- The draft with further diagnostics. -/
def report (d : Assembly) (ds : List Diagnostic) : Assembly :=
  { d with diagnostics := d.diagnostics ++ ds }

/-- The clashes of fields with those of earlier steps. -/
def clashes (d : Assembly) (line : Nat) (produced : List (String × Schema)) : List Diagnostic :=
  produced.filterMap fun (name, _) =>
    (Keyed.get? name d.producers).map fun previous => .duplicateOutputField line name previous

/-- The handle of a prompt that is found, and what is wrong with it: that it is missing, or
the placeholders that no earlier step provides for. -/
def prompt (d : Assembly) (loader : Loader) (line : Nat) (name : String) :
    Option Handle × List Diagnostic :=
  let handle : Handle := ⟨.prompt, name⟩
  match loader .prompt name with
  | none => (none, [.missingResource line handle])
  | some text =>
    let unknown := (Template.paths text).filter fun p => (Schema.lookup? d.shape p).isNone
    (some handle, unknown.map fun p => .misfit line (.undeclared p))

/-- The handle of an example set that is found and well formed, or what is wrong with it. -/
def exampleSet (loader : Loader) (line : Nat) (name : String) : Option Handle × List Diagnostic :=
  let handle : Handle := ⟨.examples, name⟩
  match loader .examples name with
  | none => (none, [.missingResource line handle])
  | some text =>
    match Example.read text with
    | .error fault => (none, [.malformedResource line handle fault])
    | .ok _ => (some handle, [])

/-- What a check of an optional resource yields. -/
def checked (check : String → Option Handle × List Diagnostic) :
    Option String → Option Handle × List Diagnostic
  | none => (none, [])
  | some name => check name

/-- The fields of a step written into the shape of the record. -/
def produce (d : Assembly) (index : Nat) (produced : List (String × Schema)) : Assembly :=
  { d with
    shape := Keyed.extend d.shape produced
    producers := Keyed.extend d.producers (produced.map fun (name, _) => (name, index)) }

/-- Takes up a step of known yield. Where a field clashes, no field of the step is written. -/
def plan (d : Assembly) (loader : Loader) (step : InferenceStep) (y : Yield) : Assembly :=
  let index := d.steps.length
  let clashes := d.clashes step.line y.produced
  let (prompt, promptFaults) := checked (d.prompt loader step.line) step.prompt
  let (examples, exampleFaults) := checked (exampleSet loader step.line) step.examples
  let target := match y.output with
    | .field name => name
    | .fields => step.target
  let planned : PlannedStep :=
    { index, verb := step.verb, target := step.target, schema := y.schema, output := y.output
      instructions := Instructions.text step.verb target y.schema
      parameters := Parameters.merge step.verb d.overrides, prompt, examples }
  -- a step whose fields clash is planned all the same, so that later steps keep their indices
  let d' := if clashes.isEmpty then d.produce index y.produced else d
  { d' with steps := d.steps ++ [planned] }.report (clashes ++ promptFaults ++ exampleFaults)

/-- Takes up one construct of the pipeline. -/
def take (schemas : Keyed Schema) (loader : Loader) (d : Assembly) : Step → Assembly
  | .source locator line =>
    if d.source.isSome then d.report [.duplicateStep line .source]
    else { d with source := some locator }
  | .output locator line =>
    if d.output.isSome then d.report [.duplicateStep line .output]
    else { d with output := some locator }
  | .set overrides _ => { d with overrides := d.overrides ++ overrides }
  | .rule expression line => { d with rules := d.rules ++ [(expression, line)] }
  | .inference step =>
    match Yield.ofStep schemas step with
    | .error ds => d.report ds
    | .ok y => d.plan loader step y

end Assembly

/-- A rule checked against the shape of the record. -/
def planRule (shape : Keyed Schema) (text : String) (line : Nat) :
    Except (List Diagnostic) PlannedRule :=
  match Rule.read text with
  | .error fault => .error [.ruleSyntax line fault]
  | .ok expr =>
    match Rule.typed shape expr with
    | .error misfits => .error (misfits.map (.misfit line))
    | .ok condition => .ok ⟨text, condition⟩

/-- The rules that are in order, and the diagnostics of the others. -/
def planRules (shape : Keyed Schema) :
    List (String × Nat) → List PlannedRule × List Diagnostic
  | [] => ([], [])
  | (text, line) :: rest =>
    let (rules, ds) := planRules shape rest
    match planRule shape text line with
    | .ok rule => (rule :: rules, ds)
    | .error faults => (rules, faults ++ ds)

/-- Whether a construct is an inference step. -/
def Step.isInference : Step → Bool
  | .inference _ => true
  | _ => false

/-- The plan of a program over its schemas, or all diagnostics. -/
def Plan.compile (program : Program) (schemas : Keyed Schema) (loader : Loader) :
    Except (List Diagnostic) Plan :=
  let d := program.pipeline.foldl (Assembly.take schemas loader) { overrides := program.settings }
  let d := if program.pipeline.any Step.isInference then d else d.report [.noInferenceStep]
  -- wherever a rule stands in the pipeline, it may name the fields of all steps
  let (rules, faults) := planRules d.shape d.rules
  let diagnostics := d.diagnostics ++ faults
  if diagnostics.isEmpty then .ok ⟨d.source, d.steps, rules, d.output, d.shape⟩
  else .error diagnostics

/-- Why a declaration has no plan. -/
inductive DeclarationError where
  | declaration (fault : Declaration.Fault)
  | schema (error : SchemaError)
  | compile (diagnostics : List Diagnostic)

/-- The text of the error. -/
def DeclarationError.message : DeclarationError → String
  | declaration fault => fault.message
  | schema error => error.message
  | compile diagnostics => Diagnostic.summary diagnostics

/-- The plan of a program. -/
def Program.plan (program : Program) (loader : Loader) : Except DeclarationError Plan := do
  let schemas ← (Schema.resolve program.definitions).mapError .schema
  (Plan.compile program schemas loader).mapError .compile

/-- The plan of a declaration. -/
def Plan.ofDeclaration (text : String) (loader : Loader) : Except DeclarationError Plan := do
  let program ← (Declaration.read text).mapError .declaration
  program.plan loader

end RecordInference
