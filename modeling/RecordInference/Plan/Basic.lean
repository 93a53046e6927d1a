import RecordInference.Declaration.Program
import RecordInference.Digest.Blake3
import RecordInference.Parameters
import RecordInference.Rule.Typing

/-!
# Plans

A plan is everything that a run needs besides the texts of its resources: the steps with
their schemas, instructions and parameters, the rules, and the shape of the record that the
steps produce. Its fingerprint is that of its canonical JSON text.
-/

set_option autoImplicit false

namespace RecordInference

/-- Where the value of a step goes: all fields of an object into the record, or the value
under one field. -/
inductive StepOutput where
  | fields
  | field (name : String)
deriving DecidableEq, Repr

/-- An inference step of a plan. -/
structure PlannedStep where
  /-- Its position among the inference steps. -/
  index : Nat
  verb : Verb
  target : String
  schema : Schema
  output : StepOutput
  instructions : String
  parameters : Parameters
  prompt : Option Handle
  examples : Option Handle

/-- A rule of a plan. -/
structure PlannedRule where
  /-- The text of the rule, which is the reason of a flag. -/
  text : String
  condition : Rule.Condition

/-- A plan. -/
structure Plan where
  source : Option String
  steps : List PlannedStep
  rules : List PlannedRule
  output : Option String
  /-- The fields that the steps produce, in order. -/
  shape : Keyed Schema

/-- The written form of a step's output. -/
def StepOutput.toJson : StepOutput → Json
  | fields => .obj [("mode", .str "fields")]
  | field name => .obj [("mode", .str "field"), ("field", .str name)]

/-- The written form of a resource. -/
def Handle.toJson (h : Handle) : Json := .obj [("kind", .str h.kind.name), ("name", .str h.name)]

/-- The written form of a step. -/
def PlannedStep.toJson (s : PlannedStep) : Json :=
  .obj [("index", .int s.index), ("verb", .str s.verb.tag), ("target", .str s.target),
    ("schema", s.schema.toJson), ("output", s.output.toJson),
    ("instructions", .str s.instructions), ("params", s.parameters.toJson),
    ("prompt", Json.ofOption Handle.toJson s.prompt),
    ("examples", Json.ofOption Handle.toJson s.examples)]

/-- The written form of a rule. -/
def PlannedRule.toJson (r : PlannedRule) : Json :=
  .obj [("text", .str r.text), ("expr", r.condition.toJson)]

namespace Plan

/-- The written form of a plan. -/
def toJson (p : Plan) : Json :=
  .obj [("source", Json.ofOption .str p.source), ("steps", .arr (p.steps.map PlannedStep.toJson)),
    ("rules", .arr (p.rules.map PlannedRule.toJson)), ("output", Json.ofOption .str p.output),
    ("record_shape", .obj (p.shape.map fun (name, schema) => (name, schema.toJson)))]

/-- The canonical text of a plan. -/
def canonical (p : Plan) : String := p.toJson.compact

/-- The fingerprint of a plan. -/
def fingerprint (p : Plan) : String := Digest.ofText p.canonical

end Plan

end RecordInference
