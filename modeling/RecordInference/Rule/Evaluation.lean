import RecordInference.Rule.Typing

/-!
# Rules on a record

A condition holds on a record or not, unless a comparison has no answer: its field is
missing, or the value there cannot be compared with the operand. Both sides of a connective
are always evaluated, the left one first.
-/

set_option autoImplicit false

namespace RecordInference.Rule

/-- The words for the kind of an operand. -/
def Operand.describe : Operand → String
  | number _ => "a number"
  | yesNo _ => "a yes/no literal"
  | text _ => "a text literal"

/-- Why a comparison has no answer. -/
inductive Obstacle where
  | missing
  | incomparable (kind : String) (operand : Operand)

/-- The text of an obstacle. -/
def Obstacle.reason : Obstacle → String
  | missing => "field missing from record"
  | incomparable kind operand => s!"cannot compare {kind} value with {operand.describe}"

/-- A rule that has no answer on a record, and the field that is to blame. -/
structure EvaluationError where
  rule : String
  field : String
  obstacle : Obstacle

/-- The text of the error. -/
def EvaluationError.message (e : EvaluationError) : String :=
  s!"rule '{e.rule}': {e.obstacle.reason}"

/-- Compares a value with an operand, if they can be compared in this way. -/
def compare? (v : Value) : Comparison → Operand → Option Bool
  | .above, .number n => v.number?.map fun x => decide (x > n)
  | .below, .number n => v.number?.map fun x => decide (x < n)
  | .equals, .number n => v.number?.map fun x => x == n
  | .equals, .yesNo b =>
    match v with
    | .yesNo c => some (c == b)
    | _ => none
  | .equals, .text t =>
    match v with
    | .text s => some (s == t)
    | .oneOf s => some (s == t)
    | _ => none
  | _, _ => none

/-- Joins two truth values. -/
def Connective.apply : Connective → Bool → Bool → Bool
  | and, l, r => l && r
  | or, l, r => l || r

/-- Whether the condition holds on the record. `rule` is its text. -/
def Condition.evaluate (rule : String) (record : Record) :
    Condition → Except EvaluationError Bool
  | compare field op operand =>
    match record.lookup? field with
    | none => .error ⟨rule, field, .missing⟩
    | some v =>
      match compare? v op operand with
      | none => .error ⟨rule, field, .incomparable v.kind operand⟩
      | some b => .ok b
  | join op left right => do
    let l ← left.evaluate rule record
    let r ← right.evaluate rule record
    return op.apply l r

end RecordInference.Rule
