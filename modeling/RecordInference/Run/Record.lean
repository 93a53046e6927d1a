import RecordInference.Rule.Evaluation
import RecordInference.Run.Audit
import RecordInference.Run.Preparation
import RecordInference.Run.Unit

/-!
# One record

A unit of input becomes a record step by step. A step has two attempts, and both send the
same request: the first response that has the shape of the step ends it, and two that do not
end the record. Every attempt is entered into the audit log, and a failure to do so ends the
record at once. After the last step the rules are evaluated on the record.

A `Task` is a record between two attempts. `Task.advance` makes one attempt in a world
outside, which `Collaborators` describes: a client that is called, a log, a sink, a clock.
-/

set_option autoImplicit false

namespace RecordInference

/-! ### The world outside -/

/-- What a client does with a call. Only a client can take a task down: the log, the clock, the sink
and the source are assumed to return. -/
inductive Reply where
  | text (raw : String)
  | transport (message : String)
  /-- The client takes the whole task down with it. -/
  | crash
deriving DecidableEq, Repr

/-- What a call comes to within its time. -/
inductive Answer where
  | text (raw : String)
  | transport (message : String)
  | timedOut
deriving DecidableEq, Repr

/-- What a run works with. `σ` is the state of the world outside. A client may take its task down
(`Reply.crash`); the log and the clock are assumed to return, the log with what went wrong if an
entry could not be appended. -/
structure Collaborators (σ : Type) where
  /-- Sends a request out, and tells how many milliseconds the reply takes. -/
  call : Request → (attempt : Nat) → σ → Nat × σ
  /-- The reply to a call that is given its time. -/
  reply : Request → (attempt : Nat) → σ → Reply × σ
  /-- Appends to the audit log, and tells what went wrong if it cannot. -/
  append : AuditEntry → σ → Option String × σ
  /-- The time. -/
  now : σ → String

/-! ### Attempts -/

/-- Why an attempt has no value. -/
inductive StepFailure where
  | validation (violations : List Violation)
  | transport (message : String)
  | timedOut (afterMs : Nat)
deriving DecidableEq, Repr

namespace StepFailure

/-- The text of a failure. -/
def message : StepFailure → String
  | validation violations => s!"response failed validation ({violations.length} violation(s))"
  | transport m => s!"transport error: {m}"
  | timedOut afterMs => s!"inference call timed out after {afterMs} ms"

/-- What the audit log says of a failure. -/
def outcome : StepFailure → AttemptOutcome
  | validation violations => .invalid violations
  | transport m => .transport m
  | timedOut afterMs => .timedOut afterMs

end StepFailure

/-- The value or failure of an attempt. -/
abbrev Judgement := Except StepFailure Value

namespace Answer

/-- The text of a response. -/
def raw? : Answer → Option String
  | text raw => some raw
  | _ => none

/-- What an answer is worth to a step. -/
def judge (step : PlannedStep) (timeoutMs : Nat) : Answer → Judgement
  | text raw =>
    (Response.checkStep step.verb step.schema step.output raw).mapError .validation
  | transport m => .error (.transport m)
  | timedOut => .error (.timedOut timeoutMs)

end Answer

/-- The attempts that a step has. -/
def maxAttempts : Nat := 2

namespace Judgement

/-- What the audit log says of an attempt. -/
def outcome : Judgement → AttemptOutcome
  | .ok _ => .valid
  | .error f => f.outcome

/-- What follows the attempt. -/
def disposition (attempt : Nat) : Judgement → Disposition
  | .ok _ => .valid
  | .error _ => if attempt < maxAttempts then .retry else .terminal

/-- The value of an attempt. -/
def value? : Judgement → Option Value
  | .ok v => some v
  | .error _ => none

/-- The text of the failure that ends a step. -/
def failure? (attempt : Nat) : Judgement → Option String
  | .ok _ => none
  | .error f => if attempt < maxAttempts then none else some f.message

end Judgement

/-! ### Results -/

/-- How a record has ended. -/
inductive RecordStatus where
  | completed
  | failed (step : Nat) (failure : StepFailure)
deriving DecidableEq, Repr

/-- What the sink gets for a record. -/
structure RecordResult where
  recordId : Nat
  inputRef : String
  status : RecordStatus
  record : Record
  flagReasons : List String
  ruleErrors : List Rule.EvaluationError

/-- What a result says of the status. -/
def RecordStatus.members : RecordStatus → List (String × Json)
  | completed => [("status", .str "completed")]
  | failed step failure =>
    [("status", .str "failed"), ("step", .int step), ("reason", .str failure.message)]

/-- The written form of the error of a rule. -/
def Rule.EvaluationError.toJson (e : Rule.EvaluationError) : Json :=
  .obj [("rule", .str e.rule), ("field", .str e.field), ("reason", .str e.obstacle.reason)]

namespace RecordResult

/-- Whether a rule has flagged the record. -/
def flagged (r : RecordResult) : Bool := !r.flagReasons.isEmpty

/-- The written form of a result. -/
def toJson (r : RecordResult) : Json :=
  .obj ([("record_id", .int r.recordId), ("input_ref", .str r.inputRef)] ++ r.status.members ++
    [("record", r.record.toJson), ("flagged", .bool r.flagged),
      ("flag_reasons", Json.ofTexts r.flagReasons),
      ("rule_errors", .arr (r.ruleErrors.map Rule.EvaluationError.toJson))])

end RecordResult

/-! ### Tasks -/

/-- A plan at work, and the name of the run. -/
structure Run where
  prepared : Prepared
  name : String

/-- A unit of input under its number. -/
structure Job where
  recordId : Nat
  input : String
  inputRef : String
deriving DecidableEq, Repr

/-- The job of a unit. -/
def Job.ofUnit (recordId : Nat) (unit : InputUnit) : Job :=
  ⟨recordId, unit.render, Digest.ofText unit.render⟩

/-- How a task has ended. -/
inductive Ending where
  | delivered (result : RecordResult)
  | auditFailed (message : String)
  | crashed

/-- A record between two attempts. -/
inductive Task where
  /-- The next attempt is for `step`, and `rest` comes after it. -/
  | calling (record : Record) (step : PreparedStep) (rest : List PreparedStep) (attempt : Nat)
  | ended (ending : Ending)

/-- The record with the value of a step. -/
def Record.merge (record : Record) (output : StepOutput) (v : Value) : Record :=
  match output, v with
  | .fields, .object fields => Keyed.extend record fields
  | .field name, v => Keyed.insert name v record
  -- only an object has fields
  | .fields, _ => record

/-- The texts of the rules that hold on a record. -/
def holding (rules : List PlannedRule) (record : Record) : List String :=
  rules.filterMap fun rule =>
    match rule.condition.evaluate rule.text record with
    | .ok true => some rule.text
    | _ => none

/-- The errors of the rules that have no answer on a record. -/
def failing (rules : List PlannedRule) (record : Record) : List Rule.EvaluationError :=
  rules.filterMap fun rule =>
    match rule.condition.evaluate rule.text record with
    | .error e => some e
    | .ok _ => none

namespace Task

/-- The result of a record whose steps all have their values. -/
def complete (run : Run) (job : Job) (record : Record) : RecordResult where
  recordId := job.recordId
  inputRef := job.inputRef
  status := .completed
  record := record
  flagReasons := holding run.prepared.plan.rules record
  ruleErrors := failing run.prepared.plan.rules record

/-- The result of a record that has failed at a step. -/
def fail (job : Job) (record : Record) (step : Nat) (failure : StepFailure) : RecordResult where
  recordId := job.recordId
  inputRef := job.inputRef
  status := .failed step failure
  record := record
  flagReasons := []
  ruleErrors := []

/-- The task of a record that has the given steps before it. -/
def goOn (run : Run) (job : Job) (record : Record) : List PreparedStep → Task
  | [] => .ended (.delivered (complete run job record))
  | step :: rest => .calling record step rest 1

/-- The task of a unit. -/
def start (run : Run) (job : Job) : Task := goOn run job [] run.prepared.steps

/-- The task after an attempt that was entered into the log. -/
def settle (run : Run) (job : Job) (record : Record) (step : PreparedStep)
    (rest : List PreparedStep) (attempt : Nat) : Judgement → Task
  | .ok v => goOn run job (record.merge step.step.output v) rest
  | .error f =>
    if attempt < maxAttempts then .calling record step rest (attempt + 1)
    else .ended (.delivered (fail job record step.step.index f))

/-- The entry of an attempt. -/
def entry (run : Run) (job : Job) (step : PreparedStep) (attempt : Nat) (time : String)
    (answer : Answer) : AuditEntry :=
  let judgement := answer.judge step.step run.prepared.settings.timeoutMs
  { time
    run := run.name
    recordId := job.recordId
    step := step.step.index
    verb := step.step.verb
    attempt
    inputRef := job.inputRef
    rawResponse := answer.raw?
    outcome := judgement.outcome
    disposition := judgement.disposition attempt
    output := judgement.value?
    failure := judgement.failure? attempt }

variable {σ : Type}

/-- A call: nothing if it crashes. The reply is not waited for beyond the time of a call. -/
def invoke (env : Collaborators σ) (timeoutMs : Nat) (request : Request) (attempt : Nat) (s : σ) :
    Option Answer × σ :=
  let (delayMs, s) := env.call request attempt s
  if timeoutMs < delayMs then (some .timedOut, s)
  else
    match env.reply request attempt s with
    | (.text raw, s) => (some (.text raw), s)
    | (.transport m, s) => (some (.transport m), s)
    | (.crash, s) => (none, s)

/-- Makes one attempt. -/
def advance (env : Collaborators σ) (run : Run) (job : Job) : Task → σ → Task × σ
  | .ended ending, s => (.ended ending, s)
  | .calling record step rest attempt, s =>
    let timeoutMs := run.prepared.settings.timeoutMs
    let request := step.request job.recordId job.input record
    match invoke env timeoutMs request attempt s with
    | (none, s) => (.ended .crashed, s)
    | (some answer, s) =>
      -- an attempt that is not in the log does not count, whatever the answer
      match env.append (entry run job step attempt (env.now s) answer) s with
      | (some message, s) => (.ended (.auditFailed message), s)
      | (none, s) => (settle run job record step rest attempt (answer.judge step.step timeoutMs), s)

/-- Makes attempts, at most so many. -/
def advanceBy (env : Collaborators σ) (run : Run) (job : Job) : Nat → Task → σ → Task × σ
  | 0, t, s => (t, s)
  | n + 1, t, s =>
    let (t, s) := advance env run job t s
    advanceBy env run job n t s

/-- The attempts that a task may still need. -/
def attemptsLeft : Task → Nat
  | .ended _ => 0
  | .calling _ _ rest attempt => maxAttempts + 1 - attempt + maxAttempts * rest.length

/-- A task from its start to its end. -/
def process (env : Collaborators σ) (run : Run) (job : Job) (s : σ) : Task × σ :=
  let t := start run job
  advanceBy env run job t.attemptsLeft t s

end Task

end RecordInference
