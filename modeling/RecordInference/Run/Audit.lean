import RecordInference.Plan.Basic
import RecordInference.Response.Validation

/-!
# The audit trail

Every attempt of a step is entered into a log: what came back, what became of it, and what
follows. The log has one line for each entry, and is only ever appended to.
-/

set_option autoImplicit false

namespace RecordInference

/-- What came of an attempt. -/
inductive AttemptOutcome where
  | valid
  | invalid (violations : List Violation)
  | transport (message : String)
  | timedOut (afterMs : Nat)
deriving DecidableEq, Repr

/-- What follows an attempt: the value is kept, the same request goes out again, or the step
has failed. -/
inductive Disposition where
  | valid
  | retry
  | terminal
deriving DecidableEq, Repr

/-- The word for a disposition in messages. -/
def Disposition.word : Disposition → String
  | valid => "VALID"
  | retry => "RETRY"
  | terminal => "TERMINAL"

/-- The word for a disposition in written forms. -/
def Disposition.tag : Disposition → String
  | valid => "valid"
  | retry => "retry"
  | terminal => "terminal"

/-- An entry of the log. -/
structure AuditEntry where
  time : String
  run : String
  recordId : Nat
  /-- The index of the step. -/
  step : Nat
  verb : Verb
  /-- Attempts of a step count from one. -/
  attempt : Nat
  /-- The digest of the input. -/
  inputRef : String
  rawResponse : Option String
  outcome : AttemptOutcome
  disposition : Disposition
  output : Option Value
  failure : Option String

/-- The written form of a violation. -/
def Violation.toJson (v : Violation) : Json :=
  .obj [("path", .str v.path), ("expected", .str v.expected), ("actual", .str v.actual)]

/-- What an entry says of the outcome. -/
def AttemptOutcome.members : AttemptOutcome → List (String × Json)
  | valid => [("result", .str "valid")]
  | invalid violations =>
    [("result", .str "invalid"), ("violations", .arr (violations.map Violation.toJson))]
  | transport message => [("result", .str "transport"), ("message", .str message)]
  | timedOut afterMs => [("result", .str "timed_out"), ("after_ms", .int afterMs)]

namespace AuditEntry

/-- The written form of an entry. -/
def toJson (e : AuditEntry) : Json :=
  .obj ([("ts", .str e.time), ("run_id", .str e.run), ("record_id", .int e.recordId),
      ("step", .int e.step), ("verb", .str e.verb.tag), ("attempt", .int e.attempt),
      ("input_ref", .str e.inputRef), ("raw_response", Json.ofOption .str e.rawResponse)] ++
    e.outcome.members ++
    [("disposition", .str e.disposition.tag), ("output", Json.ofOption Value.toJson e.output),
      ("failure", Json.ofOption .str e.failure)])

/-- The line of an entry in the log, without its end. -/
def line (e : AuditEntry) : String := e.toJson.compact

end AuditEntry

/-- The entries of one record, in the order of the log. -/
def entriesOf (recordId : Nat) (log : List AuditEntry) : List AuditEntry :=
  log.filter fun e => e.recordId = recordId

/-- The text that appending an entry adds to the file of the log. -/
def AuditEntry.written (e : AuditEntry) : String := e.line ++ "\n"

/-- The file of a log after entries were appended to it. -/
def appendAll (file : String) (entries : List AuditEntry) : String :=
  entries.foldl (fun file e => file ++ e.written) file

/-- What happens to the file of a log: the log is opened, or an entry is appended through a log that
is open. -/
inductive LogEvent where
  | opened
  | appended (entry : AuditEntry)

namespace LogEvent

/-- The entry that is appended. -/
def entry? : LogEvent → Option AuditEntry
  | opened => none
  | appended entry => some entry

/-- The file after an event, if there is one. Opening a log makes an empty file where there is none,
and keeps what is there. -/
def after (file : Option String) : LogEvent → Option String
  | opened => some (file.getD "")
  | appended entry => file.map (· ++ entry.written)

/-- The file that events leave where there was none. -/
def file (events : List LogEvent) : Option String := events.foldl after none

end LogEvent

end RecordInference
