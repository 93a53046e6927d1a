import RecordInference.Run.Pool

/-!
# Rehearsals

A run without a model: the client answers from a script, the log and the sink are lists in
memory. What can go wrong is part of the conditions of a rehearsal, so that it can be tried
out: calls that fail, take too long or crash, a log that cannot be written any more, a sink
that refuses results, a cancellation at a chosen moment.
-/

set_option autoImplicit false

namespace RecordInference

/-- A reply, and the time that it takes. -/
structure TimedReply where
  reply : Reply
  delayMs : Nat
deriving DecidableEq, Repr

/-- What a scripted client replies. -/
inductive Script where
  /-- The same text always. -/
  | always (text : String) (delayMs : Nat)
  /-- One reply after the other, whatever is asked; the last one again and again. A call that
  is not waited for uses none up. -/
  | sequence (replies : List Reply) (delayMs : Nat)
  /-- For each record its replies, one for each of its calls. The last list also serves the
  records after it, and the last reply of a list the calls after it. -/
  | perRecord (replies : List (List TimedReply))
deriving DecidableEq, Repr

/-- The element at a position, or the last one if there are not so many. -/
def atOrLast {α : Type} (xs : List α) (i : Nat) : Option α :=
  match xs[i]? with
  | some x => some x
  | none => xs.getLast?

/-- What a script without replies has to say. -/
def exhausted : Reply := .transport "script exhausted"

/-- What was done in a rehearsal. -/
structure Rehearsal where
  /-- The calls that were begun. -/
  requests : List Request := []
  /-- How many calls were waited for. -/
  answered : Nat := 0
  log : List AuditEntry := []
  results : List RecordResult := []

/-- The moment at which a run is cancelled. -/
inductive CancelPoint where
  /-- Before it has started. -/
  | before
  /-- While the source is asked for a unit, the given time. -/
  | atRead (n : Nat)
  /-- When a call begins, the given one of all calls. -/
  | atCall (n : Nat)
deriving DecidableEq, Repr

/-- The conditions of a rehearsal. -/
structure Conditions where
  script : Script
  /-- The first append to the log that fails, counted from one. -/
  failFrom : Option Nat := none
  /-- What the log says then. -/
  failText : String := ""
  /-- The records whose results the sink refuses. -/
  refused : List Nat := []
  cancel : Option CancelPoint := none
  /-- What the clock always shows. -/
  time : String := ""

namespace Rehearsal

/-- The number of calls that a record has begun. -/
def callsOf (r : Rehearsal) (recordId : Nat) : Nat :=
  r.requests.countP fun request => request.recordId = recordId

/-- The reply to a call of a record, which has begun so many before it. -/
def scripted (script : List (List TimedReply)) (recordId earlier : Nat) : TimedReply :=
  ((atOrLast script (recordId - 1)).bind fun replies => atOrLast replies earlier).getD
    ⟨exhausted, 0⟩

/-- A call begins. -/
def call (script : Script) (request : Request) (r : Rehearsal) : Nat × Rehearsal :=
  let delayMs := match script with
    | .always _ delayMs => delayMs
    | .sequence _ delayMs => delayMs
    | .perRecord replies =>
      (scripted replies request.recordId (r.callsOf request.recordId)).delayMs
  (delayMs, { r with requests := r.requests ++ [request] })

/-- A call is replied to. -/
def reply (script : Script) (request : Request) (r : Rehearsal) : Reply × Rehearsal :=
  let reply := match script with
    | .always text _ => .text text
    | .sequence replies _ => (atOrLast replies r.answered).getD exhausted
    | .perRecord replies =>
      (scripted replies request.recordId (r.callsOf request.recordId - 1)).reply
  (reply, { r with answered := r.answered + 1 })

/-- An entry is appended to the log, or not. -/
def append (failFrom : Option Nat) (failText : String) (entry : AuditEntry) (r : Rehearsal) :
    Option String × Rehearsal :=
  match failFrom with
  | some n => if n ≤ r.log.length + 1 then (some failText, r)
      else (none, { r with log := r.log ++ [entry] })
  | none => (none, { r with log := r.log ++ [entry] })

end Rehearsal

namespace Conditions

/-- The collaborators of a rehearsal. -/
def collaborators (c : Conditions) : Collaborators Rehearsal where
  call request _ r := r.call c.script request
  reply request _ r := r.reply c.script request
  append entry r := r.append c.failFrom c.failText entry
  now _ := c.time

/-- The sink of a rehearsal. -/
def sink (c : Conditions) : Sink Rehearsal := fun result r =>
  if result.recordId ∈ c.refused then (false, r)
  else (true, { r with results := r.results ++ [result] })

/-- Whether the moment of cancellation has come. -/
def cancelIsDue (c : Conditions) (p : Pool) (r : Rehearsal) : Bool :=
  match c.cancel with
  | none => false
  | some .before => true
  | some (.atRead n) => p.phase = .reading && p.reads + 1 = n
  | some (.atCall n) => n ≤ r.requests.length

/-- The next move of a rehearsal: one task at a time, and a cancellation when it is due. -/
def next (c : Conditions) (p : Pool) (r : Rehearsal) : Option Move :=
  if !p.cancelWanted && c.cancelIsDue p r then some .cancel else p.nextInTurn

/-- A run under the conditions. -/
def rehearse (c : Conditions) (run : Run) (source : Source) : Pool × Rehearsal :=
  Pool.drive c.collaborators c.sink run c.next (Pool.enoughMoves run source) (Pool.start source) {}

/-- A single unit under the conditions, outside of any run over a source. -/
def rehearseUnit (c : Conditions) (run : Run) (unit : InputUnit) : Task × Rehearsal :=
  Task.process c.collaborators run (Job.ofUnit 1 unit) {}

end Conditions

/-- The name of a run: its label, if it has one, and the digits that tell it apart. -/
def runName (label : Option String) (digits : String) : String :=
  match label with
  | some l => l ++ "-r-" ++ digits
  | none => "r-" ++ digits

end RecordInference
