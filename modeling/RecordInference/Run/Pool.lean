import RecordInference.Run.Record

/-!
# A run over many records

Units are read one after the other and become tasks, of which a bounded number is under way
at once. Three things stop the reading: the source is at its end, somebody has cancelled the
run, or a task could not be entered into the audit log. Tasks that are under way are always
carried to their end, and then settled: counted, and handed to the sink.

`Pool` is the state of a run, `Move` is what can happen next, and `Pool.step` is what then
happens. Which move comes when is left to a schedule, so the moves of different tasks and of
the reader may be mixed in any way. A move that is not possible changes nothing.
-/

set_option autoImplicit false

namespace RecordInference

/-- The counters of a run. -/
structure Summary where
  records : Nat := 0
  completed : Nat := 0
  failed : Nat := 0
  flagged : Nat := 0
  ruleErrors : Nat := 0
  sourceErrors : Nat := 0
  sinkErrors : Nat := 0
  cancelled : Bool := false
deriving DecidableEq, Repr

/-- The written form of the counters of a run. -/
def Summary.toJson (run : String) (s : Summary) : Json :=
  .obj [("run_id", .str run), ("records", .int s.records), ("completed", .int s.completed),
    ("failed", .int s.failed), ("flagged", .int s.flagged), ("rule_errors", .int s.ruleErrors),
    ("source_errors", .int s.sourceErrors), ("sink_errors", .int s.sinkErrors),
    ("cancelled", .bool s.cancelled)]

/-- Hands a result to the sink, and tells whether it was taken. A sink is assumed to return: it may
refuse a result, but it takes nothing down. -/
abbrev Sink (σ : Type) := RecordResult → σ → Bool × σ

/-- What a source yields: units, and failures to read one. A source is assumed to return whenever it
is asked: it may fail to read a unit, but it takes nothing down. -/
abbrev Source := List (Except String InputUnit)

/-- What the reader of a run is about to do. -/
inductive Phase where
  /-- To find room for one more task. -/
  | admitting
  /-- To read a unit. -/
  | reading
  /-- To wait for the tasks that are under way. -/
  | draining
deriving DecidableEq, Repr

/-- The state of a run. -/
structure Pool where
  phase : Phase := .admitting
  source : Source
  /-- How often the source was asked for a unit. -/
  reads : Nat := 0
  /-- The number of the last task. -/
  admitted : Nat := 0
  /-- The tasks that are not settled. -/
  tasks : List (Job × Task) := []
  /-- Somebody wants the run to stop. -/
  cancelWanted : Bool := false
  /-- A task could not be entered into the audit log. -/
  halted : Bool := false
  /-- What the first such task to be settled has to say. -/
  fatal : Option String := none
  summary : Summary := {}

/-- What can happen in a run. -/
inductive Move where
  /-- The reader looks for room. -/
  | proceed
  /-- The reader asks the source for a unit. -/
  | read
  /-- A task makes an attempt. -/
  | advance (recordId : Nat)
  /-- A task that has ended is settled. -/
  | settle (recordId : Nat)
  /-- Somebody cancels the run. -/
  | cancel
deriving DecidableEq, Repr

/-- Whether a task has ended. -/
def Task.isEnded : Task → Bool
  | .ended _ => true
  | .calling _ _ _ _ => false

/-- Whether a task has ended because it could not be entered into the audit log. -/
def Task.isAuditFailure : Task → Bool
  | .ended (.auditFailed _) => true
  | _ => false

/-- The counters with a result, which the sink has taken or not. -/
def Summary.count (s : Summary) (result : RecordResult) (taken : Bool) : Summary :=
  { s with
    records := s.records + 1
    completed := if result.status = .completed then s.completed + 1 else s.completed
    failed := if result.status = .completed then s.failed else s.failed + 1
    flagged := if result.flagged then s.flagged + 1 else s.flagged
    ruleErrors := s.ruleErrors + result.ruleErrors.length
    sinkErrors := if taken then s.sinkErrors else s.sinkErrors + 1 }

namespace Pool

/-- The state before anything has happened. -/
def start (source : Source) : Pool := { source }

/-- The tasks that are under way. -/
def running (p : Pool) : List (Job × Task) := p.tasks.filter fun t => !t.2.isEnded

/-- The state in which no more units are read, because the run was cancelled. -/
def stopCancelled (p : Pool) : Pool :=
  { p with phase := .draining, summary := { p.summary with cancelled := true } }

/-- The reader looks for room, if nothing keeps it from going on. Room is a count of tasks, whatever
the `concurrency`: it is assumed that the semaphore which a runtime counts with can hold that many
permits. A runtime has a limit for them, far above the concurrency of any run that can be carried
out, which the settings do not check and which is left out here. -/
def proceed (concurrency : Nat) (p : Pool) : Pool :=
  -- a cancellation is noted after a failure of the log too, unless that failure is settled
  if p.fatal.isSome then { p with phase := .draining }
  else if p.cancelWanted then p.stopCancelled
  else if p.halted then { p with phase := .draining }
  else if p.running.length < concurrency then { p with phase := .reading }
  else p

/-- A unit becomes a task. -/
def spawn (run : Run) (unit : InputUnit) (p : Pool) : Pool :=
  let job := Job.ofUnit (p.admitted + 1) unit
  { p with
    phase := .admitting
    admitted := p.admitted + 1
    tasks := p.tasks ++ [(job, Task.start run job)] }

/-- The reader asks the source for a unit. A unit that comes after the run was stopped is
dropped. -/
def read (run : Run) (p : Pool) : Pool :=
  match p.source with
  | [] => { p with phase := .draining, reads := p.reads + 1 }
  | .error _ :: source =>
    { p with
      phase := .admitting, source, reads := p.reads + 1
      summary := { p.summary with sourceErrors := p.summary.sourceErrors + 1 } }
  | .ok unit :: source =>
    let p := { p with source, reads := p.reads + 1 }
    if p.cancelWanted then p.stopCancelled
    else if p.halted then { p with phase := .draining }
    else p.spawn run unit

/-- The task of a record makes an attempt, if it is under way. -/
def advanceTask {σ : Type} (env : Collaborators σ) (run : Run) (recordId : Nat) :
    List (Job × Task) → σ → List (Job × Task) × σ
  | [], s => ([], s)
  | (job, t) :: rest, s =>
    if job.recordId = recordId then
      let (t, s) := t.advance env run job s
      ((job, t) :: rest, s)
    else
      let (rest, s) := advanceTask env run recordId rest s
      ((job, t) :: rest, s)

/-- A task makes an attempt. -/
def advance {σ : Type} (env : Collaborators σ) (run : Run) (recordId : Nat) (p : Pool) (s : σ) :
    Pool × σ :=
  let (tasks, s) := advanceTask env run recordId p.tasks s
  ({ p with tasks, halted := p.halted || tasks.any fun t => t.2.isAuditFailure }, s)

/-- The end of a task is counted, and its result, if it has one, is handed to the sink. -/
def settleEnding {σ : Type} (sink : Sink σ) (ending : Ending) (p : Pool) (s : σ) : Pool × σ :=
  match ending with
  | .delivered result =>
    let (taken, s) := sink result s
    ({ p with summary := p.summary.count result taken }, s)
  | .auditFailed message =>
    -- a run breaks off with the message that comes first
    ({ p with fatal := match p.fatal with | some m => some m | none => some message }, s)
  -- a task that has crashed leaves no result to hand on
  | .crashed => ({ p with summary := { p.summary with failed := p.summary.failed + 1 } }, s)

/-- The end of the task of a record, if it has ended, and the other tasks. -/
def takeEnded (recordId : Nat) : List (Job × Task) → Option (Ending × List (Job × Task))
  | [] => none
  | (job, t) :: rest =>
    if job.recordId = recordId then
      match t with
      | .ended ending => some (ending, rest)
      | .calling _ _ _ _ => none
    else (takeEnded recordId rest).map fun (ending, rest) => (ending, (job, t) :: rest)

/-- A task that has ended is settled. The reader does so too, but not in the middle of
reading. -/
def settle {σ : Type} (sink : Sink σ) (recordId : Nat) (p : Pool) (s : σ) : Pool × σ :=
  if p.phase = .reading then (p, s)
  else
    match takeEnded recordId p.tasks with
    | none => (p, s)
    | some (ending, tasks) => settleEnding sink ending { p with tasks } s

/-- What a move changes. -/
def step {σ : Type} (env : Collaborators σ) (sink : Sink σ) (run : Run) (move : Move) (p : Pool)
    (s : σ) : Pool × σ :=
  match move with
  | .proceed =>
    if p.phase = .admitting then (p.proceed run.prepared.settings.concurrency, s) else (p, s)
  | .read => if p.phase = .reading then (p.read run, s) else (p, s)
  | .advance recordId => p.advance env run recordId s
  | .settle recordId => p.settle sink recordId s
  | .cancel => ({ p with cancelWanted := true }, s)

/-- What a schedule of moves changes. -/
def follow {σ : Type} (env : Collaborators σ) (sink : Sink σ) (run : Run) :
    List Move → Pool → σ → Pool × σ
  | [], p, s => (p, s)
  | move :: rest, p, s =>
    let (p, s) := p.step env sink run move s
    follow env sink run rest p s

/-- Whether the run is over. -/
def isOver (p : Pool) : Bool := p.phase = .draining && p.tasks.isEmpty

/-- What a run that is over has come to: its counters, or why it broke off. -/
def outcome (p : Pool) : Except String Summary :=
  match p.fatal with
  | some message => .error message
  | none => .ok p.summary

/-- The text of the failure of a run. -/
def auditFailure (message : String) : String := s!"audit log error: {message}"

/-! ### One task at a time -/

/-- The next move if every task is carried to its end and settled before another unit is read. -/
def nextInTurn (p : Pool) : Option Move :=
  match p.tasks, p.phase with
  | (job, t) :: _, _ => some (if t.isEnded then .settle job.recordId else .advance job.recordId)
  | [], .admitting => some .proceed
  | [], .reading => some .read
  | [], .draining => none

/-- Makes moves, at most so many, each as the state then demands. -/
def drive {σ : Type} (env : Collaborators σ) (sink : Sink σ) (run : Run)
    (choose : Pool → σ → Option Move) : Nat → Pool → σ → Pool × σ
  | 0, p, s => (p, s)
  | n + 1, p, s =>
    match choose p s with
    | none => (p, s)
    | some move =>
      let (p, s) := p.step env sink run move s
      drive env sink run choose n p s

/-- Enough moves to carry a run to its end one task at a time, a cancellation included. -/
def enoughMoves (run : Run) (source : Source) : Nat :=
  (source.length + 1) * (maxAttempts * run.prepared.steps.length + 3) + 2

end Pool

end RecordInference
