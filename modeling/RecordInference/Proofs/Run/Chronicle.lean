import Mathlib.Data.List.Induction
import RecordInference.Proofs.Run.Pool
import RecordInference.Proofs.Run.Protocol

/-!
# What a run does

The `chronicle` of a run is what it does under a schedule, act after act: the units that it admits,
the calls and entries of its tasks, the tasks that it settles and the results that it hands on. It is
kept by a world outside and a sink that write down what they are asked for beside their own state
(`Collaborators.recorded`, `Sink.recorded`).

`Happens` says once what a move can do, with all that it needs. A run that has made some moves is
`Reached`, so what holds of every run at any time is an induction over the things that can happen.
-/

set_option autoImplicit false

namespace RecordInference

/-- What a run does. -/
inductive Act where
  /-- A unit became a task. -/
  | admitted (job : Job)
  | called (request : Request) (attempt : Nat)
  /-- The client took a task down with it. -/
  | crashed (request : Request) (attempt : Nat)
  /-- An entry went to the log, which may have refused it. -/
  | appended (entry : AuditEntry) (fault : Option String)
  | settled (job : Job) (ending : Ending)
  /-- A result went to the sink, which may not have taken it. -/
  | handed (result : RecordResult) (taken : Bool)

variable {σ : Type}

/-- The same world outside, with what it is asked for beside its state. -/
def Collaborators.recorded (env : Collaborators σ) : Collaborators (σ × List Act) where
  call request attempt s :=
    let (delayMs, s') := env.call request attempt s.1
    (delayMs, s', s.2 ++ [.called request attempt])
  reply request attempt s :=
    let (reply, s') := env.reply request attempt s.1
    (reply, s', if reply = .crash then s.2 ++ [.crashed request attempt] else s.2)
  append entry s :=
    let (fault, s') := env.append entry s.1
    (fault, s', s.2 ++ [.appended entry fault])
  now s := env.now s.1

theorem Collaborators.append_recorded (env : Collaborators σ) (entry : AuditEntry) (s : σ)
    (acts : List Act) : env.recorded.append entry (s, acts) =
      ((env.append entry s).1, (env.append entry s).2,
        acts ++ [.appended entry (env.append entry s).1]) := rfl

theorem Collaborators.now_recorded (env : Collaborators σ) (s : σ) (acts : List Act) :
    env.recorded.now (s, acts) = env.now s := rfl

/-- The same sink, with what it is handed beside its state. -/
def Sink.recorded (sink : Sink σ) : Sink (σ × List Act) := fun result s =>
  let (taken, s') := sink result s.1
  (taken, s', s.2 ++ [.handed result taken])

namespace Pool

/-- The task that a move settles. -/
def settledBy (p : Pool) : Move → List Act
  | .settle recordId =>
    if p.phase = .reading then []
    else
      match p.tasks.find? fun e => e.1.recordId = recordId with
      | some (job, .ended ending) => [.settled job ending]
      | _ => []
  | _ => []

/-- What a run does with a move. -/
def acts (env : Collaborators σ) (sink : Sink σ) (run : Run) (move : Move) (p : Pool) (s : σ) :
    List Act :=
  let (after, _, did) := p.step env.recorded sink.recorded run move (s, [])
  (after.tasks.drop p.tasks.length).map (fun e => .admitted e.1) ++ p.settledBy move ++ did

/-- What a run does under a schedule. -/
def chronicle (env : Collaborators σ) (sink : Sink σ) (run : Run) :
    List Move → Pool → σ → List Act
  | [], _, _ => []
  | move :: rest, p, s =>
    let (p', s') := p.step env sink run move s
    p.acts env sink run move s ++ chronicle env sink run rest p' s'

end Pool

/-! ### What an attempt does -/

/-- What an attempt makes of a task, and what it does. -/
inductive Attempted (env : Collaborators σ) (run : Run) (job : Job) (record : Record)
    (step : PreparedStep) (rest : List PreparedStep) (attempt : Nat) : Task → List Act → Prop where
  | crashed (request : Request) (s : σ) :
      request.recordId = job.recordId → (env.reply request attempt s).1 = .crash →
      Attempted env run job record step rest attempt (.ended .crashed)
        [.called request attempt, .crashed request attempt]
  | refused (request : Request) (entry : AuditEntry) (message : String) (s : σ) :
      request.recordId = job.recordId → entry.recordId = job.recordId →
      (env.append entry s).1 = some message →
      Attempted env run job record step rest attempt (.ended (.auditFailed message))
        [.called request attempt, .appended entry (some message)]
  | entered (request : Request) (entry : AuditEntry) (judgement : Judgement) :
      request.recordId = job.recordId → entry.recordId = job.recordId →
      Attempted env run job record step rest attempt
        (Task.settle run job record step rest attempt judgement)
        [.called request attempt, .appended entry none]

namespace Task

theorem invoke_recorded (env : Collaborators σ) (timeoutMs : Nat) (request : Request)
    (attempt : Nat) (s : σ) :
    (∃ s' s'', invoke env timeoutMs request attempt s = (none, s') ∧
      (∀ acts, invoke env.recorded timeoutMs request attempt (s, acts) =
        (none, s', acts ++ [.called request attempt, .crashed request attempt])) ∧
      (env.reply request attempt s'').1 = .crash) ∨
    ∃ answer s', invoke env timeoutMs request attempt s = (some answer, s') ∧
      ∀ acts, invoke env.recorded timeoutMs request attempt (s, acts) =
        (some answer, s', acts ++ [.called request attempt]) := by
  rcases called : env.call request attempt s with ⟨delayMs, s'⟩
  rcases replied : env.reply request attempt s' with ⟨reply, s''⟩
  simp only [invoke, Collaborators.recorded, called, replied]
  -- a call that is late is given up before its reply, so it takes nothing down
  by_cases late : timeoutMs < delayMs
  · simp only [if_pos late]
    exact Or.inr ⟨_, _, rfl, fun _ => rfl⟩
  · simp only [if_neg late]
    cases reply with
    | text | transport => exact Or.inr ⟨_, _, rfl, fun _ => rfl⟩
    | crash =>
        refine Or.inl ⟨_, s', rfl, fun acts => ?_, congrArg Prod.fst replied⟩
        rw [if_pos rfl, List.append_assoc, List.singleton_append]

/-- An attempt of a recorded task is the attempt of the task, and what it does is recorded. -/
theorem attempted_advance (env : Collaborators σ) (run : Run) (job : Job) (record : Record)
    (step : PreparedStep) (rest : List PreparedStep) (attempt : Nat) (s : σ) :
    ∃ t s' new, advance env run job (.calling record step rest attempt) s = (t, s') ∧
      (∀ acts, advance env.recorded run job (.calling record step rest attempt) (s, acts) =
        (t, s', acts ++ new)) ∧ Attempted env run job record step rest attempt t new := by
  have called := invoke_recorded env run.prepared.settings.timeoutMs
    (step.request job.recordId job.input record) attempt s
  rcases called with ⟨s', s'', invoked, recorded, crash⟩ | ⟨answer, s', invoked, recorded⟩
  · refine ⟨.ended .crashed, s', _, ?_, ?_, .crashed _ s'' rfl crash⟩
    · simp only [advance, invoked]
    · intro acts
      simp only [advance, recorded]
  · -- a call that was answered has an entry, which the log may refuse
    have log := env.append_recorded (entry run job step attempt (env.now s') answer) s'
    rcases appended : env.append (entry run job step attempt (env.now s') answer) s'
      with ⟨fault, s''⟩
    simp only [appended] at log
    cases fault with
    | none =>
        refine ⟨settle run job record step rest attempt
            (answer.judge step.step run.prepared.settings.timeoutMs), s'', _, ?_, ?_,
          .entered (step.request job.recordId job.input record)
            (entry run job step attempt (env.now s') answer) _ rfl rfl⟩
        · simp only [advance, invoked, appended]
        · intro acts
          simp only [advance, recorded, Collaborators.now_recorded, log, List.append_assoc,
            List.singleton_append]
    | some message =>
        refine ⟨.ended (.auditFailed message), s'', _, ?_, ?_,
          .refused (step.request job.recordId job.input record) _ message s' rfl rfl
            (congrArg Prod.fst appended)⟩
        · simp only [advance, invoked, appended]
        · intro acts
          simp only [advance, recorded, Collaborators.now_recorded, log, List.append_assoc,
            List.singleton_append]

end Task

namespace Pool

variable {env : Collaborators σ} {sink : Sink σ} {run : Run}

theorem advanceTask_recorded (env : Collaborators σ) (run : Run) (recordId : Nat)
    (tasks : List (Job × Task)) (s : σ) :
    (advanceTask env run recordId tasks s = (tasks, s) ∧
      ∀ acts, advanceTask env.recorded run recordId tasks (s, acts) = (tasks, s, acts)) ∨
    ∃ before job record step rest attempt after t s' new,
      tasks = before ++ (job, .calling record step rest attempt) :: after ∧
      advanceTask env run recordId tasks s = (before ++ (job, t) :: after, s') ∧
      (∀ acts, advanceTask env.recorded run recordId tasks (s, acts) =
        (before ++ (job, t) :: after, s', acts ++ new)) ∧
      Attempted env run job record step rest attempt t new := by
  induction tasks with
  | nil => exact Or.inl ⟨rfl, fun _ => rfl⟩
  | cons first others ih =>
      obtain ⟨job, t⟩ := first
      simp only [advanceTask]
      by_cases here : job.recordId = recordId
      · simp only [if_pos here]
        cases t with
        | ended ending => exact Or.inl ⟨rfl, fun _ => rfl⟩
        | calling record step rest attempt =>
            obtain ⟨t', s', new, made, recorded, attempted⟩ :=
              Task.attempted_advance env run job record step rest attempt s
            refine Or.inr ⟨[], job, record, step, rest, attempt, others, t', s', new, rfl, ?_, ?_,
              attempted⟩
            · rw [made]
              rfl
            · intro acts
              rw [recorded]
              rfl
      · simp only [if_neg here]
        rcases ih with ⟨same, recorded⟩ | ⟨before, job', record, step, rest, attempt, after, t', s',
          new, rfl, made, recorded, attempted⟩
        · simp only [same, recorded]
          exact Or.inl ⟨trivial, fun _ => trivial⟩
        · refine Or.inr ⟨(job, t) :: before, job', record, step, rest, attempt, after, t', s', new,
            rfl, ?_, ?_, attempted⟩
          · rw [made]
            rfl
          · intro acts
            rw [recorded]
            rfl

theorem takeEnded_eq_some {recordId : Nat} {tasks rest : List (Job × Task)} {ending : Ending}
    (h : takeEnded recordId tasks = some (ending, rest)) : ∃ before job after,
      tasks = before ++ (job, .ended ending) :: after ∧ rest = before ++ after ∧
      tasks.find? (fun e => e.1.recordId = recordId) = some (job, .ended ending) := by
  induction tasks generalizing rest with
  | nil => cases h
  | cons first later ih =>
      obtain ⟨job, t⟩ := first
      simp only [takeEnded] at h
      split at h
      · next here =>
        cases t with
        | calling => cases h
        | ended ending' =>
            cases h
            refine ⟨[], job, later, rfl, rfl, ?_⟩
            simp only [List.find?_cons, here, decide_true]
      · next other =>
        obtain ⟨⟨ending', rest'⟩, taken, eq⟩ := Option.map_eq_some_iff.1 h
        cases eq
        obtain ⟨before, job', after, rfl, rfl, found⟩ := ih taken
        refine ⟨(job, t) :: before, job', after, rfl, rfl, ?_⟩
        simpa only [List.find?_cons, other, decide_false] using found

theorem takeEnded_eq_none {recordId : Nat} {tasks : List (Job × Task)}
    (h : takeEnded recordId tasks = none) (job : Job) (ending : Ending) :
    tasks.find? (fun e => e.1.recordId = recordId) ≠ some (job, .ended ending) := by
  induction tasks with
  | nil =>
      intro found
      cases found
  | cons first later ih =>
      obtain ⟨job', t⟩ := first
      simp only [takeEnded] at h
      split at h
      · next here =>
        simp only [List.find?_cons, here, decide_true]
        cases t with
        | calling =>
            intro found
            cases found
        | ended => cases h
      · next other =>
        simpa only [List.find?_cons, other, decide_false] using ih (Option.map_eq_none_iff.1 h)

/-! ### What a move does -/

/-- What the reader makes of a run without admitting a unit. -/
inductive Reads (concurrency : Nat) : Pool → Pool → Prop where
  | room {p : Pool} :
      p.phase = .admitting → p.cancelWanted = false → p.halted = false →
      p.running.length < concurrency → Reads concurrency p { p with phase := .reading }
  | closed {p : Pool} : p.phase = .admitting → p.fatal.isSome = true ∨ p.halted = true →
      Reads concurrency p { p with phase := .draining }
  | stopped {p : Pool} : p.phase = .admitting → p.cancelWanted = true →
      Reads concurrency p p.stopCancelled
  | exhausted {p : Pool} : p.phase = .reading → p.source = [] →
      Reads concurrency p { p with phase := .draining, reads := p.reads + 1 }
  | skipped {p : Pool} (message : String) (source : Source) :
      p.phase = .reading → p.source = .error message :: source →
      Reads concurrency p
        { p with
          phase := .admitting, source, reads := p.reads + 1
          summary := { p.summary with sourceErrors := p.summary.sourceErrors + 1 } }
  | droppedCancelled {p : Pool} (unit : InputUnit) (source : Source) :
      p.phase = .reading → p.source = .ok unit :: source → p.cancelWanted = true →
      Reads concurrency p (stopCancelled { p with source, reads := p.reads + 1 })
  | droppedHalted {p : Pool} (unit : InputUnit) (source : Source) :
      p.phase = .reading → p.source = .ok unit :: source → p.halted = true →
      Reads concurrency p { p with phase := .draining, source, reads := p.reads + 1 }

/-- What the end of a task makes of a run that has given the task up, and what the run does. -/
inductive Settles : Ending → Pool → Pool → List Act → Prop where
  | delivered {p : Pool} (result : RecordResult) (taken : Bool) :
      Settles (.delivered result) p { p with summary := p.summary.count result taken }
        [.handed result taken]
  | failed {p : Pool} (message : String) :
      Settles (.auditFailed message) p { p with fatal := p.fatal.or (some message) } []
  | lost {p : Pool} :
      Settles .crashed p { p with summary := { p.summary with failed := p.summary.failed + 1 } } []

/-- What a move makes of a run, and what the run does with it. -/
inductive Happens (env : Collaborators σ) (run : Run) : Move → Pool → Pool → List Act → Prop where
  | idle {move : Move} {p : Pool} : Happens env run move p p []
  | cancelled {p : Pool} : Happens env run .cancel p { p with cancelWanted := true } []
  | reads {move : Move} {p p' : Pool} :
      Reads run.prepared.settings.concurrency p p' → Happens env run move p p' []
  | spawned {p : Pool} (unit : InputUnit) (source : Source) :
      p.phase = .reading → p.source = .ok unit :: source → p.cancelWanted = false →
      p.halted = false →
      Happens env run .read p (spawn run unit { p with source, reads := p.reads + 1 })
        [.admitted (Job.ofUnit (p.admitted + 1) unit)]
  | attempted {recordId : Nat} {p : Pool} {before after : List (Job × Task)} {job : Job}
      {record : Record} {step : PreparedStep} {rest : List PreparedStep} {attempt : Nat} {t : Task}
      {new : List Act} :
      p.tasks = before ++ (job, .calling record step rest attempt) :: after →
      Attempted env run job record step rest attempt t new →
      Happens env run (.advance recordId) p
        { p with
          tasks := before ++ (job, t) :: after
          halted := p.halted || t.isAuditFailure } new
  | settled {recordId : Nat} {p p' : Pool} {before after : List (Job × Task)} {job : Job}
      {ending : Ending} {new : List Act} :
      p.phase ≠ .reading → p.tasks = before ++ (job, .ended ending) :: after →
      Settles ending { p with tasks := before ++ after } p' new →
      Happens env run (.settle recordId) p p' (.settled job ending :: new)

/-- What a move of the reader leaves as it is. -/
theorem Reads.frame {concurrency : Nat} {p p' : Pool} (h : Reads concurrency p p') :
    p'.tasks = p.tasks ∧ p'.admitted = p.admitted ∧ p'.cancelWanted = p.cancelWanted ∧
      p'.halted = p.halted ∧ p'.fatal = p.fatal := by
  cases h with
  | room | closed | stopped | exhausted | skipped | droppedCancelled | droppedHalted =>
      exact ⟨rfl, rfl, rfl, rfl, rfl⟩

/-- What the end of a task leaves as it is. -/
theorem Settles.frame {ending : Ending} {p p' : Pool} {new : List Act}
    (h : Settles ending p p' new) :
    p'.phase = p.phase ∧ p'.source = p.source ∧ p'.admitted = p.admitted ∧ p'.tasks = p.tasks ∧
      p'.cancelWanted = p.cancelWanted ∧ p'.halted = p.halted ∧
      p'.summary.sourceErrors = p.summary.sourceErrors ∧
      p'.summary.cancelled = p.summary.cancelled := by
  cases h with
  | delivered | failed | lost => exact ⟨rfl, rfl, rfl, rfl, rfl, rfl, rfl, rfl⟩

/-- Whether a run knows of the tasks that could not be entered into the log. -/
def Noted (p : Pool) : Prop := ∀ e ∈ p.tasks, e.2.isAuditFailure = true → p.halted = true

theorem happens_proceed (p : Pool) (admitting : p.phase = .admitting) :
    Happens env run .proceed p (p.proceed run.prepared.settings.concurrency) [] := by
  rw [proceed]
  split
  · next fatal => exact .reads (.closed admitting (Or.inl fatal))
  · split
    · next wanted => exact .reads (.stopped admitting wanted)
    · next unwanted =>
      split
      · next halted => exact .reads (.closed admitting (Or.inr halted))
      · next unhalted =>
        split
        · next room =>
          exact .reads (.room admitting (by simpa using unwanted) (by simpa using unhalted) room)
        · exact .idle

theorem happens_read (p : Pool) (reading : p.phase = .reading) :
    Happens env run .read p (p.read run)
      (((p.read run).tasks.drop p.tasks.length).map fun e => .admitted e.1) := by
  -- the cases are those of the reader: no unit, a unit that cannot be read, a unit
  obtain ⟨phase, source, reads, admitted, tasks, cancelWanted, halted, fatal, summary⟩ := p
  rcases source with _ | ⟨unread | unit, source⟩
  · simp only [read, List.drop_length, List.map_nil]
    exact .reads (.exhausted reading rfl)
  · simp only [read, List.drop_length, List.map_nil]
    exact .reads (.skipped unread source reading rfl)
  · cases cancelWanted with
    | true =>
        simp only [read, if_true, stopCancelled, List.drop_length, List.map_nil]
        exact .reads (.droppedCancelled unit source reading rfl rfl)
    | false =>
        cases halted with
        | true =>
            simp only [read, Bool.false_eq_true, if_false, if_true, List.drop_length, List.map_nil]
            exact .reads (.droppedHalted unit source reading rfl rfl)
        | false =>
            simp only [read, Bool.false_eq_true, if_false, spawn, List.drop_left, List.map_cons,
              List.map_nil]
            exact .spawned unit source reading rfl rfl rfl

theorem Noted.any_eq {p : Pool} (noted : p.Noted) :
    (p.halted || p.tasks.any fun e => e.2.isAuditFailure) = p.halted := by
  cases failing : p.tasks.any fun e => e.2.isAuditFailure with
  | false => exact Bool.or_false _
  | true =>
      obtain ⟨e, member, failed⟩ := List.any_eq_true.1 failing
      rw [noted e member failed]
      rfl

theorem happens_advance (env : Collaborators σ) (run : Run) {p : Pool} (noted : p.Noted)
    (recordId : Nat) (s : σ) : ∃ p' s' new,
    p.advance env run recordId s = (p', s') ∧
      p.advance env.recorded run recordId (s, []) = (p', s', new) ∧
      p'.tasks.length = p.tasks.length ∧ Happens env run (.advance recordId) p p' new := by
  rcases advanceTask_recorded env run recordId p.tasks s with ⟨same, recorded⟩ |
    ⟨before, job, record, step, rest, attempt, after, t, s', new, split, made, recorded, attempted⟩
  · refine ⟨p, s, [], ?_, ?_, rfl, .idle⟩
    · simp only [advance, same, noted.any_eq]
    · simp only [advance, recorded, noted.any_eq]
  · -- an earlier refusal is noted already, so the only new one is that of the task
    have halted : (p.halted || (before ++ (job, t) :: after).any fun e => e.2.isAuditFailure) =
        (p.halted || t.isAuditFailure) := by
      have others := noted.any_eq
      have calling : (Task.calling record step rest attempt).isAuditFailure = false := rfl
      rw [split] at others
      simp only [List.any_append, List.any_cons, calling] at others ⊢
      generalize before.any (fun e => e.2.isAuditFailure) = failing at others ⊢
      generalize after.any (fun e => e.2.isAuditFailure) = failing' at others ⊢
      generalize t.isAuditFailure = failed
      generalize p.halted = halted at others ⊢
      revert failing failing' failed halted
      decide
    refine ⟨_, s', new, ?_, ?_, ?_, .attempted split attempted⟩
    · simp only [advance, made, halted]
    · simp only [advance, recorded, halted, List.nil_append]
    · rw [split, List.length_append, List.length_append]
      rfl

theorem happens_settle (env : Collaborators σ) (sink : Sink σ) (run : Run) (p : Pool)
    (recordId : Nat) (s : σ) : ∃ p' s' new,
    p.settle sink recordId s = (p', s') ∧
      p.settle sink.recorded recordId (s, []) = (p', s', new) ∧
      p'.tasks.length ≤ p.tasks.length ∧
      Happens env run (.settle recordId) p p' (p.settledBy (.settle recordId) ++ new) := by
  by_cases reading : p.phase = .reading
  · refine ⟨p, s, [], if_pos reading, if_pos reading, Nat.le_refl _, ?_⟩
    rw [settledBy, if_pos reading]
    exact .idle
  · simp only [settle, settledBy, if_neg reading]
    cases taken : takeEnded recordId p.tasks with
    | none =>
        refine ⟨p, s, [], rfl, rfl, Nat.le_refl _, ?_⟩
        -- no task of this number has ended, so nothing is settled
        have others := takeEnded_eq_none taken
        split
        · next found => exact absurd found (others _ _)
        · exact .idle
    | some ended =>
        obtain ⟨ending, rest⟩ := ended
        obtain ⟨before, job, after, split, rfl, found⟩ := takeEnded_eq_some taken
        have fewer : (before ++ after).length ≤ p.tasks.length := by
          rw [split, List.length_append, List.length_append, List.length_cons]
          omega
        simp only [found]
        cases ending with
        | delivered result =>
            rcases handed : sink result s with ⟨took, s'⟩
            refine ⟨_, s', [.handed result took], ?_, ?_, fewer,
              .settled reading split (.delivered result took)⟩
            · simp only [settleEnding, handed]
            · simp only [settleEnding, Sink.recorded, handed, List.nil_append]
        | auditFailed message =>
            refine ⟨_, s, [], ?_, ?_, fewer, .settled reading split (.failed message)⟩
            · simp only [settleEnding]
              cases p.fatal with
              | none | some => rfl
            · simp only [settleEnding]
              cases p.fatal with
              | none | some => rfl
        | crashed => exact ⟨_, s, [], rfl, rfl, fewer, .settled reading split .lost⟩

/-- What a move does can happen. -/
theorem happens_step {p : Pool} (noted : p.Noted) (move : Move) (s : σ) :
    Happens env run move p (p.step env sink run move s).1 (p.acts env sink run move s) := by
  cases move with
  | proceed =>
      simp only [acts, step]
      split
      · next admitting =>
        rw [tasks_proceed, List.drop_length]
        exact happens_proceed p admitting
      · rw [List.drop_length]
        exact .idle
  | read =>
      simp only [acts, step, settledBy]
      split
      · next reading =>
        rw [List.append_nil, List.append_nil]
        exact happens_read p reading
      · rw [List.drop_length]
        exact .idle
  | advance recordId =>
      obtain ⟨p', s', new, made, recorded, same, happens⟩ :=
        happens_advance env run noted recordId s
      simp only [acts, step, made, recorded, settledBy]
      rw [List.drop_eq_nil_of_le (Nat.le_of_eq same)]
      exact happens
  | settle recordId =>
      obtain ⟨p', s', new, made, recorded, fewer, happens⟩ :=
        happens_settle env sink run p recordId s
      simp only [acts, step, made, recorded]
      rw [List.drop_eq_nil_of_le fewer]
      exact happens
  | cancel =>
      simp only [acts, step]
      rw [List.drop_length]
      exact .cancelled

/-! ### Runs -/

/-- A run on a source, the moves that it has made, and what it has done with them. -/
inductive Reached (env : Collaborators σ) (run : Run) (source : Source) :
    List Move → Pool → List Act → Prop where
  | start : Reached env run source [] (Pool.start source) []
  | move {moves : List Move} {move : Move} {p p' : Pool} {did new : List Act} :
      Reached env run source moves p did → Happens env run move p p' new →
      Reached env run source (moves ++ [move]) p' (did ++ new)

theorem Reached.noted {source : Source} {moves : List Move} {p : Pool} {did : List Act}
    (h : Reached env run source moves p did) : p.Noted := by
  induction h with
  | start => exact List.forall_mem_nil _
  | @move moves move p p' did new reached happens ih =>
      cases happens with
      | idle | cancelled => exact ih
      | reads reads =>
          obtain ⟨tasks, -, -, halted, -⟩ := reads.frame
          rw [Noted, tasks, halted]
          exact ih
      | spawned unit source reading left unwanted unhalted =>
          intro e member failed
          rcases List.mem_append.1 member with old | new
          · exact ih e old failed
          · -- the task of a unit does not start with an entry
            rw [List.mem_singleton.1 new] at failed
            simp only [Task.start] at failed
            cases all : run.prepared.steps with
            | nil =>
                rw [all] at failed
                cases failed
            | cons step rest =>
                rw [all] at failed
                cases failed
      | attempted split attempted =>
          -- only the task that was advanced may be new to refuse
          intro e member failed
          rw [Bool.or_eq_true]
          rcases List.mem_append.1 member with old | new
          · exact Or.inl (ih e (by rw [split]; exact List.mem_append_left _ old) failed)
          · rcases List.mem_cons.1 new with rfl | old
            · exact Or.inr failed
            · refine Or.inl (ih e ?_ failed)
              rw [split]
              exact List.mem_append_right _ (List.mem_cons_of_mem _ old)
      | settled reading split settles =>
          obtain ⟨-, -, -, tasks, -, halted, -⟩ := settles.frame
          rw [Noted, tasks, halted]
          intro e member
          apply ih e
          rw [split]
          exact ((List.sublist_cons_self _ _).append_left _).subset member

theorem follow_append (first second : List Move) (p : Pool) (s : σ) :
    follow env sink run (first ++ second) p s =
      follow env sink run second (follow env sink run first p s).1
        (follow env sink run first p s).2 := by
  induction first generalizing p s with
  | nil => rfl
  | cons move rest ih => exact ih _ _

theorem chronicle_append (first second : List Move) (p : Pool) (s : σ) :
    chronicle env sink run (first ++ second) p s = chronicle env sink run first p s ++
      chronicle env sink run second (follow env sink run first p s).1
        (follow env sink run first p s).2 := by
  induction first generalizing p s with
  | nil => rfl
  | cons move rest ih =>
      simp only [List.cons_append, chronicle, follow, ih, List.append_assoc]

/-- Every schedule leads to what can happen. -/
theorem reached_follow (env : Collaborators σ) (sink : Sink σ) (run : Run) (source : Source)
    (moves : List Move) (s : σ) : Reached env run source moves
      (follow env sink run moves (start source) s).1
      (chronicle env sink run moves (start source) s) := by
  induction moves using List.reverseRecOn with
  | nil => exact .start
  | append_singleton moves move ih =>
      rw [follow_append, chronicle_append]
      simp only [follow, chronicle, List.append_nil]
      exact .move ih (happens_step ih.noted move _)

end Pool

end RecordInference
