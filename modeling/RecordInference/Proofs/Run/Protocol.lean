import RecordInference.Proofs.Run.Preparation
import RecordInference.Run.Record

/-!
# The protocol of attempts

What a record does to the world outside is a sequence of calls and of entries into the audit log.
`Collaborators.observed` keeps that sequence, and changes nothing else (`process_observed`). An
`Episode` is what one step leaves of it: a call and its entry for each of its attempts, all with the
same request.

If every call is answered and every entry is taken, a record runs through one episode for each step
it reaches, and ends with the first one that fails (`episodes_of_process`).
-/

set_option autoImplicit false

namespace RecordInference

/-! ### Observing -/

/-- What a record does to the world outside. -/
inductive Event where
  | called (request : Request) (attempt : Nat)
  | entered (entry : AuditEntry)

namespace Collaborators

variable {σ : Type}

/-- The same world outside, with the calls and the entries in their order beside its state. -/
def observed (env : Collaborators σ) : Collaborators (σ × List Event) where
  call request attempt s :=
    let (delayMs, s') := env.call request attempt s.1
    (delayMs, s', s.2 ++ [.called request attempt])
  reply request attempt s :=
    let (reply, s') := env.reply request attempt s.1
    (reply, s', s.2)
  append entry s :=
    let (fault, s') := env.append entry s.1
    (fault, s', s.2 ++ [.entered entry])
  now s := env.now s.1

theorem append_observed (env : Collaborators σ) (entry : AuditEntry) (s : σ)
    (events : List Event) : env.observed.append entry (s, events) =
      ((env.append entry s).1, (env.append entry s).2, events ++ [.entered entry]) := rfl

theorem now_observed (env : Collaborators σ) (s : σ) (events : List Event) :
    env.observed.now (s, events) = env.now s := rfl

/-- Whether every call is answered, in time or not, and every entry is taken. -/
structure Steady (env : Collaborators σ) : Prop where
  answers : ∀ request attempt s, (env.reply request attempt s).1 ≠ .crash
  appends : ∀ entry s, (env.append entry s).1 = none

/-- A world outside in which every call gets the same reply at once, and every entry is taken. -/
def constant (reply : Reply) : Collaborators Unit where
  call _ _ s := (0, s)
  reply _ _ s := (reply, s)
  append _ s := (none, s)
  now _ := ""

theorem steady_constant {reply : Reply} (answers : reply ≠ .crash) : (constant reply).Steady :=
  ⟨fun _ _ _ => answers, fun _ _ => rfl⟩

end Collaborators

namespace Task

variable {σ : Type} {env : Collaborators σ} {run : Run} {job : Job}

theorem advanceBy_ended (env : Collaborators σ) (run : Run) (job : Job) (n : Nat) (ending : Ending)
    (s : σ) : advanceBy env run job n (.ended ending) s = (.ended ending, s) := by
  induction n with
  | zero => rfl
  | succ n ih => exact ih

theorem advanceBy_add (env : Collaborators σ) (run : Run) (job : Job) (m n : Nat) (t : Task)
    (s : σ) : advanceBy env run job (m + n) t s =
      advanceBy env run job n (advanceBy env run job m t s).1 (advanceBy env run job m t s).2 := by
  induction m generalizing t s with
  | zero => rw [Nat.zero_add, advanceBy]
  | succ m ih =>
      rw [Nat.succ_add]
      exact ih _ _

theorem invoke_observed (env : Collaborators σ) (timeoutMs : Nat) (request : Request)
    (attempt : Nat) (s : σ) (events : List Event) :
    invoke env.observed timeoutMs request attempt (s, events) =
      ((invoke env timeoutMs request attempt s).1, (invoke env timeoutMs request attempt s).2,
        events ++ [.called request attempt]) := by
  rcases called : env.call request attempt s with ⟨delayMs, s'⟩
  rcases replied : env.reply request attempt s' with ⟨reply, s''⟩
  simp only [invoke, Collaborators.observed, called, replied]
  by_cases late : timeoutMs < delayMs
  · rw [if_pos late, if_pos late]
  · rw [if_neg late, if_neg late]
    cases reply with
    | text | transport | crash => rfl

/-- Observing an attempt does not change it. -/
theorem advance_observed (env : Collaborators σ) (run : Run) (job : Job) (t : Task) (s : σ)
    (events : List Event) : ∃ events', advance env.observed run job t (s, events) =
      ((advance env run job t s).1, (advance env run job t s).2, events') := by
  cases t with
  | ended ending => exact ⟨events, rfl⟩
  | calling record step rest attempt =>
      simp only [advance, invoke_observed]
      rcases invoke env run.prepared.settings.timeoutMs
        (step.request job.recordId job.input record) attempt s with ⟨answer, s'⟩
      cases answer with
      | none => exact ⟨_, rfl⟩
      | some answer =>
          rcases appended : env.append (entry run job step attempt (env.now s') answer) s'
            with ⟨fault, s''⟩
          simp only [Collaborators.now_observed, Collaborators.append_observed, appended]
          cases fault with
          | none => exact ⟨_, rfl⟩
          | some message => exact ⟨_, rfl⟩

theorem advanceBy_observed (env : Collaborators σ) (run : Run) (job : Job) (n : Nat) (t : Task)
    (s : σ) (events : List Event) : ∃ events', advanceBy env.observed run job n t (s, events) =
      ((advanceBy env run job n t s).1, (advanceBy env run job n t s).2, events') := by
  induction n generalizing t s events with
  | zero => exact ⟨events, rfl⟩
  | succ n ih =>
      obtain ⟨events', eq⟩ := advance_observed env run job t s events
      obtain ⟨events'', eq'⟩ := ih (advance env run job t s).1 (advance env run job t s).2 events'
      refine ⟨events'', ?_⟩
      rw [advanceBy, eq]
      exact eq'

/-- Observing a record does not change what becomes of it. -/
theorem process_observed (env : Collaborators σ) (run : Run) (job : Job) (s : σ) :
    ∃ events, process env.observed run job (s, []) =
      ((process env run job s).1, (process env run job s).2, events) :=
  advanceBy_observed env run job _ _ s []

theorem invoke_steady (steady : env.Steady) (timeoutMs : Nat) (request : Request) (attempt : Nat)
    (s : σ) : ∃ answer s', invoke env timeoutMs request attempt s = (some answer, s') := by
  rcases called : env.call request attempt s with ⟨delayMs, s'⟩
  have answers := steady.answers request attempt s'
  rcases replied : env.reply request attempt s' with ⟨reply, s''⟩
  rw [replied] at answers
  simp only [invoke, called, replied]
  by_cases late : timeoutMs < delayMs
  · rw [if_pos late]
    exact ⟨_, _, rfl⟩
  · rw [if_neg late]
    cases reply with
    | text | transport => exact ⟨_, _, rfl⟩
    | crash => exact absurd rfl answers

/-- An attempt is a call and an entry of what came of it, if the world outside is steady. -/
theorem advance_steady (steady : env.Steady) (run : Run) (job : Job) (record : Record)
    (step : PreparedStep) (rest : List PreparedStep) (attempt : Nat) (s : σ)
    (events : List Event) : ∃ answer time s',
      advance env.observed run job (.calling record step rest attempt) (s, events) =
        (settle run job record step rest attempt
            (answer.judge step.step run.prepared.settings.timeoutMs),
          s', events ++ [.called (step.request job.recordId job.input record) attempt,
            .entered (entry run job step attempt time answer)]) := by
  obtain ⟨answer, s', invoked⟩ := invoke_steady steady run.prepared.settings.timeoutMs
    (step.request job.recordId job.input record) attempt s
  have taken := steady.appends (entry run job step attempt (env.now s') answer) s'
  rcases appended : env.append (entry run job step attempt (env.now s') answer) s'
    with ⟨fault, s''⟩
  rw [appended] at taken
  cases taken
  refine ⟨answer, env.now s', s'', ?_⟩
  simp only [advance, invoke_observed, invoked, Collaborators.now_observed,
    Collaborators.append_observed, appended]
  rw [List.append_assoc, List.singleton_append]

end Task

/-! ### Entries and episodes -/

/-- Whether the parts of an entry agree with each other. -/
structure AuditEntry.Coherent (e : AuditEntry) : Prop where
  raw : e.rawResponse.isSome = true ↔
    e.outcome = .valid ∨ ∃ violations, e.outcome = .invalid violations
  outcome : e.outcome = .valid ↔ e.disposition = .valid
  output : e.output.isSome = true ↔ e.disposition = .valid
  failure : e.failure.isSome = true ↔ e.disposition = .terminal

theorem Answer.raw?_iff (answer : Answer) (step : PlannedStep) (timeoutMs : Nat) :
    answer.raw?.isSome = true ↔ (answer.judge step timeoutMs).outcome = .valid ∨
      ∃ violations, (answer.judge step timeoutMs).outcome = .invalid violations := by
  cases answer with
  | transport | timedOut =>
      simp [Answer.raw?, Answer.judge, Judgement.outcome, StepFailure.outcome]
  | text raw =>
      simp only [Answer.raw?, Answer.judge, Option.isSome_some, true_iff]
      cases Response.checkStep step.verb step.schema step.output raw with
      | ok v => exact Or.inl rfl
      | error violations => exact Or.inr ⟨violations, rfl⟩

namespace Judgement

theorem outcome_eq_valid_iff (j : Judgement) (attempt : Nat) :
    j.outcome = .valid ↔ j.disposition attempt = .valid := by
  cases j with
  | ok v => exact ⟨fun _ => rfl, fun _ => rfl⟩
  | error f =>
      constructor
      · intro valid
        cases f with
        | validation | transport | timedOut => cases valid
      · intro valid
        rw [disposition] at valid
        split at valid <;> cases valid

theorem value?_isSome_iff (j : Judgement) (attempt : Nat) :
    j.value?.isSome = true ↔ j.disposition attempt = .valid := by
  cases j with
  | ok v => exact ⟨fun _ => rfl, fun _ => rfl⟩
  | error f =>
      constructor
      · intro some
        cases some
      · intro valid
        rw [disposition] at valid
        split at valid <;> cases valid

theorem failure?_isSome_iff (j : Judgement) (attempt : Nat) :
    (j.failure? attempt).isSome = true ↔ j.disposition attempt = .terminal := by
  cases j with
  | ok v => exact ⟨nofun, nofun⟩
  | error f =>
      -- the message of a failure is entered where no attempt is left
      rw [failure?, disposition]
      split
      · exact ⟨nofun, nofun⟩
      · exact ⟨fun _ => rfl, fun _ => rfl⟩

end Judgement

theorem Task.coherent_entry (run : Run) (job : Job) (step : PreparedStep) (attempt : Nat)
    (time : String) (answer : Answer) : (entry run job step attempt time answer).Coherent where
  raw := answer.raw?_iff step.step run.prepared.settings.timeoutMs
  outcome := Judgement.outcome_eq_valid_iff _ attempt
  output := Judgement.value?_isSome_iff _ attempt
  failure := Judgement.failure?_isSome_iff _ attempt

/-- What a step of a record leaves: its request, and an entry for each time that it was sent. -/
structure Episode where
  step : PlannedStep
  request : Request
  entries : List AuditEntry

namespace Episode

/-- The calls and entries of an episode. -/
def events (e : Episode) : List Event :=
  e.entries.flatMap fun entry => [.called e.request entry.attempt, .entered entry]

/-- The attempts of an episode, each with what followed it. -/
def course (e : Episode) : List (Nat × Disposition) :=
  e.entries.map fun entry => (entry.attempt, entry.disposition)

/-- Whether the first or the second attempt was valid. -/
def Succeeded (e : Episode) : Prop :=
  e.course = [(1, .valid)] ∨ e.course = [(1, .retry), (2, .valid)]

/-- Whether both attempts failed. -/
def Failed (e : Episode) : Prop := e.course = [(1, .retry), (2, .terminal)]

/-- Whether an episode is one of a step and a job. -/
structure Of (job : Job) (step : PlannedStep) (e : Episode) : Prop where
  same : e.step = step
  request : ∃ prepared record, prepared.step = step ∧
    e.request = PreparedStep.request prepared job.recordId job.input record
  entries : ∀ entry ∈ e.entries,
    entry.Coherent ∧ entry.recordId = job.recordId ∧ entry.step = step.index

theorem last_entry_of_course {e : Episode} {attempt : Nat} {disposition : Disposition}
    (h : e.course.getLast? = some (attempt, disposition)) :
    ∃ entry, e.entries.getLast? = some entry ∧ entry.disposition = disposition := by
  rw [course, List.getLast?_map] at h
  obtain ⟨entry, last, eq⟩ := Option.map_eq_some_iff.1 h
  exact ⟨entry, last, congrArg Prod.snd eq⟩

theorem Succeeded.last_entry {e : Episode} (h : e.Succeeded) :
    ∃ entry, e.entries.getLast? = some entry ∧ entry.disposition = .valid := by
  rcases h with once | twice
  · exact last_entry_of_course (congrArg List.getLast? once)
  · exact last_entry_of_course (congrArg List.getLast? twice)

theorem Failed.last_entry {e : Episode} (h : e.Failed) :
    ∃ entry, e.entries.getLast? = some entry ∧ entry.disposition = .terminal :=
  last_entry_of_course (congrArg List.getLast? h)

theorem Succeeded.not_failed {e : Episode} (h : e.Succeeded) : ¬ e.Failed := by
  intro terminal
  simp only [Failed] at terminal
  rcases h with once | twice
  · rw [terminal] at once
    cases once
  · rw [terminal] at twice
    cases twice

end Episode

/-- The episodes of a job over the steps before it, and the status that they come to. -/
inductive Protocol (job : Job) : List PlannedStep → List Episode → RecordStatus → Prop
  | done : Protocol job [] [] .completed
  | succeeded {step : PlannedStep} {steps : List PlannedStep} {e : Episode}
      {episodes : List Episode} {status : RecordStatus} (here : e.Of job step)
      (valid : e.Succeeded) (later : Protocol job steps episodes status) :
      Protocol job (step :: steps) (e :: episodes) status
  | failed {step : PlannedStep} (steps : List PlannedStep) {e : Episode} (here : e.Of job step)
      (terminal : e.Failed) (failure : StepFailure) :
      Protocol job (step :: steps) [e] (.failed step.index failure)

namespace Task

variable {σ : Type} {env : Collaborators σ} {run : Run} {job : Job}

theorem entry_facts (run : Run) (job : Job) (step : PreparedStep) (attempt : Nat) (time : String)
    (answer : Answer) : (entry run job step attempt time answer).Coherent ∧
      (entry run job step attempt time answer).recordId = job.recordId ∧
      (entry run job step attempt time answer).step = step.step.index :=
  ⟨coherent_entry run job step attempt time answer, rfl, rfl⟩

theorem disposition_of_ok {step : PreparedStep} {answer : Answer} {v : Value} (attempt : Nat)
    (time : String)
    (judged : answer.judge step.step run.prepared.settings.timeoutMs = .ok v) :
    (entry run job step attempt time answer).disposition = .valid := by
  rw [entry, judged]
  rfl

theorem disposition_of_error {step : PreparedStep} {answer : Answer} {f : StepFailure}
    (attempt : Nat) (time : String)
    (judged : answer.judge step.step run.prepared.settings.timeoutMs = .error f) :
    (entry run job step attempt time answer).disposition =
      if attempt < maxAttempts then .retry else .terminal := by
  rw [entry, judged]
  rfl

/-- The attempts of one step are an episode, and carry the record on or end it. -/
theorem episode_of_calling (steady : env.Steady) (run : Run) (job : Job) (record : Record)
    (step : PreparedStep) (rest : List PreparedStep) (s : σ) (events : List Event) :
    ∃ n t s' e, n ≤ maxAttempts ∧
      advanceBy env.observed run job n (.calling record step rest 1) (s, events) =
        (t, s', events ++ e.events) ∧
      Episode.Of job step.step e ∧
      (e.Succeeded ∧ (∃ v, t = goOn run job (record.merge step.step.output v) rest) ∨
        e.Failed ∧ ∃ f, t = .ended (.delivered (fail job record step.step.index f))) := by
  have facts := entry_facts run job step
  generalize sent : step.request job.recordId job.input record = request
  obtain ⟨answer, time, s', first⟩ := advance_steady steady run job record step rest 1 s events
  rw [sent] at first
  cases judged : answer.judge step.step run.prepared.settings.timeoutMs with
  | ok v =>
      -- the first attempt is valid: one entry
      rw [judged] at first
      refine ⟨1, _, s', ⟨step.step, request, [entry run job step 1 time answer]⟩, by decide, first,
        ⟨rfl, ⟨step, record, rfl, sent.symm⟩, ?_⟩, Or.inl ⟨Or.inl ?_, v, rfl⟩⟩
      · exact List.forall_mem_singleton.2 (facts 1 time answer)
      · rw [Episode.course, List.map_singleton, disposition_of_ok 1 time judged]
        rfl
  | error f =>
      -- the first attempt fails and is made again, with the same request: two entries
      rw [judged] at first
      obtain ⟨answer', time', s'', second⟩ := advance_steady steady run job record step rest 2 s'
        (events ++ [.called request 1, .entered (entry run job step 1 time answer)])
      rw [sent] at second
      have both : ∀ entry' ∈ [entry run job step 1 time answer, entry run job step 2 time' answer'],
          entry'.Coherent ∧ entry'.recordId = job.recordId ∧ entry'.step = step.step.index :=
        List.forall_mem_cons.2 ⟨facts 1 time answer,
          List.forall_mem_singleton.2 (facts 2 time' answer')⟩
      have twice : advanceBy env.observed run job 2 (.calling record step rest 1) (s, events) =
          (settle run job record step rest 2
            (answer'.judge step.step run.prepared.settings.timeoutMs), s'',
            events ++ Episode.events ⟨step.step, request,
              [entry run job step 1 time answer, entry run job step 2 time' answer']⟩) := by
        rw [advanceBy, first]
        refine second.trans ?_
        rw [List.append_assoc]
        rfl
      refine ⟨2, _, s'', ⟨step.step, request, _⟩, by decide, twice,
        ⟨rfl, ⟨step, record, rfl, sent.symm⟩, both⟩, ?_⟩
      cases judged' : answer'.judge step.step run.prepared.settings.timeoutMs with
      | ok v =>
          refine Or.inl ⟨Or.inr ?_, v, rfl⟩
          rw [Episode.course, List.map_cons, List.map_singleton, disposition_of_error 1 time judged,
            disposition_of_ok 2 time' judged']
          rfl
      | error f' =>
          refine Or.inr ⟨?_, f', rfl⟩
          rw [Episode.Failed, Episode.course, List.map_cons, List.map_singleton,
            disposition_of_error 1 time judged, disposition_of_error 2 time' judged']
          rfl

theorem attemptsLeft_goOn (run : Run) (job : Job) (record : Record) (steps : List PreparedStep) :
    (goOn run job record steps).attemptsLeft = maxAttempts * steps.length := by
  cases steps with
  | nil => rfl
  | cons step rest =>
      show maxAttempts + 1 - 1 + maxAttempts * rest.length = maxAttempts * (rest.length + 1)
      rw [Nat.mul_add, Nat.add_comm]
      rfl

/-- A record that goes on with steps leaves their episodes, up to the first that fails. -/
theorem protocol_of_goOn (steady : env.Steady) (run : Run) (job : Job)
    (steps : List PreparedStep) (record : Record) (s : σ) (events : List Event) {n : Nat}
    (room : maxAttempts * steps.length ≤ n) : ∃ result s' episodes,
      advanceBy env.observed run job n (goOn run job record steps) (s, events) =
        (.ended (.delivered result), s', events ++ episodes.flatMap Episode.events) ∧
      Protocol job (steps.map (·.step)) episodes result.status := by
  -- the record and what has happened so far differ from step to step
  induction steps generalizing record s events n with
  | nil =>
      refine ⟨complete run job record, s, [], ?_, .done⟩
      rw [goOn, advanceBy_ended, List.flatMap_nil, List.append_nil]
  | cons step rest ih =>
      obtain ⟨m, t, s', e, few, reached, here, ending⟩ :=
        episode_of_calling steady run job record step rest s events
      rw [List.length_cons, Nat.mul_add] at room
      obtain ⟨left, rfl⟩ : ∃ left, n = m + left := Nat.exists_eq_add_of_le (by omega)
      rcases ending with ⟨valid, v, rfl⟩ | ⟨terminal, f, rfl⟩
      · -- the rest of the steps uses the attempts that are left
        obtain ⟨result, s'', episodes, finished, later⟩ :=
          ih (record.merge step.step.output v) s' (events ++ e.events) (n := left) (by omega)
        refine ⟨result, s'', e :: episodes, ?_, .succeeded here valid later⟩
        rw [goOn, advanceBy_add, reached, finished, List.flatMap_cons, List.append_assoc]
      · -- the record has ended, and stays as it is in the attempts that are left
        refine ⟨fail job record step.step.index f, s', [e], ?_, .failed _ here terminal f⟩
        rw [goOn, advanceBy_add, reached, advanceBy_ended, List.flatMap_singleton]

/-- A whole record leaves the episodes of its steps, up to the first that fails. -/
theorem protocol_of_process (steady : env.Steady) (run : Run) (job : Job) (s : σ) :
    ∃ result s' episodes,
      process env run job s = (.ended (.delivered result), s') ∧
      process env.observed run job (s, []) =
        (.ended (.delivered result), s', episodes.flatMap Episode.events) ∧
      Protocol job (run.prepared.steps.map (·.step)) episodes result.status := by
  have room := attemptsLeft_goOn run job [] run.prepared.steps
  obtain ⟨result, s', episodes, ended, protocol⟩ :=
    protocol_of_goOn steady run job run.prepared.steps [] s [] (Nat.le_of_eq room.symm)
  have observed : process env.observed run job (s, []) =
      (.ended (.delivered result), s', episodes.flatMap Episode.events) := ended
  obtain ⟨events, same⟩ := process_observed env run job s
  rw [observed, Prod.mk.injEq, Prod.mk.injEq] at same
  exact ⟨result, s', episodes, Prod.ext same.1.symm same.2.1.symm, observed, protocol⟩

end Task

/-! ### What the protocol says -/

namespace Protocol

variable {job : Job} {steps : List PlannedStep} {episodes : List Episode} {status : RecordStatus}

/-- The steps that are reached come first among the steps, in their order. -/
theorem steps_prefix (h : Protocol job steps episodes status) :
    episodes.map (·.step) <+: steps := by
  induction h with
  | done => exact List.prefix_refl _
  | succeeded here valid later ih =>
      rw [List.map_cons, here.same]
      exact (List.prefix_cons_inj _).2 ih
  | failed rest here terminal f =>
      rw [List.map_singleton, here.same]
      exact ⟨rest, rfl⟩

theorem of_mem (h : Protocol job steps episodes status) : ∀ e ∈ episodes, e.Of job e.step := by
  induction h with
  | done => exact List.forall_mem_nil _
  | succeeded here valid later ih => exact List.forall_mem_cons.2 ⟨here.same ▸ here, ih⟩
  | failed rest here terminal f => exact List.forall_mem_singleton.2 (here.same ▸ here)

theorem succeeded_or_failed (h : Protocol job steps episodes status) :
    ∀ e ∈ episodes, e.Succeeded ∨ e.Failed := by
  induction h with
  | done => exact List.forall_mem_nil _
  | succeeded here valid later ih => exact List.forall_mem_cons.2 ⟨Or.inl valid, ih⟩
  | failed rest here terminal f => exact List.forall_mem_singleton.2 (Or.inr terminal)

/-- Only the last episode may have failed. -/
theorem succeeded_of_dropLast (h : Protocol job steps episodes status) :
    ∀ e ∈ episodes.dropLast, e.Succeeded := by
  induction h with
  | done => exact List.forall_mem_nil _
  | @succeeded _ _ e episodes _ here valid later ih =>
      cases episodes with
      | nil => exact List.forall_mem_nil _
      | cons next rest => exact List.forall_mem_cons.2 ⟨valid, ih⟩
  | failed rest here terminal f => exact List.forall_mem_nil _

/-- The last entry says how the record has ended. -/
theorem last_entry (h : Protocol job steps episodes status) :
    (episodes = [] ∧ status = .completed) ∨
      ∃ entry, (episodes.flatMap (·.entries)).getLast? = some entry ∧
        ((status = .completed ∧ entry.disposition = .valid) ∨
          ∃ f, status = .failed entry.step f ∧ entry.disposition = .terminal) := by
  induction h with
  | done => exact Or.inl ⟨rfl, rfl⟩
  | @succeeded _ _ e episodes _ here valid later ih =>
      refine Or.inr ?_
      -- the last entry is that of this episode only if no episode follows
      rcases ih with ⟨rfl, rfl⟩ | ⟨entry, last, ends⟩
      · obtain ⟨entry, last, disposition⟩ := valid.last_entry
        refine ⟨entry, ?_, Or.inl ⟨rfl, disposition⟩⟩
        rw [List.flatMap_singleton]
        exact last
      · refine ⟨entry, ?_, ends⟩
        rw [List.flatMap_cons, List.getLast?_append, last]
        rfl
  | @failed step rest e here terminal f =>
      obtain ⟨entry, last, disposition⟩ := terminal.last_entry
      obtain ⟨-, -, index⟩ := here.entries entry (List.mem_of_getLast? last)
      refine Or.inr ⟨entry, ?_, Or.inr ⟨f, ?_, disposition⟩⟩
      · rw [List.flatMap_singleton]
        exact last
      · rw [index]

/-- A record has failed at a step exactly if the last entry is the terminal one of that step. -/
theorem failed_iff (h : Protocol job steps episodes status) (k : Nat) :
    (∃ f, status = .failed k f) ↔ ∃ entry, (episodes.flatMap (·.entries)).getLast? = some entry ∧
      entry.disposition = .terminal ∧ entry.step = k := by
  rcases h.last_entry with ⟨rfl, rfl⟩ | ⟨entry, last, ⟨rfl, valid⟩ | ⟨f, rfl, terminal⟩⟩
  · -- no step was reached, so there is no last entry
    refine ⟨nofun, ?_⟩
    rintro ⟨entry, last, -⟩
    rw [List.flatMap_nil, List.getLast?_nil] at last
    cases last
  · -- the last entry is valid, hence not terminal
    refine ⟨nofun, ?_⟩
    rintro ⟨entry', last', terminal, -⟩
    rw [last] at last'
    cases last'
    rw [valid] at terminal
    cases terminal
  · constructor
    · rintro ⟨f', eq⟩
      cases eq
      exact ⟨entry, last, terminal, rfl⟩
    · rintro ⟨entry', last', -, rfl⟩
      rw [last] at last'
      cases last'
      exact ⟨f, rfl⟩

/-- A record is complete exactly if every step of the plan has ended well. -/
theorem completed_iff (h : Protocol job steps episodes status) :
    status = .completed ↔ episodes.map (·.step) = steps ∧ ∀ e ∈ episodes, e.Succeeded := by
  induction h with
  | done => exact ⟨fun _ => ⟨rfl, List.forall_mem_nil _⟩, fun _ => rfl⟩
  | succeeded here valid later ih =>
      rw [ih, List.map_cons, here.same, List.cons.injEq, List.forall_mem_cons]
      constructor
      · rintro ⟨same, each⟩
        exact ⟨⟨rfl, same⟩, valid, each⟩
      · rintro ⟨⟨-, same⟩, -, each⟩
        exact ⟨same, each⟩
  | failed rest here terminal f =>
      constructor
      · intro completed
        cases completed
      · rintro ⟨-, each⟩
        exact absurd terminal (List.forall_mem_singleton.1 each).not_failed

end Protocol

/-- What a record leaves in the audit log over the steps of a plan. -/
structure Audited (plan : Plan) (job : Job) (status : RecordStatus) (episodes : List Episode) :
    Prop where
  steps : episodes.map (·.step) <+: plan.steps
  /-- Steps of a plan whose indices are their positions, as those of a declaration are
  (`StepsFit.index_eq`), are entered under their positions. -/
  positions : (∀ i (step : PlannedStep), plan.steps[i]? = some step → step.index = i) →
    ∀ i (e : Episode), episodes[i]? = some e → ∀ entry ∈ e.entries, entry.step = i
  courses : ∀ e ∈ episodes, e.Succeeded ∨ e.Failed
  earlier : ∀ e ∈ episodes.dropLast, e.Succeeded
  failed : ∀ k, (∃ failure, status = .failed k failure) ↔
    ∃ entry, (episodes.flatMap (·.entries)).getLast? = some entry ∧
      entry.disposition = .terminal ∧ entry.step = k
  completed : status = .completed ↔
    episodes.map (·.step) = plan.steps ∧ ∀ e ∈ episodes, e.Succeeded
  each : ∀ e ∈ episodes, e.Of job e.step

theorem Protocol.audited {plan : Plan} {job : Job} {episodes : List Episode}
    {status : RecordStatus} (h : Protocol job plan.steps episodes status) :
    Audited plan job status episodes where
  steps := h.steps_prefix
  positions := by
    intro numbered i e found entry member
    obtain ⟨-, -, index⟩ := (h.of_mem e (List.mem_of_getElem? found)).entries entry member
    obtain ⟨rest, eq⟩ := h.steps_prefix
    -- the episode at position `i` is one of the step at position `i`
    rw [index]
    refine numbered i e.step ?_
    rw [← eq, List.getElem?_append_left, List.getElem?_map, found]
    · rfl
    · rw [List.length_map]
      exact (List.getElem?_eq_some_iff.1 found).1
  courses := h.succeeded_or_failed
  earlier := h.succeeded_of_dropLast
  failed := h.failed_iff
  completed := h.completed_iff
  each := h.of_mem

/-- Where every call is answered and every entry is taken a record ends with a result, and what it
does to the world outside are the episodes of the steps that it reaches. -/
theorem audited_of_process {σ : Type} {env : Collaborators σ} (steady : env.Steady) {plan : Plan}
    {loader : Loader} {settings : Settings} {prepared : Prepared}
    (ready : Prepared.ofPlan plan loader settings = .ok prepared) (name : String) (job : Job)
    (s : σ) : ∃ result s' episodes,
      Task.process env ⟨prepared, name⟩ job s = (.ended (.delivered result), s') ∧
      Task.process env.observed ⟨prepared, name⟩ job (s, []) =
        (.ended (.delivered result), s', episodes.flatMap Episode.events) ∧
      Audited plan job result.status episodes := by
  obtain ⟨-, steps, -⟩ := Prepared.steps_of_ofPlan ready
  obtain ⟨result, s', episodes, ended, observed, protocol⟩ :=
    Task.protocol_of_process steady ⟨prepared, name⟩ job s
  rw [steps] at protocol
  exact ⟨result, s', episodes, ended, observed, protocol.audited⟩

/-- A draft that never gets through fails after two attempts. -/
theorem audited_of_process_unreachable : ∃ plan prepared result episodes,
    Plan.ofDeclaration "DRAFT reply" (fun _ _ => none) = .ok plan ∧
    Prepared.ofPlan plan (fun _ _ => none) {} = .ok prepared ∧
    (Task.process (.constant (.transport "unreachable")) ⟨prepared, "run"⟩ ⟨1, "input", "ref"⟩
      ()).1 = .ended (.delivered result) ∧
    Audited plan ⟨1, "input", "ref"⟩ result.status episodes := by
  obtain ⟨plan, prepared, compiled, ready⟩ := Prepared.exists_of_ofDeclaration
    (show (Plan.ofDeclaration "DRAFT reply" fun _ _ => none).isOk = true by decide +kernel)
    (show Settings.problems {} = [] by decide)
  have steady : (Collaborators.constant (.transport "unreachable")).Steady :=
    Collaborators.steady_constant (by decide)
  obtain ⟨result, s', episodes, ended, -, audited⟩ :=
    audited_of_process steady ready "run" ⟨1, "input", "ref"⟩ ()
  exact ⟨plan, prepared, result, episodes, compiled, ready, congrArg Prod.fst ended, audited⟩

end RecordInference
