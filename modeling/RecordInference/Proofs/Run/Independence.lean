import RecordInference.Proofs.Run.Progress
import RecordInference.Proofs.Run.Projection

/-!
# Records do not disturb each other

Where the calls for a record come to the same answers whenever they are made, and the log takes
every entry, the record comes to the same result and leaves the same entries under every schedule,
beside any other records and on its own (`independent_of_follow`). The answers to the calls for
other records do not matter, and neither do the sink, the room for records, the name of the run and
the time.

An attempt is a function of its answer (`advance_of_answers`), so a record of a run and the record
on its own go through the same attempts (`Pursued.replayed`) up to the end that both of them have.
-/

set_option autoImplicit false

namespace RecordInference

/-! ### The share of a record -/

/-- The entries that the log took, in their order. -/
def logOf (did : List Act) : List AuditEntry :=
  did.filterMap fun
    | .appended entry none => some entry
    | _ => none

@[simp] theorem logOf_append (did new : List Act) : logOf (did ++ new) = logOf did ++ logOf new :=
  List.filterMap_append

/-- An entry but for its time and the name of the run. -/
def AuditEntry.undated (e : AuditEntry) : AuditEntry := { e with time := "", run := "" }

/-- What the sink gets of a record, and what the log takes of it but for times and names of runs. -/
structure Share where
  results : List RecordResult
  entries : List AuditEntry

/-- The share of a record in what a run did. -/
def shareOf (recordId : Nat) (did : List Act) : Share where
  results := ((resultsOf did).map (·.1)).filter fun result => result.recordId = recordId
  entries := (entriesOf recordId (logOf did)).map AuditEntry.undated

/-- The entries of a record are those of its attempts. -/
theorem entriesOf_logOf (recordId : Nat) (did : List Act) :
    entriesOf recordId (logOf did) = logOf (attemptsOf recordId did) := by
  induction did with
  | nil => rfl
  | cons act rest ih =>
      rw [← List.singleton_append, logOf_append, attemptsOf_append, logOf_append, ← ih, entriesOf,
        List.filter_append]
      refine congrArg (· ++ _) ?_
      -- only an entry that was taken is on either side
      rcases act with _ | _ | _ | ⟨entry, fault | _⟩ | _ | _
      case appended.none =>
        by_cases own : entry.recordId = recordId
        · simp [logOf, attemptsOf, Act.recordId?, own]
        · simp [logOf, attemptsOf, Act.recordId?, own]
      case appended.some =>
        by_cases own : entry.recordId = recordId
        · simp [logOf, attemptsOf, Act.recordId?, own]
        · simp [logOf, attemptsOf, Act.recordId?, own]
      case called request _ | crashed request _ =>
        by_cases own : request.recordId = recordId
        · simp [logOf, attemptsOf, Act.recordId?, own]
        · simp [logOf, attemptsOf, Act.recordId?, own]
      case admitted | settled | handed => rfl

/-- The results of a record among those of tasks that have ended are those of its own task. -/
theorem filter_deliveredIn {ended : List (Job × Ending)} (labelled : ∀ e ∈ ended, Labelled e)
    (recordId : Nat) : (deliveredIn ended).filter (fun result => result.recordId = recordId) =
      deliveredIn (ended.filter fun e => e.1.recordId = recordId) := by
  induction ended with
  | nil => rfl
  | cons e rest ih =>
      obtain ⟨here, later⟩ := List.forall_mem_cons.1 labelled
      obtain ⟨job, ending⟩ := e
      rw [← List.singleton_append, deliveredIn_append, List.filter_append, List.filter_append,
        deliveredIn_append, ih later]
      refine congrArg (· ++ _) ?_
      by_cases own : job.recordId = recordId
      · rw [List.filter_cons_of_pos (by simp [own])]
        cases ending with
        | delivered result => simp [deliveredIn, (here result rfl).1, own]
        | auditFailed | crashed => rfl
      · rw [List.filter_cons_of_neg (by simp [own])]
        cases ending with
        | delivered result => simp [deliveredIn, (here result rfl).1, own]
        | auditFailed | crashed => rfl

/-- Of tasks with different numbers only one has the number of a given one. -/
theorem filter_recordId_eq {ended : List (Job × Ending)}
    (distinct : (ended.map (·.1.recordId)).Nodup) {e : Job × Ending} (member : e ∈ ended) :
    ended.filter (fun other => other.1.recordId = e.1.recordId) = [e] := by
  obtain ⟨before, after, rfl⟩ := List.append_of_mem member
  have apart := (List.perm_middle.map fun e : Job × Ending => e.1.recordId).nodup_iff.1 distinct
  rw [List.map_cons, List.nodup_cons] at apart
  have others : ∀ other ∈ before ++ after, ¬ decide (other.1.recordId = e.1.recordId) = true := by
    intro other there same
    exact apart.1 (of_decide_eq_true same ▸ List.mem_map_of_mem there)
  rw [List.forall_mem_append] at others
  rw [List.filter_append, List.filter_cons, if_pos (decide_eq_true rfl),
    List.filter_eq_nil_iff.2 others.1, List.filter_eq_nil_iff.2 others.2, List.nil_append]

variable {σ τ : Type}

/-! ### The world outside -/

namespace Collaborators

/-- Whether the log takes every entry. -/
def TakesAll (env : Collaborators σ) : Prop := ∀ entry s, (env.append entry s).1 = none

/-- Whether every call for a record comes to the given answer, in whatever state of the world it is
made. A call that takes its task down has no answer. -/
def Answers (env : Collaborators σ) (timeoutMs recordId : Nat)
    (answers : Request → Nat → Option Answer) : Prop :=
  ∀ request attempt s, request.recordId = recordId →
    (Task.invoke env timeoutMs request attempt s).1 = answers request attempt

end Collaborators

/-- Whether two runs have the same work to do. They may differ in their names, and in how many
records they have under way at once. -/
structure Run.Alike (run run' : Run) : Prop where
  plan : run'.prepared.plan = run.prepared.plan
  steps : run'.prepared.steps = run.prepared.steps
  timeoutMs : run'.prepared.settings.timeoutMs = run.prepared.settings.timeoutMs

/-- Runs on the same plan and texts are alike if their calls have the same time. -/
theorem Run.alike_of_ofPlan {plan : Plan} {loader : Loader} {settings settings' : Settings}
    {prepared prepared' : Prepared} (ready : Prepared.ofPlan plan loader settings = .ok prepared)
    (ready' : Prepared.ofPlan plan loader settings' = .ok prepared')
    (same : settings'.timeoutMs = settings.timeoutMs) (name name' : String) :
    Run.Alike ⟨prepared, name⟩ ⟨prepared', name'⟩ := by
  obtain ⟨-, steps, texts, loaded, rfl⟩ := Prepared.ofPlan_eq_ok_iff.1 ready
  obtain ⟨-, steps', texts', loaded', rfl⟩ := Prepared.ofPlan_eq_ok_iff.1 ready'
  rw [loaded, Except.ok.injEq, Prod.mk.injEq] at loaded'
  exact ⟨rfl, loaded'.1.symm, same⟩

theorem Settings.room_of_sound {s : Settings} (sound : s.problems = []) : 1 ≤ s.concurrency := by
  by_contra none
  have zero : s.concurrency = 0 := by omega
  rw [problems, if_pos zero] at sound
  cases sound

namespace Task

variable {env : Collaborators σ} {env' : Collaborators τ} {run run' : Run} {job : Job}
  {answers : Request → Nat → Option Answer} {t : Task} {did : List Act}

/-! ### An attempt is a function of its answer -/

/-- The task after an attempt that came to an answer, or to none. -/
def onAnswer (run : Run) (job : Job) (record : Record) (step : PreparedStep)
    (rest : List PreparedStep) (attempt : Nat) : Option Answer → Task
  | none => .ended .crashed
  | some answer =>
    settle run job record step rest attempt
      (answer.judge step.step run.prepared.settings.timeoutMs)

/-- The entries of an attempt that came to an answer, or to none. -/
def entriesOn (run : Run) (job : Job) (step : PreparedStep) (attempt : Nat)
    (answer : Option Answer) : List AuditEntry :=
  answer.toList.map fun answer => (entry run job step attempt "" answer).undated

/-- What an attempt makes of its task and enters for it is a function of the answer. -/
theorem advance_of_answers (takes : env.TakesAll)
    (answered : env.Answers run.prepared.settings.timeoutMs job.recordId answers) (record : Record)
    (step : PreparedStep) (rest : List PreparedStep) (attempt : Nat) (s : σ) :
    (advance env run job (.calling record step rest attempt) s).1 =
        onAnswer run job record step rest attempt
          (answers (step.request job.recordId job.input record) attempt) ∧
      (logOf (doneBy env run job (.calling record step rest attempt) s)).map AuditEntry.undated =
        entriesOn run job step attempt
          (answers (step.request job.recordId job.input record) attempt) := by
  have same := answered (step.request job.recordId job.input record) attempt s rfl
  rcases invoke_recorded env run.prepared.settings.timeoutMs
    (step.request job.recordId job.input record) attempt s with
    ⟨s', s'', invoked, recorded, -⟩ | ⟨answer, s', invoked, recorded⟩
  · rw [invoked] at same
    rw [← same]
    constructor
    · simp only [advance, invoked]
      rfl
    · simp only [doneBy, advance, recorded]
      rfl
  · rw [invoked] at same
    rw [← same]
    have taken := takes (entry run job step attempt (env.now s') answer) s'
    have log := env.append_recorded (entry run job step attempt (env.now s') answer) s'
    rcases appended : env.append (entry run job step attempt (env.now s') answer) s'
      with ⟨fault, s''⟩
    rw [appended] at taken
    cases taken
    simp only [appended] at log
    constructor
    · simp only [advance, invoked, appended]
      rfl
    · simp only [doneBy, advance, recorded, Collaborators.now_recorded, log]
      rfl

theorem goOn_alike (alike : run.Alike run') (job : Job) (record : Record)
    (steps : List PreparedStep) : goOn run' job record steps = goOn run job record steps := by
  cases steps with
  | nil => rw [goOn, goOn, complete, complete, alike.plan]
  | cons step rest => rfl

theorem start_alike (alike : run.Alike run') (job : Job) : start run' job = start run job := by
  rw [start, start, alike.steps, goOn_alike alike]

theorem onAnswer_alike (alike : run.Alike run') (job : Job) (record : Record) (step : PreparedStep)
    (rest : List PreparedStep) (attempt : Nat) (answer : Option Answer) :
    onAnswer run' job record step rest attempt answer =
      onAnswer run job record step rest attempt answer := by
  cases answer with
  | none => rfl
  | some answer =>
      rw [onAnswer, onAnswer, alike.timeoutMs]
      cases answer.judge step.step run.prepared.settings.timeoutMs with
      | ok v => exact goOn_alike alike job _ rest
      | error f => rfl

theorem entriesOn_alike (alike : run.Alike run') (job : Job) (step : PreparedStep) (attempt : Nat)
    (answer : Option Answer) :
    entriesOn run' job step attempt answer = entriesOn run job step attempt answer := by
  simp only [entriesOn, entry, AuditEntry.undated, alike.timeoutMs]

/-- Two attempts of a task with the same answer do the same. -/
theorem advance_alike (alike : run.Alike run') (takes : env.TakesAll) (takes' : env'.TakesAll)
    (answered : env.Answers run.prepared.settings.timeoutMs job.recordId answers)
    (answered' : env'.Answers run.prepared.settings.timeoutMs job.recordId answers) (t : Task)
    (s : σ) (s' : τ) :
    (advance env' run' job t s').1 = (advance env run job t s).1 ∧
      (logOf (doneBy env' run' job t s')).map AuditEntry.undated =
        (logOf (doneBy env run job t s)).map AuditEntry.undated := by
  cases t with
  | ended ending => exact ⟨rfl, rfl⟩
  | calling record step rest attempt =>
      obtain ⟨made, entered⟩ := advance_of_answers takes answered record step rest attempt s
      rw [← alike.timeoutMs] at answered'
      obtain ⟨made', entered'⟩ := advance_of_answers takes' answered' record step rest attempt s'
      rw [made, made', entered, entered', onAnswer_alike alike, entriesOn_alike alike]
      exact ⟨rfl, rfl⟩

theorem advanceBy_one (env : Collaborators σ) (run : Run) (job : Job) (t : Task) (s : σ) :
    advanceBy env run job 1 t s = advance env run job t s := rfl

/-- What a record of a run has come to its unit comes to on its own. -/
theorem Pursued.replayed (alike : run.Alike run') (takes : env.TakesAll) (takes' : env'.TakesAll)
    (answered : env.Answers run.prepared.settings.timeoutMs job.recordId answers)
    (answered' : env'.Answers run.prepared.settings.timeoutMs job.recordId answers)
    (h : Pursued env run job t did) (s' : τ) : ∃ n s'' did',
      advanceBy env'.recorded run' job n (Task.start run' job) (s', []) = (t, s'', did') ∧
      (logOf did').map AuditEntry.undated = (logOf did).map AuditEntry.undated := by
  induction h with
  | start =>
      refine ⟨0, s', [], ?_, rfl⟩
      rw [advanceBy, start_alike alike]
  | @advanced t did s _ ih =>
      obtain ⟨n, s'', did', reached, entered⟩ := ih
      obtain ⟨made, entered'⟩ := advance_alike alike takes takes' answered answered' t s s''
      refine ⟨n + 1, (advance env' run' job t s'').2, did' ++ doneBy env' run' job t s'', ?_, ?_⟩
      · rw [advanceBy_add, reached, advanceBy_one, advance_recorded, made]
      · rw [logOf_append, logOf_append, List.map_append, List.map_append, entered, entered']

/-! ### A record on its own -/

/-- What a record comes to whose unit is processed on its own. -/
def alone (env : Collaborators σ) (run : Run) (job : Job) (s : σ) : Share :=
  let (t, _, did) := process env.recorded run job (s, [])
  ⟨deliveredIn (endedOf job t), (logOf did).map AuditEntry.undated⟩

/-- Enough attempts end a task. -/
theorem ended_of_advanceBy (env : Collaborators σ) (run : Run) (job : Job) {n : Nat} {t : Task}
    (room : t.toDo ≤ n + 1) (s : σ) :
    ∃ ending s', advanceBy env run job n t s = (.ended ending, s') := by
  induction n generalizing t s with
  | zero =>
      cases t with
      | ended ending => exact ⟨ending, s, rfl⟩
      | calling record step rest attempt =>
          simp only [toDo] at room
          omega
  | succ n ih =>
      cases t with
      | ended ending => exact ⟨ending, s, advanceBy_ended env run job _ ending s⟩
      | calling record step rest attempt =>
          obtain ⟨t, s', new, made, -, attempted⟩ :=
            attempted_advance env run job record step rest attempt s
          have less := attempted.toDo_lt
          rw [advanceBy, made]
          exact ih (by omega) s'

/-- A record on its own comes to its end. -/
theorem ended_of_process (env : Collaborators σ) (run : Run) (job : Job) (s : σ) :
    ∃ ending s', process env run job s = (.ended ending, s') := by
  apply ended_of_advanceBy
  rw [start, attemptsLeft_goOn]
  exact toDo_goOn run job [] run.prepared.steps

theorem advanceBy_eq_of_ended {m n : Nat} {ending ending' : Ending} {s s' s'' : σ}
    (fewer : m ≤ n) (h : advanceBy env run job m t s = (.ended ending, s'))
    (h' : advanceBy env run job n t s = (.ended ending', s'')) :
    ending' = ending ∧ s'' = s' := by
  obtain ⟨more, rfl⟩ := Nat.exists_eq_add_of_le fewer
  rw [advanceBy_add, h, advanceBy_ended, Prod.mk.injEq, Task.ended.injEq] at h'
  exact ⟨h'.1.symm, h'.2.symm⟩

/-- A record that has ended after some attempts has ended so on its own. -/
theorem process_eq_of_advanceBy {n : Nat} {ending : Ending} {s s' : σ}
    (h : advanceBy env run job n (start run job) s = (.ended ending, s')) :
    process env run job s = (.ended ending, s') := by
  obtain ⟨ending', s'', ended⟩ := ended_of_process env run job s
  rw [ended]
  rcases Nat.le_total n (start run job).attemptsLeft with fewer | more
  · obtain ⟨rfl, rfl⟩ := advanceBy_eq_of_ended fewer h ended
    rfl
  · obtain ⟨rfl, rfl⟩ := advanceBy_eq_of_ended more ended h
    rfl

/-- A record of a run that has ended has the share of its unit on its own. -/
theorem Pursued.alone_eq (alike : run.Alike run') (takes : env.TakesAll) (takes' : env'.TakesAll)
    (answered : env.Answers run.prepared.settings.timeoutMs job.recordId answers)
    (answered' : env'.Answers run.prepared.settings.timeoutMs job.recordId answers)
    {ending : Ending} (h : Pursued env run job (.ended ending) did) (s' : τ) :
    alone env' run' job s' =
      ⟨deliveredIn [(job, ending)], (logOf did).map AuditEntry.undated⟩ := by
  obtain ⟨n, s'', did', reached, entered⟩ := h.replayed alike takes takes' answered answered' s'
  rw [alone, process_eq_of_advanceBy reached]
  exact congrArg (Share.mk _) entered

theorem exists_delivered {ending : Ending} (refused : refusedIn [(job, ending)] = [])
    (crashed : crashedIn [(job, ending)] = []) : ∃ result, ending = .delivered result := by
  cases ending with
  | delivered result => exact ⟨result, rfl⟩
  | auditFailed message => cases refused
  | crashed => cases crashed

/-- A record whose entries are all taken ends with a result, unless a call for it has no answer. -/
theorem Pursued.delivered (takes : env.TakesAll)
    (answered : env.Answers run.prepared.settings.timeoutMs job.recordId answers) {ending : Ending}
    (h : Pursued env run job (.ended ending) did) : (∃ result, ending = .delivered result) ∨
      ending = .crashed ∧ ∃ request attempt, request.recordId = job.recordId ∧
        answers request attempt = none := by
  generalize came : Task.ended ending = t at h
  induction h generalizing ending with
  | start =>
      obtain ⟨refused, crashed, -⟩ := goOn_ended run job [] run.prepared.steps
      rw [← Task.start, ← came] at refused crashed
      exact Or.inl (exists_delivered refused crashed)
  | @advanced t did s _ ih =>
      cases t with
      | ended ending' => exact ih came
      | calling record step rest attempt =>
          rw [(advance_of_answers takes answered record step rest attempt s).1] at came
          cases came' : answers (step.request job.recordId job.input record) attempt with
          | none =>
              rw [came'] at came
              cases came
              exact Or.inr ⟨rfl, _, attempt, rfl, came'⟩
          | some answer =>
              obtain ⟨refused, crashed, -⟩ := settle_ended run job record step rest attempt
                (answer.judge step.step run.prepared.settings.timeoutMs)
              rw [came', onAnswer] at came
              rw [← came] at refused crashed
              exact Or.inl (exists_delivered refused crashed)

end Task

/-! ### The order of entries -/

/-- Whether an attempt comes before another: at an earlier step, or before it at the same step. -/
def Earlier (a b : Nat × Nat) : Prop := a.1 < b.1 ∨ a.1 = b.1 ∧ a.2 < b.2

/-- Whether entries are those of attempts at some places of a plan, each a step and the number of an
attempt, in their order. -/
structure Placed (steps : List PlannedStep) (places : List (Nat × Nat)) (entries : List AuditEntry) :
    Prop where
  entered : List.Forall₂ (fun place entry => (∃ step, steps[place.1]? = some step ∧
    entry.step = step.index) ∧ entry.attempt = place.2) places entries
  ascending : places.Pairwise Earlier

/-- Entries of steps whose indices are their positions are in the order of what they say. -/
theorem Placed.ordered {steps : List PlannedStep} {places : List (Nat × Nat)}
    {entries : List AuditEntry} (h : Placed steps places entries)
    (numbered : ∀ i (step : PlannedStep), steps[i]? = some step → step.index = i) :
    entries.Pairwise fun e f => Earlier (e.step, e.attempt) (f.step, f.attempt) := by
  have same : List.Forall₂ (fun place entry => place = (entry.step, entry.attempt)) places
      entries := by
    refine h.entered.imp ?_
    rintro ⟨position, attempt⟩ entry ⟨⟨step, found, index⟩, number⟩
    rw [index, number, numbered position step found]
  rw [← List.forall₂_map_right_iff, List.forall₂_eq_eq_eq] at same
  have ascending := h.ascending
  rw [same, List.pairwise_map] at ascending
  exact ascending

/-- Whether the next attempt of a task has its place behind the given ones. -/
def Task.Ahead (steps : List PreparedStep) (places : List (Nat × Nat)) : Task → Prop
  | ended _ => True
  | calling _ step rest attempt =>
    ∃ done, steps = done ++ step :: rest ∧ ∀ place ∈ places, Earlier place (done.length, attempt)

namespace Task

variable {env : Collaborators σ} {run : Run} {job : Job} {steps : List PreparedStep}
  {places : List (Nat × Nat)} {step : PreparedStep} {rest done : List PreparedStep} {attempt : Nat}

theorem ahead_goOn (run : Run) (job : Job) (record : Record) (done : List PreparedStep)
    (split : steps = done ++ rest) (behind : ∀ place ∈ places, Earlier place (done.length, 1)) :
    (goOn run job record rest).Ahead steps places := by
  cases rest with
  | nil => trivial
  | cons step rest => exact ⟨done, split, behind⟩

/-- After an attempt the next one has its place behind it. -/
theorem ahead_onAnswer (run : Run) (job : Job) (record : Record)
    (split : steps = done ++ step :: rest)
    (behind : ∀ place ∈ places, Earlier place (done.length, attempt)) (answer : Option Answer) :
    (onAnswer run job record step rest attempt answer).Ahead steps
      (places ++ [(done.length, attempt)]) := by
  have behind' : ∀ next, Earlier (done.length, attempt) next →
      ∀ place ∈ places ++ [(done.length, attempt)], Earlier place next := by
    intro next later place member
    rcases List.mem_append.1 member with old | new
    · have before := behind place old
      simp only [Earlier] at before later ⊢
      omega
    · rwa [List.mem_singleton.1 new]
  cases answer with
  | none => trivial
  | some answer =>
      rw [onAnswer]
      cases answer.judge step.step run.prepared.settings.timeoutMs with
      | ok v =>
          -- the place of the next step is one further
          apply ahead_goOn run job _ (done ++ [step])
          · rw [split, List.append_assoc, List.singleton_append]
          · apply behind'
            rw [List.length_append]
            exact Or.inl (Nat.lt_succ_self _)
      | error f =>
          rw [settle]
          split
          · exact ⟨done, split, behind' _ (Or.inr ⟨rfl, Nat.lt_succ_self _⟩)⟩
          · trivial

/-- The entries of a record are those of attempts one behind the other. -/
theorem Pursued.placed {answers : Request → Nat → Option Answer} {t : Task} {did : List Act}
    (takes : env.TakesAll)
    (answered : env.Answers run.prepared.settings.timeoutMs job.recordId answers)
    (h : Pursued env run job t did) : ∃ places,
      Placed (run.prepared.steps.map (·.step)) places ((logOf did).map AuditEntry.undated) ∧
      t.Ahead run.prepared.steps places := by
  induction h with
  | start =>
      refine ⟨[], ⟨.nil, .nil⟩, ?_⟩
      exact ahead_goOn run job [] [] rfl (List.forall_mem_nil _)
  | @advanced t did s _ ih =>
      obtain ⟨places, placed, ahead⟩ := ih
      cases t with
      | ended ending =>
          refine ⟨places, ?_, trivial⟩
          rw [show doneBy env run job (.ended ending) s = [] from rfl, List.append_nil]
          exact placed
      | calling record step rest attempt =>
          obtain ⟨done, split, behind⟩ := ahead
          obtain ⟨made, entered⟩ := advance_of_answers takes answered record step rest attempt s
          rw [logOf_append, List.map_append, made, entered]
          cases answers (step.request job.recordId job.input record) attempt with
          | none =>
              refine ⟨places, ?_, trivial⟩
              rw [entriesOn, Option.toList_none, List.map_nil, List.append_nil]
              exact placed
          | some answer =>
              refine ⟨places ++ [(done.length, attempt)], ⟨?_, ?_⟩,
                ahead_onAnswer run job record split behind _⟩
              · refine List.rel_append placed.entered (.cons ⟨⟨step.step, ?_, rfl⟩, rfl⟩ .nil)
                rw [split, List.map_append, List.getElem?_append_right, List.length_map,
                  Nat.sub_self]
                · rfl
                · exact Nat.le_of_eq (List.length_map _)
              · rw [List.pairwise_append]
                refine ⟨placed.ascending, List.pairwise_singleton _ _, ?_⟩
                intro place member next' last
                rw [List.mem_singleton.1 last]
                exact behind place member

end Task

namespace Pool

variable {env : Collaborators σ} {sink : Sink σ} {run : Run} {source : Source} {moves : List Move}
  {p : Pool} {did : List Act}

/-! ### Runs that nothing stops -/

theorem Reached.refusalsOf_eq_nil (h : Reached env run source moves p did) (takes : env.TakesAll) :
    refusalsOf did = [] := by
  induction h with
  | start => rfl
  | @move moves move p p' did new reached happens ih =>
      rw [refusalsOf_append, ih, List.nil_append]
      cases happens with
      | idle | cancelled | reads | spawned => rfl
      | attempted split attempted =>
          cases attempted with
          | crashed | entered => rfl
          | refused request entry message s same same' refused =>
              rw [takes entry s] at refused
              cases refused
      | settled reading split settles =>
          cases settles with
          | delivered | failed | lost => rfl

/-- A run that is over, and that nothing has stopped, has made a record of every unit. -/
theorem Reached.jobsOf_eq (h : Reached env run source moves p did) (takes : env.TakesAll)
    (uncancelled : .cancel ∉ moves) (ended : p.isOver = true) : jobsOf did = jobsIn source := by
  have unstopped : ¬ (p.summary.cancelled = true ∨ p.halted = true) := by
    rintro (noted | halted)
    · exact uncancelled (h.wanted.1 (h.wanted.2 noted))
    · exact h.halted_iff.1 halted (h.refusalsOf_eq_nil takes)
  obtain ⟨read, dropped, split, jobs, -, -, last⟩ := h.accounted
  have left := (h.drains (isOver_iff.1 ended).1).resolve_right unstopped
  have none := last.resolve_right fun why => unstopped why.2.2
  rw [jobs, split, left, none, List.append_nil, List.append_nil]

theorem mem_jobsIn {i : Nat} {unit : InputUnit} (found : (unitsOf source)[i]? = some unit) :
    Job.ofUnit (i + 1) unit ∈ jobsIn source := by
  refine List.mem_map.2 ⟨(unit, i + 1), ?_, rfl⟩
  rw [List.mem_zipIdx_iff_le_and_getElem?_sub]
  exact ⟨Nat.le_add_left 1 i, found⟩

/-- Every record of such a run has ended, and its share is that of its own attempts. -/
theorem exists_pursued (takes : env.TakesAll) (sink : Sink σ) {s : σ} (uncancelled : .cancel ∉ moves)
    (ended : (follow env sink run moves (start source) s).1.isOver = true) {i : Nat}
    {unit : InputUnit} (found : (unitsOf source)[i]? = some unit) : ∃ ending did,
      Task.Pursued env run (Job.ofUnit (i + 1) unit) (.ended ending) did ∧
      shareOf (i + 1) (chronicle env sink run moves (start source) s) =
        ⟨deliveredIn [(Job.ofUnit (i + 1) unit, ending)],
          (logOf did).map AuditEntry.undated⟩ := by
  have reached := reached_follow env sink run source moves s
  have projected := projected_follow env sink run source moves s
  have labelled := reached.labelled
  have nodup := reached.nodup_jobs
  rw [finished_of_isOver ended] at labelled
  rw [(isOver_iff.1 ended).2, List.map_nil, List.append_nil] at nodup
  have tracked := reached.jobs_perm
  rw [(isOver_iff.1 ended).2, List.map_nil, List.append_nil,
    reached.jobsOf_eq takes uncancelled ended] at tracked
  obtain ⟨⟨job, ending⟩, settled, eq⟩ := List.mem_map.1 (tracked.mem_iff.2 (mem_jobsIn found))
  simp only at eq
  subst eq
  refine ⟨ending, _, projected.pursued (_, .ended ending) ?_, ?_⟩
  · exact List.mem_append_left _ (List.mem_map.2 ⟨_, settled, rfl⟩)
  · rw [shareOf, entriesOf_logOf, reached.results_eq, filter_deliveredIn labelled]
    exact congrArg (fun ended => Share.mk (deliveredIn ended) _) (filter_recordId_eq nodup settled)

/-- What a run leaves for the record of its unit number `i`, counted from zero, if the log takes
every entry and the calls for the record come to the given answers. -/
structure Independent (plan : Plan) (loader : Loader) (timeoutMs : Nat)
    (answers : Request → Nat → Option Answer) (i : Nat) (unit : InputUnit) (share : Share) :
    Prop where
  /-- The same is left if the unit is processed on its own, in any world with the same answers. -/
  alone : ∀ {τ : Type} (env : Collaborators τ) (settings : Settings) (prepared : Prepared)
    (name : String) (s : τ), env.TakesAll → env.Answers timeoutMs (i + 1) answers →
    settings.timeoutMs = timeoutMs → Prepared.ofPlan plan loader settings = .ok prepared →
    Task.alone env ⟨prepared, name⟩ (Job.ofUnit (i + 1) unit) s = share
  /-- The same is left by any other run with the unit in its place, whatever its schedule, the other
  units that it reads and the answers to the calls for them. -/
  undisturbed : ∀ {τ : Type} (env : Collaborators τ) (sink : Sink τ) (settings : Settings)
    (prepared : Prepared) (name : String) (source : Source) (moves : List Move) (s : τ),
    env.TakesAll → env.Answers timeoutMs (i + 1) answers → settings.timeoutMs = timeoutMs →
    Prepared.ofPlan plan loader settings = .ok prepared → .cancel ∉ moves →
    (follow env sink ⟨prepared, name⟩ moves (start source) s).1.isOver = true →
    (unitsOf source)[i]? = some unit →
    shareOf (i + 1) (chronicle env sink ⟨prepared, name⟩ moves (start source) s) = share
  /-- The sink gets one result, unless a call for the record has no answer. -/
  delivered : (∃ result, share.results = [result]) ∨ share.results = [] ∧
    ∃ request attempt, request.recordId = i + 1 ∧ answers request attempt = none
  placed : ∃ places, Placed plan.steps places share.entries
  /-- Steps of a plan whose indices are their positions, as those of a declaration are
  (`StepsFit.index_eq`), are entered in their order, and the attempts of a step in theirs. -/
  ordered : (∀ i (step : PlannedStep), plan.steps[i]? = some step → step.index = i) →
    share.entries.Pairwise fun e f => Earlier (e.step, e.attempt) (f.step, f.attempt)

/-- What the attempts of a record that has ended leave is independent of all else. -/
theorem independent_of_pursued {plan : Plan} {loader : Loader} {settings : Settings}
    {prepared : Prepared} (ready : Prepared.ofPlan plan loader settings = .ok prepared)
    (takes : env.TakesAll) {name : String} {answers : Request → Nat → Option Answer} {i : Nat}
    {unit : InputUnit} (answered : env.Answers settings.timeoutMs (i + 1) answers) {ending : Ending}
    {did : List Act}
    (h : Task.Pursued env ⟨prepared, name⟩ (Job.ofUnit (i + 1) unit) (.ended ending) did) :
    Independent plan loader settings.timeoutMs answers i unit
      ⟨deliveredIn [(Job.ofUnit (i + 1) unit, ending)], (logOf did).map AuditEntry.undated⟩ := by
  obtain ⟨-, steps, -⟩ := Prepared.steps_of_ofPlan ready
  have time : prepared.settings = settings := by
    obtain ⟨-, _, _, -, rfl⟩ := Prepared.ofPlan_eq_ok_iff.1 ready
    rfl
  have answered' : env.Answers prepared.settings.timeoutMs (i + 1) answers := by rwa [time]
  have placed := h.placed takes answered'
  rw [steps] at placed
  obtain ⟨places, placed, -⟩ := placed
  constructor
  case alone =>
    intro τ env' settings' prepared' name' s' takes' answers' same ready'
    have alike := Run.alike_of_ofPlan ready ready' same name name'
    apply h.alone_eq alike takes takes' answered'
    rwa [time]
  case undisturbed =>
    intro τ env' sink' settings' prepared' name' source' moves' s' takes' answers' same ready'
      uncancelled' ended' found'
    -- the other run leaves what the unit leaves on its own, in its world as in any other
    obtain ⟨ending', did', pursued', share'⟩ :=
      exists_pursued takes' sink' uncancelled' ended' found'
    have time' : prepared'.settings = settings' := by
      obtain ⟨-, _, _, -, rfl⟩ := Prepared.ofPlan_eq_ok_iff.1 ready'
      rfl
    have alike' := Run.alike_of_ofPlan ready' ready' rfl name' name'
    have alike := Run.alike_of_ofPlan ready ready' same name name'
    rw [share', ← pursued'.alone_eq alike' takes' takes' (by rwa [time', same]) (by rwa [time', same])
      s']
    apply h.alone_eq alike takes takes' answered'
    rwa [time]
  case delivered =>
    rcases h.delivered takes answered' with ⟨result, rfl⟩ | ⟨rfl, none⟩
    · exact Or.inl ⟨result, rfl⟩
    · exact Or.inr ⟨rfl, none⟩
  case placed => exact ⟨places, placed⟩
  case ordered => exact placed.ordered

/-- If nobody cancels a run and the log takes every entry, the run can be carried to its end, and
what it then leaves for a record depends on the unit and on the answers to the calls for this record
alone. -/
theorem independent_of_follow {plan : Plan} {loader : Loader} {settings : Settings}
    {prepared : Prepared} (ready : Prepared.ofPlan plan loader settings = .ok prepared)
    (takes : env.TakesAll) (sink : Sink σ) (name : String) (source : Source) {moves : List Move}
    (uncancelled : .cancel ∉ moves) (s : σ) :
    (∃ more, .cancel ∉ moves ++ more ∧
      (follow env sink ⟨prepared, name⟩ (moves ++ more) (start source) s).1.isOver = true) ∧
    ((follow env sink ⟨prepared, name⟩ moves (start source) s).1.isOver = true →
      ∀ i unit answers, (unitsOf source)[i]? = some unit →
        env.Answers settings.timeoutMs (i + 1) answers →
        Independent plan loader settings.timeoutMs answers i unit
          (shareOf (i + 1) (chronicle env sink ⟨prepared, name⟩ moves (start source) s))) := by
  constructor
  · have room : 1 ≤ prepared.settings.concurrency := by
      obtain ⟨sound, _, _, -, rfl⟩ := Prepared.ofPlan_eq_ok_iff.1 ready
      exact Settings.room_of_sound sound
    obtain ⟨more, useful, ended⟩ := @exists_over σ ⟨prepared, name⟩ env sink room
      (follow env sink ⟨prepared, name⟩ moves (start source) s).1
      (follow env sink ⟨prepared, name⟩ moves (start source) s).2
    refine ⟨more, ?_, ?_⟩
    · rw [List.mem_append, not_or]
      exact ⟨uncancelled, useful⟩
    · rw [follow_append]
      exact ended
  · intro ended i unit answers found answered
    obtain ⟨ending, did, pursued, share⟩ := exists_pursued takes sink uncancelled ended found
    rw [share]
    exact independent_of_pursued ready takes answered pursued

/-- A world in which calls come to one answer, but those for one record do not get through. -/
def downFor (recordId : Nat) (reply : Reply) : Collaborators Unit :=
  { Collaborators.constant reply with
    reply := fun request _ s =>
      (if request.recordId = recordId then .transport "down" else reply, s) }

/-- Two records that take turns. -/
def turns : List Move :=
  [.proceed, .read, .proceed, .read, .advance 2, .advance 1, .advance 2, .proceed, .read, .settle 2,
    .settle 1]

/-- The calls for the second record do not get through, and the first record has the share that it
has in a world where they do. -/
theorem independent_of_follow_turns : ∃ plan prepared,
    Plan.ofDeclaration "DRAFT reply" (fun _ _ => none) = .ok plan ∧
    Prepared.ofPlan plan (fun _ _ => none) {} = .ok prepared ∧
    Independent plan (fun _ _ => none) 30000 (fun _ _ => some (.text "done")) 0 (.text "a")
      (shareOf 1 (chronicle (downFor 2 (.text "done")) (fun _ s => (true, s)) ⟨prepared, "run"⟩
        turns (start [.ok (.text "a"), .ok (.text "b")]) ())) ∧
    Task.alone (.constant (.text "done")) ⟨prepared, "other"⟩ (Job.ofUnit 1 (.text "a")) () =
      shareOf 1 (chronicle (downFor 2 (.text "done")) (fun _ s => (true, s)) ⟨prepared, "run"⟩ turns
        (start [.ok (.text "a"), .ok (.text "b")]) ()) := by
  have run : ((Plan.ofDeclaration "DRAFT reply" fun _ _ => none).toOption.bind fun plan =>
      (Prepared.ofPlan plan (fun _ _ => none) {}).toOption.map fun prepared =>
        (follow (downFor 2 (.text "done")) (fun _ s => (true, s)) ⟨prepared, "run"⟩ turns
          (start [.ok (.text "a"), .ok (.text "b")]) ()).1.isOver) = some true := by decide +kernel
  obtain ⟨plan, compiled, run⟩ := Option.bind_eq_some_iff.1 run
  obtain ⟨prepared, ready, ended⟩ := Option.map_eq_some_iff.1 run
  rw [Except.toOption_eq_some_iff] at compiled ready
  have takes : (downFor 2 (.text "done")).TakesAll := fun _ _ => rfl
  have answered : (downFor 2 (.text "done")).Answers 30000 1 fun _ _ => some (.text "done") := by
    intro request attempt s own
    simp [Task.invoke, downFor, Collaborators.constant, own]
  have independent := (independent_of_follow ready takes (fun _ s => (true, s)) "run" _
    (by decide) ()).2 ended 0 (.text "a") (fun _ _ => some (.text "done")) rfl answered
  refine ⟨plan, prepared, compiled, ready, independent, ?_⟩
  exact independent.alone (.constant (.text "done")) {} prepared "other" () (fun _ _ => rfl)
    (fun _ _ _ _ => rfl) rfl ready

end Pool

end RecordInference
