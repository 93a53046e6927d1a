import RecordInference.Proofs.Run.Ledger

/-!
# One record of a run

The tasks of a run touch each other only through the world outside: what one task does to its state
the next one finds. So a record of a run does what a record does on its own whose attempts are made
in states of the world that come from anywhere (`Task.Pursued`), and the acts that the run does for
the record are those of its attempts, in their order (`projected_follow`).
-/

set_option autoImplicit false

namespace RecordInference

/-! ### The acts of a record -/

/-- The record that an act of an attempt is for. -/
def Act.recordId? : Act → Option Nat
  | called request _ => some request.recordId
  | crashed request _ => some request.recordId
  | appended entry _ => some entry.recordId
  | _ => none

/-- What the attempts of a record did, in their order. -/
def attemptsOf (recordId : Nat) (did : List Act) : List Act :=
  did.filter fun act => act.recordId? = some recordId

@[simp] theorem attemptsOf_append (recordId : Nat) (did new : List Act) :
    attemptsOf recordId (did ++ new) = attemptsOf recordId did ++ attemptsOf recordId new :=
  List.filter_append did new

theorem attemptsOf_eq_self {recordId : Nat} {new : List Act}
    (own : ∀ act ∈ new, act.recordId? = some recordId) : attemptsOf recordId new = new :=
  List.filter_eq_self.2 fun act member => decide_eq_true (own act member)

theorem attemptsOf_eq_nil {recordId : Nat} {new : List Act}
    (other : ∀ act ∈ new, act.recordId? ≠ some recordId) : attemptsOf recordId new = [] :=
  List.filter_eq_nil_iff.2 fun act member own => other act member (of_decide_eq_true own)

variable {σ : Type} {env : Collaborators σ} {run : Run}

/-- The acts of an attempt are for the record of its task. -/
theorem Attempted.recordId?_eq {job : Job} {record : Record} {step : PreparedStep}
    {rest : List PreparedStep} {attempt : Nat} {t : Task} {new : List Act}
    (h : Attempted env run job record step rest attempt t new) :
    ∀ act ∈ new, act.recordId? = some job.recordId := by
  cases h with
  | crashed request s same =>
      have own : some request.recordId = some job.recordId := congrArg some same
      exact List.forall_mem_cons.2 ⟨own, List.forall_mem_singleton.2 own⟩
  | refused request entry message s same same' | entered request entry judgement same same' =>
      exact List.forall_mem_cons.2 ⟨congrArg some same,
        List.forall_mem_singleton.2 (congrArg some same')⟩

namespace Task

/-- What an attempt of a task does. -/
def doneBy (env : Collaborators σ) (run : Run) (job : Job) (t : Task) (s : σ) : List Act :=
  (advance env.recorded run job t (s, [])).2.2

/-- What a task does is recorded behind what was done before, and recording changes nothing. -/
theorem advance_recorded (env : Collaborators σ) (run : Run) (job : Job) (t : Task) (s : σ)
    (acts : List Act) : advance env.recorded run job t (s, acts) =
      ((advance env run job t s).1, (advance env run job t s).2, acts ++ doneBy env run job t s) := by
  cases t with
  | ended ending => exact congrArg (fun new => (_, _, new)) (List.append_nil acts).symm
  | calling record step rest attempt =>
      obtain ⟨t, s', new, made, recorded, -⟩ :=
        attempted_advance env run job record step rest attempt s
      rw [doneBy, made, recorded, recorded]
      rfl

theorem recordId?_of_doneBy (env : Collaborators σ) (run : Run) (job : Job) (t : Task) (s : σ) :
    ∀ act ∈ doneBy env run job t s, act.recordId? = some job.recordId := by
  cases t with
  | ended ending => exact List.forall_mem_nil _
  | calling record step rest attempt =>
      obtain ⟨t, s', new, -, recorded, attempted⟩ :=
        attempted_advance env run job record step rest attempt s
      rw [doneBy, recorded]
      exact attempted.recordId?_eq

theorem quiet_of_doneBy (env : Collaborators σ) (run : Run) (job : Job) (t : Task) (s : σ) :
    jobsOf (doneBy env run job t s) = [] ∧ endingsOf (doneBy env run job t s) = [] := by
  cases t with
  | ended ending => exact ⟨rfl, rfl⟩
  | calling record step rest attempt =>
      obtain ⟨t, s', new, -, recorded, attempted⟩ :=
        attempted_advance env run job record step rest attempt s
      rw [doneBy, recorded]
      exact ⟨attempted.quiet.1, attempted.quiet.2.1⟩

/-- What a record has come to and what its attempts did, each of them in some state of the world
outside. -/
inductive Pursued (env : Collaborators σ) (run : Run) (job : Job) : Task → List Act → Prop
  | start : Pursued env run job (Task.start run job) []
  | advanced {t : Task} {did : List Act} (s : σ) : Pursued env run job t did →
      Pursued env run job (advance env run job t s).1 (did ++ doneBy env run job t s)

end Task

namespace Pool

/-! ### What a move does to the tasks -/

/-- The tasks of a run, those that are settled first. -/
def tracked (p : Pool) (did : List Act) : List (Job × Task) :=
  ((endingsOf did).map fun e => (e.1, .ended e.2)) ++ p.tasks

theorem tracked_perm_of_tasks {p : Pool} {before after : List (Job × Task)} {e : Job × Task}
    (split : p.tasks = before ++ e :: after) (did : List Act) : (p.tracked did).Perm
      (e :: (((endingsOf did).map fun e => (e.1, .ended e.2)) ++ (before ++ after))) := by
  rw [tracked, split, ← List.append_assoc, ← List.append_assoc]
  exact List.perm_middle

/-- Only the task that is advanced makes an attempt, whatever the world outside. -/
theorem advanceTask_eq (run : Run) (recordId : Nat) (tasks : List (Job × Task)) :
    (∀ (τ : Type) (env : Collaborators τ) (s : τ),
      advanceTask env run recordId tasks s = (tasks, s)) ∨
    ∃ before job t after, tasks = before ++ (job, t) :: after ∧
      ∀ (τ : Type) (env : Collaborators τ) (s : τ), advanceTask env run recordId tasks s =
        (before ++ (job, (Task.advance env run job t s).1) :: after,
          (Task.advance env run job t s).2) := by
  induction tasks with
  | nil => exact Or.inl fun _ _ _ => rfl
  | cons first others ih =>
      obtain ⟨job, t⟩ := first
      simp only [advanceTask]
      by_cases here : job.recordId = recordId
      · simp only [if_pos here]
        exact Or.inr ⟨[], job, t, others, rfl, fun _ _ _ => rfl⟩
      · simp only [if_neg here]
        rcases ih with same | ⟨before, job', t', after, rfl, made⟩
        · refine Or.inl fun τ env s => ?_
          rw [same]
        · refine Or.inr ⟨(job, t) :: before, job', t', after, rfl, fun τ env s => ?_⟩
          rw [made]
          rfl

variable {sink : Sink σ} {source : Source} {moves : List Move} {move : Move} {p p' : Pool}
  {did new : List Act}

/-- A move that advances no task starts the tasks of the jobs that it admits, and leaves the others
as they are. -/
theorem Happens.tracked_perm (h : Happens env run move p p' new)
    (still : ∀ recordId, move ≠ .advance recordId) (did : List Act) :
    (p'.tracked (did ++ new)).Perm
        (p.tracked did ++ (jobsOf new).map fun job => (job, Task.start run job)) ∧
      ∀ act ∈ new, act.recordId? = none := by
  cases h with
  | idle | cancelled =>
      refine ⟨?_, List.forall_mem_nil _⟩
      rw [List.append_nil]
      exact .of_eq (List.append_nil _).symm
  | reads reads =>
      refine ⟨?_, List.forall_mem_nil _⟩
      rw [List.append_nil, tracked, tracked, reads.frame.1]
      exact .of_eq (List.append_nil _).symm
  | spawned unit source reading left unwanted unhalted =>
      refine ⟨.of_eq ?_, List.forall_mem_singleton.2 rfl⟩
      rw [tracked, tracked, endingsOf_append]
      simp [spawn, endingsOf, jobsOf]
  | @attempted recordId => exact absurd rfl (still recordId)
  | @settled recordId p p' before after job ending new reading split settles =>
      obtain ⟨-, -, -, tasks, -⟩ := settles.frame
      refine ⟨?_, ?_⟩
      · simp only [tracked, endingsOf_append, settles.endingsOf_settled, settles.jobsOf_settled,
          tasks, split, List.map_append, List.map_cons, List.map_nil, List.append_nil,
          List.append_assoc, List.singleton_append]
        -- the task leaves its place for the settled ones
        exact List.Perm.append_left _ List.perm_middle.symm
      · cases settles with
        | delivered =>
            exact List.forall_mem_cons.2 ⟨rfl, List.forall_mem_singleton.2 rfl⟩
        | failed | lost => exact List.forall_mem_singleton.2 rfl

/-- A move that advances a task does what an attempt of that task does, and nothing if the run has
no such task. -/
theorem acts_advance (env : Collaborators σ) (sink : Sink σ) (run : Run) (recordId : Nat) (p : Pool)
    (s : σ) :
    ((p.step env sink run (.advance recordId) s).1.tasks = p.tasks ∧
      p.acts env sink run (.advance recordId) s = []) ∨
    ∃ before job t after, p.tasks = before ++ (job, t) :: after ∧
      (p.step env sink run (.advance recordId) s).1.tasks =
        before ++ (job, (Task.advance env run job t s).1) :: after ∧
      p.acts env sink run (.advance recordId) s = Task.doneBy env run job t s := by
  rcases advanceTask_eq run recordId p.tasks with same | ⟨before, job, t, after, split, made⟩
  · refine Or.inl ⟨?_, ?_⟩
    · simp only [step, advance, same]
    · simp only [acts, step, advance, same, settledBy, List.drop_length]
      rfl
  · refine Or.inr ⟨before, job, t, after, split, ?_, ?_⟩
    · simp only [step, advance, made]
    · have same : (before ++ (job, (Task.advance env.recorded run job t (s, [])).1) :: after).length =
          (before ++ (job, t) :: after).length := by
        rw [List.length_append, List.length_append]
        rfl
      simp only [acts, step, advance, made, settledBy]
      rw [split, List.drop_eq_nil_of_le (Nat.le_of_eq same)]
      rfl

/-! ### Runs -/

/-- Whether a run does for every record what the attempts of its task do, and nothing for a record
that was not admitted. -/
structure Projected (env : Collaborators σ) (run : Run) (p : Pool) (did : List Act) : Prop where
  pursued : ∀ e ∈ p.tracked did, Task.Pursued env run e.1 e.2 (attemptsOf e.1.recordId did)
  admitted : ∀ act ∈ did, ∀ recordId, act.recordId? = some recordId →
    recordId ∈ (jobsOf did).map (·.recordId)

theorem Reached.map_tracked_perm (h : Reached env run source moves p did) :
    ((p.tracked did).map (·.1)).Perm (jobsOf did) := by
  have jobs := h.jobs_perm
  rw [tracked, List.map_append, List.map_map]
  exact jobs

theorem Reached.nodup_tracked (h : Reached env run source moves p did) :
    ((p.tracked did).map (·.1.recordId)).Nodup := by
  have nodup := h.nodup_jobs
  rw [tracked, List.map_append, List.map_map]
  exact nodup

theorem Reached.nodup_jobsOf (h : Reached env run source moves p did) :
    ((jobsOf did).map (·.recordId)).Nodup := by
  have same := h.map_tracked_perm.map (·.recordId)
  rw [List.map_map] at same
  exact same.nodup_iff.1 h.nodup_tracked

/-- An attempt is one more attempt of its record, and none of another record. -/
theorem Projected.advanced (h : Projected env run p did)
    (reached : Reached env run source moves p did) {before after : List (Job × Task)} {job : Job}
    {t : Task} (split : p.tasks = before ++ (job, t) :: after) (s : σ)
    (tasks : p'.tasks = before ++ (job, (Task.advance env run job t s).1) :: after) :
    Projected env run p' (did ++ Task.doneBy env run job t s) := by
  obtain ⟨jobs, endings⟩ := Task.quiet_of_doneBy env run job t s
  have own := Task.recordId?_of_doneBy env run job t s
  have old := tracked_perm_of_tasks split did
  have fresh := tracked_perm_of_tasks tasks did
  have here : (job, t) ∈ p.tracked did := old.mem_iff.2 List.mem_cons_self
  -- the task that makes the attempt is the only one of its record
  have apart := (old.map (·.1.recordId)).nodup_iff.1 reached.nodup_tracked
  rw [List.map_cons, List.nodup_cons] at apart
  constructor
  · intro e member
    have same : p'.tracked (did ++ Task.doneBy env run job t s) = p'.tracked did := by
      rw [tracked, tracked, endingsOf_append, endings, List.append_nil]
    rw [same, fresh.mem_iff] at member
    rw [attemptsOf_append]
    rcases List.mem_cons.1 member with rfl | other
    · rw [attemptsOf_eq_self own]
      exact (h.pursued _ here).advanced s
    · have none : attemptsOf e.1.recordId (Task.doneBy env run job t s) = [] := by
        refine attemptsOf_eq_nil fun act made eq => apart.1 ?_
        rw [own act made, Option.some.injEq] at eq
        exact eq ▸ List.mem_map_of_mem other
      rw [none, List.append_nil]
      exact h.pursued _ (old.mem_iff.2 (List.mem_cons_of_mem _ other))
  · intro act member recordId eq
    rw [jobsOf_append, jobs, List.append_nil]
    rcases List.mem_append.1 member with earlier | made
    · exact h.admitted act earlier recordId eq
    · rw [own act made, Option.some.injEq] at eq
      have admitted := reached.map_tracked_perm.mem_iff.1 (List.mem_map_of_mem here)
      exact eq ▸ List.mem_map_of_mem admitted

/-- A move that advances no task is no attempt of any record. -/
theorem Projected.still (h : Projected env run p did)
    (reached : Reached env run source (moves ++ [move]) p' (did ++ new))
    (happens : Happens env run move p p' new) (still : ∀ recordId, move ≠ .advance recordId) :
    Projected env run p' (did ++ new) := by
  obtain ⟨same, silent⟩ := happens.tracked_perm still did
  have none : ∀ recordId, attemptsOf recordId new = [] := fun recordId =>
    attemptsOf_eq_nil fun act member eq => nomatch (silent act member).symm.trans eq
  have nodup := reached.nodup_jobsOf
  rw [jobsOf_append, List.map_append, List.nodup_append] at nodup
  constructor
  · intro e member
    rw [attemptsOf_append, none, List.append_nil]
    rcases List.mem_append.1 (same.mem_iff.1 member) with old | fresh
    · exact h.pursued e old
    · -- nothing was done for a record before it was admitted
      obtain ⟨job, admitted, rfl⟩ := List.mem_map.1 fresh
      rw [attemptsOf_eq_nil]
      · exact .start
      · intro act done eq
        exact nodup.2.2 _ (h.admitted act done _ eq) _ (List.mem_map_of_mem admitted) rfl
  · intro act member recordId eq
    rw [jobsOf_append, List.map_append]
    rcases List.mem_append.1 member with earlier | made
    · exact List.mem_append_left _ (h.admitted act earlier recordId eq)
    · exact nomatch (silent act made).symm.trans eq

/-- Under every schedule a run does for every record what the attempts of its task do. -/
theorem projected_follow (env : Collaborators σ) (sink : Sink σ) (run : Run) (source : Source)
    (moves : List Move) (s : σ) :
    Projected env run (follow env sink run moves (start source) s).1
      (chronicle env sink run moves (start source) s) := by
  induction moves using List.reverseRecOn with
  | nil => exact ⟨List.forall_mem_nil _, List.forall_mem_nil _⟩
  | append_singleton moves move ih =>
      have before := reached_follow env sink run source moves s
      have after := reached_follow env sink run source (moves ++ [move]) s
      rw [follow_append, chronicle_append] at after ⊢
      simp only [follow, chronicle, List.append_nil] at after ⊢
      have happens := @happens_step σ env sink run _ before.noted move
        (follow env sink run moves (start source) s).2
      cases move with
      | advance recordId =>
          rcases acts_advance env sink run recordId (follow env sink run moves (start source) s).1
            (follow env sink run moves (start source) s).2 with ⟨same, none⟩ |
            ⟨_, job, t, _, split, tasks, done⟩
          · rw [none, List.append_nil]
            refine ⟨?_, ih.admitted⟩
            rw [tracked, same]
            exact ih.pursued
          · rw [done]
            exact ih.advanced before split _ tasks
      | proceed | read | settle | cancel => exact ih.still after happens (by simp)

end Pool

end RecordInference
