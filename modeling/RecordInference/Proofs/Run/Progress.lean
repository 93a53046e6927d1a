import Mathlib.Algebra.GroupWithZero.Nat
import RecordInference.Proofs.Run.Chronicle

/-!
# Runs come to an end

`Pool.toDo` bounds the moves that a run can still make: every unit that is left may become a task,
and a task has its attempts. In a state that is not over some move lowers it (`exists_move`), so any
run can be carried to its end, wherever its schedule has led it (`exists_over`).
-/

set_option autoImplicit false

namespace RecordInference

/-- The attempts that a task may still make, and its settling. -/
def Task.toDo : Task → Nat
  | ended _ => 1
  | calling _ _ rest attempt => maxAttempts - attempt + maxAttempts * rest.length + 2

theorem Task.toDo_goOn (run : Run) (job : Job) (record : Record) (steps : List PreparedStep) :
    (goOn run job record steps).toDo ≤ maxAttempts * steps.length + 1 := by
  cases steps with
  | nil => exact Nat.le_refl 1
  | cons step rest =>
      simp only [goOn, toDo, maxAttempts, List.length_cons]
      omega

variable {σ : Type}

/-- An attempt is one attempt less to make. -/
theorem Attempted.toDo_lt {env : Collaborators σ} {run : Run} {job : Job} {record : Record}
    {step : PreparedStep} {rest : List PreparedStep} {attempt : Nat} {t : Task} {new : List Act}
    (h : Attempted env run job record step rest attempt t new) :
    t.toDo < (Task.calling record step rest attempt).toDo := by
  cases h with
  | crashed | refused =>
      simp only [Task.toDo]
      omega
  | entered request entry judgement =>
      -- an answer that is accepted ends the step, one that is not takes up one of its attempts
      cases judgement with
      | ok v =>
          have bound := Task.toDo_goOn run job (record.merge step.step.output v) rest
          refine Nat.lt_of_le_of_lt bound ?_
          simp only [Task.toDo]
          omega
      | error f =>
          simp only [Task.settle]
          split
          · simp only [Task.toDo]
            omega
          · simp only [Task.toDo]
            omega

namespace Pool

variable {env : Collaborators σ} {sink : Sink σ} {run : Run}

/-- The moves of the reader before it waits for the tasks. -/
def Phase.toDo : Phase → Nat
  | .admitting => 2
  | .reading => 1
  | .draining => 0

/-- The moves that a run may still make, but for cancellations. -/
def toDo (run : Run) (p : Pool) : Nat :=
  p.source.length * (maxAttempts * run.prepared.steps.length + 3) +
    (p.tasks.map fun e => e.2.toDo).sum + Phase.toDo p.phase

theorem toDo_proceed {p : Pool} (admitting : p.phase = .admitting)
    (room : p.running.length < run.prepared.settings.concurrency) :
    toDo run (p.proceed run.prepared.settings.concurrency) < toDo run p := by
  simp only [proceed, stopCancelled, if_pos room]
  split
  · simp [toDo, admitting, Phase.toDo]
  · split
    · simp [toDo, admitting, Phase.toDo]
    · split
      · simp [toDo, admitting, Phase.toDo]
      · simp [toDo, admitting, Phase.toDo]

theorem toDo_read {p : Pool} (reading : p.phase = .reading) : toDo run (p.read run) < toDo run p := by
  have start := fun job => Task.toDo_goOn run job [] run.prepared.steps
  rcases left : p.source with _ | ⟨unread | unit, source⟩
  · simp [read, left, toDo, reading, Phase.toDo]
  · simp only [read, left, toDo, reading, Phase.toDo, List.length_cons, Nat.succ_mul]
    omega
  · simp only [read, left]
    split
    · simp only [stopCancelled, left, toDo, reading, Phase.toDo, List.length_cons, Nat.succ_mul]
      omega
    · split
      · simp only [left, toDo, reading, Phase.toDo, List.length_cons, Nat.succ_mul]
        omega
      · -- the task of the unit has no more to do than the unit
        have bound := start (Job.ofUnit (p.admitted + 1) unit)
        simp only [spawn, left, toDo, reading, Phase.toDo, List.length_cons, Nat.succ_mul,
          List.map_append, List.sum_append, List.map_cons, List.map_nil, List.sum_cons, List.sum_nil,
          Task.start]
        omega

theorem toDo_advance {p : Pool} {job : Job} {record : Record} {step : PreparedStep}
    {rest : List PreparedStep} {attempt : Nat} {others : List (Job × Task)}
    (head : p.tasks = (job, .calling record step rest attempt) :: others) (s : σ) :
    toDo run (p.advance env run job.recordId s).1 < toDo run p := by
  obtain ⟨t, s', new, made, -, attempted⟩ :=
    Task.attempted_advance env run job record step rest attempt s
  have less := attempted.toDo_lt
  simp only [advance, head, advanceTask, if_pos, made, toDo, List.map_cons, List.sum_cons]
  omega

theorem toDo_settle {p : Pool} {job : Job} {ending : Ending} {others : List (Job × Task)}
    (busy : p.phase ≠ .reading) (head : p.tasks = (job, .ended ending) :: others) (s : σ) :
    toDo run (p.settle sink job.recordId s).1 < toDo run p := by
  simp only [settle, if_neg busy, head, takeEnded, if_pos]
  cases ending with
  | delivered | auditFailed | crashed =>
      simp only [settleEnding, toDo, head, List.map_cons, List.sum_cons, Task.toDo]
      omega

/-- A run that is not over has a move to make, and need not be cancelled. -/
theorem exists_move (env : Collaborators σ) (sink : Sink σ)
    (room : 1 ≤ run.prepared.settings.concurrency) {p : Pool} (h : ¬ p.isOver = true) (s : σ) :
    ∃ move, move ≠ .cancel ∧ toDo run (p.step env sink run move s).1 < toDo run p := by
  by_cases reading : p.phase = .reading
  · refine ⟨.read, by simp, ?_⟩
    rw [step, if_pos reading]
    exact toDo_read reading
  · rcases tasks : p.tasks with _ | ⟨⟨job, t⟩, others⟩
    · cases phase : p.phase with
      | reading => exact absurd phase reading
      | draining => exact absurd (by rw [isOver, phase, tasks]; rfl) h
      | admitting =>
          refine ⟨.proceed, by simp, ?_⟩
          rw [step, if_pos phase]
          apply toDo_proceed phase
          rw [running, tasks]
          exact room
    · cases t with
      | calling record step rest attempt =>
          exact ⟨.advance job.recordId, by simp, toDo_advance tasks s⟩
      | ended ending => exact ⟨.settle job.recordId, by simp, toDo_settle reading tasks s⟩

/-- A run can be carried to its end from wherever it is, and need not be cancelled for that. -/
theorem exists_over (env : Collaborators σ) (sink : Sink σ)
    (room : 1 ≤ run.prepared.settings.concurrency) (p : Pool) (s : σ) :
    ∃ moves, .cancel ∉ moves ∧ (follow env sink run moves p s).1.isOver = true := by
  induction left : toDo run p using Nat.strongRecOn generalizing p s with
  | ind n ih =>
      subst left
      by_cases ended : p.isOver = true
      · exact ⟨[], List.not_mem_nil, ended⟩
      · obtain ⟨move, useful, less⟩ := exists_move env sink room ended s
        obtain ⟨moves, uncancelled, done⟩ := ih _ less _ (p.step env sink run move s).2 rfl
        refine ⟨move :: moves, ?_, done⟩
        rw [List.mem_cons, not_or]
        exact ⟨useful.symm, uncancelled⟩

/-- A schedule can be extended to one that ends the run. -/
theorem exists_more (env : Collaborators σ) (sink : Sink σ)
    (room : 1 ≤ run.prepared.settings.concurrency) (moves : List Move) (p : Pool) (s : σ) :
    ∃ more, (follow env sink run (moves ++ more) p s).1.isOver = true := by
  obtain ⟨more, -, ended⟩ := exists_over env sink room (follow env sink run moves p s).1
    (follow env sink run moves p s).2
  refine ⟨more, ?_⟩
  rw [follow_append]
  exact ended

end Pool

end RecordInference
