import RecordInference.Run.Pool

/-!
# Tasks of a run

What holds of a task at its start, and is kept by every attempt, holds of all tasks of a run at
any time, whatever the schedule (`forall_tasks_follow`).
-/

set_option autoImplicit false

namespace RecordInference.Pool

variable {σ : Type} {env : Collaborators σ} {sink : Sink σ} {run : Run} {P : Job → Task → Prop}

theorem forall_advanceTask
    (attempts : ∀ job t s, P job t → P job (Task.advance env run job t s).1) {recordId : Nat}
    {tasks : List (Job × Task)} (h : ∀ e ∈ tasks, P e.1 e.2) (s : σ) :
    ∀ e ∈ (advanceTask env run recordId tasks s).1, P e.1 e.2 := by
  induction tasks with
  | nil => exact h
  | cons first rest ih =>
      obtain ⟨job, t⟩ := first
      obtain ⟨here, later⟩ := List.forall_mem_cons.1 h
      rw [advanceTask]
      -- only the first task of the record makes an attempt
      split
      · exact List.forall_mem_cons.2 ⟨attempts job t s here, later⟩
      · exact List.forall_mem_cons.2 ⟨here, ih later⟩

theorem mem_of_takeEnded {recordId : Nat} {tasks rest : List (Job × Task)} {ending : Ending}
    (h : takeEnded recordId tasks = some (ending, rest)) : ∀ e ∈ rest, e ∈ tasks := by
  induction tasks generalizing rest with
  | nil => cases h
  | cons first later ih =>
      obtain ⟨job, t⟩ := first
      simp only [takeEnded] at h
      split at h
      · split at h
        · cases h
          intro e member
          exact List.mem_cons_of_mem _ member
        · cases h
      · obtain ⟨⟨ending', rest'⟩, taken, eq⟩ := Option.map_eq_some_iff.1 h
        cases eq
        intro e member
        rcases List.mem_cons.1 member with rfl | other
        · exact List.mem_cons_self
        · exact List.mem_cons_of_mem _ (ih taken e other)

theorem tasks_settleEnding (sink : Sink σ) (ending : Ending) (p : Pool) (s : σ) :
    (settleEnding sink ending p s).1.tasks = p.tasks := by
  cases ending with
  | delivered | auditFailed | crashed => rfl

theorem tasks_proceed (concurrency : Nat) (p : Pool) : (p.proceed concurrency).tasks = p.tasks := by
  simp only [proceed, stopCancelled]
  split
  · rfl
  · split
    · rfl
    · split
      · rfl
      · split
        · rfl
        · rfl

theorem forall_tasks_read (starts : ∀ job, P job (Task.start run job)) {p : Pool}
    (h : ∀ e ∈ p.tasks, P e.1 e.2) : ∀ e ∈ (p.read run).tasks, P e.1 e.2 := by
  rw [read]
  split
  · exact h
  · exact h
  · simp only
    split
    · exact h
    · split
      · exact h
      · exact List.forall_mem_append.2 ⟨h, List.forall_mem_singleton.2 (starts _)⟩

/-- A move keeps what starts and attempts keep. -/
theorem forall_tasks_step (starts : ∀ job, P job (Task.start run job))
    (attempts : ∀ job t s, P job t → P job (Task.advance env run job t s).1) (move : Move)
    {p : Pool} (h : ∀ e ∈ p.tasks, P e.1 e.2) (s : σ) :
    ∀ e ∈ (p.step env sink run move s).1.tasks, P e.1 e.2 := by
  cases move with
  | proceed =>
      rw [step]
      split
      · rw [tasks_proceed]
        exact h
      · exact h
  | read =>
      rw [step]
      split
      · exact forall_tasks_read starts h
      · exact h
  | advance recordId => exact forall_advanceTask attempts h s
  | settle recordId =>
      rw [step, settle]
      split
      · exact h
      · split
        · exact h
        · next taken =>
          rw [tasks_settleEnding]
          intro e member
          exact h e (mem_of_takeEnded taken e member)
  | cancel => exact h

/-- Whatever moves a run makes, its tasks are as starts and attempts leave them. -/
theorem forall_tasks_follow (starts : ∀ job, P job (Task.start run job))
    (attempts : ∀ job t s, P job t → P job (Task.advance env run job t s).1) (moves : List Move)
    {p : Pool} (h : ∀ e ∈ p.tasks, P e.1 e.2) (s : σ) :
    ∀ e ∈ (follow env sink run moves p s).1.tasks, P e.1 e.2 := by
  induction moves generalizing p s with
  | nil => exact h
  | cons move rest ih => exact ih (forall_tasks_step starts attempts move h s) _

end RecordInference.Pool
