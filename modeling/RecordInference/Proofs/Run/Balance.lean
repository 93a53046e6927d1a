import RecordInference.Proofs.Run.Ledger

/-!
# The balance of the counters

A run counts when it settles a task that has ended, and it does so in one of three ways: a result is
counted and handed to the sink, a task that could not be entered into the log is not counted, and a
task that the client took down is counted as failed and not as a record. What the counters say is
kept by each of them (`tallied_settleEnding`), hence by any sequence of them (`tallied_settleAll`).

So there are never more flagged records or refusals of the sink than records. The completed and the
failed ones are as many as the records and the tasks that were taken down, so the records are the sum
of the two exactly as long as there was no such task (`balanced_of_settleAll`).
-/

set_option autoImplicit false

namespace RecordInference

/-- Whether the client took the task down. -/
def Ending.isCrash : Ending → Bool
  | .crashed => true
  | _ => false

/-- What the counters owe to each other, with so many tasks that were taken down. -/
structure Balanced (s : Summary) (crashes : Nat) : Prop where
  ended : s.completed + s.failed = s.records + crashes
  flagged : s.flagged ≤ s.records
  sinkErrors : s.sinkErrors ≤ s.records

namespace Pool

open Reached (Tallied)

variable {σ : Type} {p : Pool} {results : List (RecordResult × Bool)}
  {crashes : Nat}

theorem Reached.Tallied.balanced {counters : Summary} (h : Tallied counters results crashes) :
    Balanced counters crashes where
  ended := by
    have parts := List.length_eq_countP_add_countP
      (fun e : RecordResult × Bool => decide (e.1.status = .completed)) (l := results)
    simp only [decide_eq_true_eq] at parts
    rw [h.completed, h.failed, h.records, parts, Nat.add_assoc]
  flagged := by
    rw [h.flagged, h.records]
    exact List.countP_le_length
  sinkErrors := by
    rw [h.sinkErrors, h.records]
    exact List.countP_le_length

/-- The results among the ends of tasks, and whether the sink takes them as they come. -/
def handedOn (sink : Sink σ) : List Ending → σ → List (RecordResult × Bool)
  | [], _ => []
  | .delivered result :: rest, s =>
    let (taken, s) := sink result s
    (result, taken) :: handedOn sink rest s
  | .auditFailed _ :: rest, s => handedOn sink rest s
  | .crashed :: rest, s => handedOn sink rest s

/-- Settles tasks that have ended, one after the other. -/
def settleAll (sink : Sink σ) : List Ending → Pool → σ → Pool × σ
  | [], p, s => (p, s)
  | ending :: rest, p, s =>
    let (p, s) := settleEnding sink ending p s
    settleAll sink rest p s

/-- Settling one task keeps what the counters say. -/
theorem tallied_settleEnding (h : Tallied p.summary results crashes) (sink : Sink σ)
    (ending : Ending) (s : σ) :
    Tallied (settleEnding sink ending p s).1.summary (results ++ handedOn sink [ending] s)
      (crashes + if ending.isCrash then 1 else 0) := by
  cases ending with
  | delivered result => exact h.count result (sink result s).1
  | auditFailed message =>
      show Tallied _ (results ++ []) _
      rw [List.append_nil]
      exact h
  | crashed =>
      show Tallied _ (results ++ []) _
      rw [List.append_nil]
      obtain ⟨records, completed, failed, flagged, ruleErrors, sinkErrors⟩ := h
      exact ⟨records, completed, congrArg (· + 1) failed, flagged, ruleErrors, sinkErrors⟩

theorem handedOn_cons (sink : Sink σ) (ending : Ending) (rest : List Ending) (p : Pool) (s : σ) :
    handedOn sink (ending :: rest) s =
      handedOn sink [ending] s ++ handedOn sink rest (settleEnding sink ending p s).2 := by
  cases ending with
  | delivered | auditFailed | crashed => rfl

/-- Settling tasks one after the other keeps what the counters say. -/
theorem tallied_settleAll (h : Tallied p.summary results crashes) (sink : Sink σ)
    (endings : List Ending) (s : σ) :
    Tallied (settleAll sink endings p s).1.summary (results ++ handedOn sink endings s)
      (crashes + endings.countP Ending.isCrash) := by
  induction endings generalizing p s results crashes with
  | nil =>
      rw [handedOn, List.append_nil]
      exact h
  | cons ending rest ih =>
      have later := ih (tallied_settleEnding h sink ending s) (settleEnding sink ending p s).2
      rw [List.append_assoc, ← handedOn_cons, Nat.add_assoc,
        Nat.add_comm _ (rest.countP _), ← List.countP_cons] at later
      exact later

/-- However many tasks have been settled, and in whatever way each of them has ended, the counters
say what went to the sink and are in balance: the records are the completed and the failed ones
exactly if the client took no task down. -/
theorem balanced_of_settleAll (sink : Sink σ) (endings : List Ending) (p : Pool) (s : σ) :
    let counters := (settleAll sink endings { p with summary := {} } s).1.summary
    Tallied counters (handedOn sink endings s) (endings.countP Ending.isCrash) ∧
      Balanced counters (endings.countP Ending.isCrash) ∧
      (counters.records = counters.completed + counters.failed ↔
        ∀ ending ∈ endings, ending.isCrash = false) := by
  intro counters
  have fresh : Tallied ({} : Summary) [] 0 := ⟨rfl, rfl, rfl, rfl, rfl, rfl⟩
  have tallied : Tallied counters (handedOn sink endings s) (endings.countP Ending.isCrash) := by
    have all := tallied_settleAll (p := { p with summary := {} }) fresh sink endings s
    rwa [List.nil_append, Nat.zero_add] at all
  have balanced := tallied.balanced
  refine ⟨tallied, balanced, ?_⟩
  -- the sum is too large by the tasks that were taken down
  have none : endings.countP Ending.isCrash = 0 ↔ ∀ ending ∈ endings, ending.isCrash = false := by
    simp only [List.countP_eq_zero, Bool.not_eq_true]
  rw [← none, balanced.ended]
  omega

/-- The counters of a run are in balance at any time, with the tasks that were taken down and are
settled. -/
theorem balanced_of_follow {σ : Type} (env : Collaborators σ) (sink : Sink σ) (run : Run)
    (source : Source) (moves : List Move) (s : σ) :
    Balanced (follow env sink run moves (start source) s).1.summary
      (crashedIn (endingsOf (chronicle env sink run moves (start source) s))).length :=
  Reached.Tallied.balanced (reached_follow env sink run source moves s).tallied

/-- A run on one unit whose task the client takes down: it has a failed record, and no record. -/
theorem unbalanced_of_crash : ∃ plan prepared,
    Plan.ofDeclaration "DRAFT reply" (fun _ _ => none) = .ok plan ∧
    Prepared.ofPlan plan (fun _ _ => none) {} = .ok prepared ∧
    let final := (follow (.constant .crash) (fun _ s => (true, s)) ⟨prepared, "run"⟩
      [.proceed, .read, .proceed, .read, .advance 1, .settle 1] (start [.ok (.text "a")]) ()).1
    final.isOver = true ∧
      final.summary.records ≠ final.summary.completed + final.summary.failed := by
  have run : ((Plan.ofDeclaration "DRAFT reply" fun _ _ => none).toOption.bind fun plan =>
      (Prepared.ofPlan plan (fun _ _ => none) {}).toOption.map fun prepared =>
        let final := (follow (.constant .crash) (fun _ s => (true, s)) ⟨prepared, "run"⟩
          [.proceed, .read, .proceed, .read, .advance 1, .settle 1] (start [.ok (.text "a")]) ()).1
        final.isOver && decide (final.summary.records ≠
          final.summary.completed + final.summary.failed)) = some true := by decide +kernel
  obtain ⟨plan, compiled, run⟩ := Option.bind_eq_some_iff.1 run
  obtain ⟨prepared, ready, run⟩ := Option.map_eq_some_iff.1 run
  rw [Except.toOption_eq_some_iff] at compiled ready
  obtain ⟨ended, apart⟩ := Bool.and_eq_true_iff.1 run
  exact ⟨plan, prepared, compiled, ready, ended, of_decide_eq_true apart⟩

end Pool

end RecordInference
