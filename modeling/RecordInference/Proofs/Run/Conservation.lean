import RecordInference.Proofs.Run.Ledger
import RecordInference.Proofs.Run.Progress

/-!
# No unit is lost

If every call is answered and every entry is taken, a run that is over has made a record of every
unit of what it has read: each is numbered by its place, and its result goes to the sink once
(`conserved_of_follow`). A cancellation may cut the source short, and may then drop one unit that
was being read. Any run can be carried to its end.
-/

set_option autoImplicit false

namespace RecordInference.Pool

/-- What adds up when a run on a source is over: what it has read became jobs, and a unit that was
read and dropped is there only after a cancellation. -/
structure Conserved (source : Source) (moves : List Move) (p : Pool) (did : List Act)
    (read dropped : Source) : Prop where
  split : source = read ++ dropped ++ p.source
  dropped : dropped = [] ∨ (∃ unit, dropped = [.ok unit]) ∧ p.summary.cancelled = true
  cancelled : p.summary.cancelled = true → Move.cancel ∈ moves
  whole : p.summary.cancelled = false → read = source
  jobs : jobsOf did = jobsIn read
  /-- Every record goes to the sink once. -/
  once : ((resultsOf did).map (·.1.recordId)).Perm (List.range' 1 (unitsOf read).length)
  /-- Every result is that of a unit. -/
  handed : ((resultsOf did).map fun e => (e.1.recordId, e.1.inputRef)).Perm
    ((jobsIn read).map fun job => (job.recordId, job.inputRef))
  records : p.summary.records = (unitsOf read).length
  ended : p.summary.records = p.summary.completed + p.summary.failed
  completed : p.summary.completed = (resultsOf did).countP fun e => e.1.status = .completed
  sourceErrors : p.summary.sourceErrors = failuresIn read
  sinkErrors : p.summary.sinkErrors = (resultsOf did).countP fun e => !e.2
  flagged : p.summary.flagged = (resultsOf did).countP fun e => !e.1.flagReasons.isEmpty
  ruleErrors : p.summary.ruleErrors = ((resultsOf did).map fun e => e.1.ruleErrors.length).sum
  outcome : p.outcome = .ok p.summary

variable {σ : Type} {env : Collaborators σ} {run : Run} {source : Source} {moves : List Move}
  {p : Pool} {did : List Act}

theorem Reached.conserved (h : Reached env run source moves p did) (steady : env.Steady)
    (ended : p.isOver = true) : ∃ read dropped, Conserved source moves p did read dropped := by
  obtain ⟨refusals, crashes⟩ := h.steady steady
  obtain ⟨draining, tasks⟩ := isOver_iff.1 ended
  obtain ⟨read, dropped, split, jobs, -, failures, last⟩ := h.accounted
  obtain ⟨made, noted⟩ := h.wanted
  -- no entry is refused, so nothing but a cancellation stops the reading
  have unhalted : p.halted ≠ true := fun halted => h.halted_iff.1 halted refusals
  have refused : refusedIn (endingsOf did) = [] := by
    rw [← finished_of_isOver ended]
    exact List.perm_nil.1 (refusals ▸ h.refused_perm)
  have crashed : crashedIn (endingsOf did) = [] := by
    rw [← finished_of_isOver ended]
    exact List.perm_nil.1 (crashes ▸ h.crashed_perm)
  have settled : ((endingsOf did).map (·.1)).Perm (jobsIn read) := by
    have same := h.jobs_perm
    rwa [tasks, List.map_nil, List.append_nil, jobs] at same
  have handed : ((resultsOf did).map fun e => (e.1.recordId, e.1.inputRef)).Perm
      ((jobsIn read).map fun job => (job.recordId, job.inputRef)) := by
    have labelled := h.labelled
    rw [finished_of_isOver ended] at labelled
    have same := settled.map fun job => (job.recordId, job.inputRef)
    rwa [List.map_map, Function.comp_def, ← results_of_delivered labelled refused crashed,
      ← h.results_eq, List.map_map] at same
  have once : ((resultsOf did).map (·.1.recordId)).Perm (List.range' 1 (unitsOf read).length) := by
    have same := handed.map (·.1)
    rw [List.map_map, List.map_map] at same
    exact same.trans (.of_eq (map_recordId_jobsIn read))
  have tally := h.tallied
  rw [crashed] at tally
  have count := List.length_eq_countP_add_countP
    (fun e : RecordResult × Bool => decide (e.1.status = .completed)) (l := resultsOf did)
  have length := handed.length_eq
  rw [List.length_map, List.length_map, jobsIn, List.length_map, List.length_zipIdx] at length
  have cut : p.summary.cancelled = false → read = source := by
    intro uncancelled
    have end_ : p.source = [] := by
      rcases h.drains draining with left | stopped | halted
      · exact left
      · rw [uncancelled] at stopped
        cases stopped
      · exact absurd halted unhalted
    have none : dropped = [] := by
      rcases last with none | ⟨-, -, stopped | halted⟩
      · exact none
      · rw [uncancelled] at stopped
        cases stopped
      · exact absurd halted unhalted
    rw [split, end_, none, List.append_nil, List.append_nil]
  exact ⟨read, dropped, {
    split
    dropped := last.imp_right fun why => ⟨why.1, why.2.2.resolve_right unhalted⟩
    cancelled := fun stopped => made (noted stopped)
    whole := cut
    jobs
    once
    handed
    records := tally.records.trans length
    ended := by
      rw [tally.records, tally.completed, tally.failed, count]
      simp
    completed := tally.completed
    sourceErrors := failures
    sinkErrors := tally.sinkErrors
    flagged := tally.flagged
    ruleErrors := tally.ruleErrors
    outcome := by
      rw [Pool.outcome, h.fatal_eq, refused]
      rfl }⟩

/-- Where every call is answered and every entry is taken no unit is lost and none is made a record
twice, wherever a run is cancelled and however its tasks take turns. -/
theorem conserved_of_follow (steady : env.Steady) (sink : Sink σ)
    (room : 1 ≤ run.prepared.settings.concurrency) (source : Source) (moves : List Move) (s : σ) :
    (∃ more, (follow env sink run (moves ++ more) (start source) s).1.isOver = true) ∧
    ((follow env sink run moves (start source) s).1.isOver = true → ∃ read dropped,
      Conserved source moves (follow env sink run moves (start source) s).1
        (chronicle env sink run moves (start source) s) read dropped) :=
  ⟨exists_more env sink room moves _ s,
    (reached_follow env sink run source moves s).conserved steady⟩

/-- A run that is cancelled while its second unit is read. -/
theorem conserved_of_follow_cancelled : ∃ plan prepared read dropped,
    Plan.ofDeclaration "DRAFT reply" (fun _ _ => none) = .ok plan ∧
    Prepared.ofPlan plan (fun _ _ => none) {} = .ok prepared ∧
    Conserved [.ok (.text "a"), .error "gone", .ok (.text "b"), .ok (.text "c")]
      [.proceed, .read, .proceed, .read, .proceed, .cancel, .advance 1, .read, .settle 1]
      (follow (.constant (.text "done")) (fun _ s => (false, s)) ⟨prepared, "run"⟩
        [.proceed, .read, .proceed, .read, .proceed, .cancel, .advance 1, .read, .settle 1]
        (start [.ok (.text "a"), .error "gone", .ok (.text "b"), .ok (.text "c")]) ()).1
      (chronicle (.constant (.text "done")) (fun _ s => (false, s)) ⟨prepared, "run"⟩
        [.proceed, .read, .proceed, .read, .proceed, .cancel, .advance 1, .read, .settle 1]
        (start [.ok (.text "a"), .error "gone", .ok (.text "b"), .ok (.text "c")]) ())
      read dropped := by
  have run : ((Plan.ofDeclaration "DRAFT reply" fun _ _ => none).toOption.bind fun plan =>
      (Prepared.ofPlan plan (fun _ _ => none) {}).toOption.map fun prepared =>
        decide (1 ≤ prepared.settings.concurrency) &&
        (follow (.constant (.text "done")) (fun _ s => (false, s)) ⟨prepared, "run"⟩
          [.proceed, .read, .proceed, .read, .proceed, .cancel, .advance 1, .read, .settle 1]
          (start [.ok (.text "a"), .error "gone", .ok (.text "b"), .ok (.text "c")])
          ()).1.isOver) = some true := by decide +kernel
  obtain ⟨plan, compiled, run⟩ := Option.bind_eq_some_iff.1 run
  obtain ⟨prepared, ready, run⟩ := Option.map_eq_some_iff.1 run
  rw [Except.toOption_eq_some_iff] at compiled ready
  obtain ⟨room, ended⟩ := Bool.and_eq_true_iff.1 run
  have steady : (Collaborators.constant (.text "done")).Steady :=
    Collaborators.steady_constant (by decide)
  obtain ⟨read, dropped, conserved⟩ := (@conserved_of_follow _ _ ⟨prepared, "run"⟩ steady
    (fun _ s => (false, s)) (of_decide_eq_true room) _ _ ()).2 ended
  exact ⟨plan, prepared, read, dropped, compiled, ready, conserved⟩

end RecordInference.Pool
