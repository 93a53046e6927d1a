import Mathlib.Data.List.Nodup
import RecordInference.Proofs.Run.Ledger
import RecordInference.Proofs.Run.Progress

/-!
# Entries that are refused

The log may refuse an entry at any time. The record of the entry then makes no further call and has
no result, no further unit is admitted, and the tasks under way are carried to their end and settled:
a run that is over has settled every task that it has started, and fails with what the first of the
refused tasks to be settled has to say (`allSettled_of_follow`). Every other record goes to the sink
once, if the client does not take its task down.
-/

set_option autoImplicit false

namespace RecordInference

/-- What comes after an entry that was refused admits nothing, and calls nothing for its record. -/
def Act.Heeds (earlier later : Act) : Prop :=
  ∀ entry message, earlier = .appended entry (some message) →
    (∀ job, later ≠ .admitted job) ∧
      ∀ request attempt, later = .called request attempt → request.recordId ≠ entry.recordId

theorem mem_refusalsOf {recordId : Nat} {message : String} {did : List Act} :
    (recordId, message) ∈ refusalsOf did ↔
      ∃ entry, .appended entry (some message) ∈ did ∧ entry.recordId = recordId := by
  rw [refusalsOf, List.mem_filterMap]
  constructor
  · rintro ⟨act, member, eq⟩
    split at eq
    · cases eq
      exact ⟨_, member, rfl⟩
    · cases eq
  · rintro ⟨entry, member, rfl⟩
    exact ⟨_, member, rfl⟩

theorem mem_crashesOf {recordId : Nat} {did : List Act} :
    recordId ∈ crashesOf did ↔
      ∃ request attempt, .crashed request attempt ∈ did ∧ request.recordId = recordId := by
  rw [crashesOf, List.mem_filterMap]
  constructor
  · rintro ⟨act, member, eq⟩
    split at eq
    · cases eq
      exact ⟨_, _, member, rfl⟩
    · cases eq
  · rintro ⟨request, attempt, member, rfl⟩
    exact ⟨_, member, rfl⟩

theorem mem_refusedIn {recordId : Nat} {message : String} {ended : List (Job × Ending)} :
    (recordId, message) ∈ refusedIn ended ↔
      ∃ job, (job, .auditFailed message) ∈ ended ∧ job.recordId = recordId := by
  rw [refusedIn, List.mem_filterMap]
  constructor
  · rintro ⟨e, member, eq⟩
    split at eq
    · cases eq
      exact ⟨_, member, rfl⟩
    · cases eq
  · rintro ⟨job, member, rfl⟩
    exact ⟨_, member, rfl⟩

variable {σ : Type} {env : Collaborators σ} {run : Run}

/-- The calls of an attempt are for the record of its task. -/
theorem Attempted.called {job : Job} {record : Record} {step : PreparedStep}
    {rest : List PreparedStep} {attempt : Nat} {t : Task} {new : List Act}
    (h : Attempted env run job record step rest attempt t new) : ∀ act ∈ new,
    (∀ other, act ≠ .admitted other) ∧
      ∀ request attempt, act = .called request attempt → request.recordId = job.recordId := by
  cases h with
  | crashed request s same | refused request entry message s same | entered request entry _ same =>
      refine List.forall_mem_cons.2 ⟨⟨nofun, ?_⟩, List.forall_mem_singleton.2 ⟨nofun, nofun⟩⟩
      intro request' attempt' eq
      cases eq
      exact same

namespace Pool

variable {source : Source} {moves : List Move} {p : Pool} {did : List Act}

theorem job_of_mem_endedOf {job : Job} {t : Task} {e : Job × Ending} (h : e ∈ endedOf job t) :
    e.1 = job ∧ t.isEnded = true := by
  cases t with
  | calling => cases h
  | ended ending =>
      rw [List.mem_singleton.1 h]
      exact ⟨rfl, rfl⟩

/-- No ended task has the number of one that is under way. -/
theorem Reached.apart (h : Reached env run source moves p did) {before after : List (Job × Task)}
    {job : Job} {t : Task} (split : p.tasks = before ++ (job, t) :: after)
    (running : t.isEnded = false) {e : Job × Ending} (member : e ∈ p.finished did) :
    e.1.recordId ≠ job.recordId := by
  -- what has ended is settled or has a task, and each job is there once
  have nodup := h.nodup_jobs
  rw [split, List.map_append, List.map_cons, ← List.append_assoc, List.perm_middle.nodup_iff,
    List.nodup_cons] at nodup
  have others : ∀ x : Job × Task, x ∈ before ∨ x ∈ after → x.1.recordId ≠ job.recordId := by
    intro x here eq
    refine nodup.1 (eq ▸ ?_)
    rcases here with earlier | later
    · exact List.mem_append_left _ (List.mem_append_right _ (List.mem_map_of_mem earlier))
    · exact List.mem_append_right _ (List.mem_map_of_mem later)
  rcases List.mem_append.1 member with settled | unsettled
  · intro eq
    refine nodup.1 (eq ▸ ?_)
    exact List.mem_append_left _ (List.mem_append_left _ (List.mem_map_of_mem settled))
  · obtain ⟨x, there, ended⟩ := List.mem_flatMap.1 unsettled
    obtain ⟨same, closed⟩ := job_of_mem_endedOf ended
    rw [same]
    rw [split] at there
    rcases List.mem_append.1 there with earlier | there
    · exact others x (Or.inl earlier)
    · rcases List.mem_cons.1 there with rfl | later
      · rw [running] at closed
        cases closed
      · exact others x (Or.inr later)

/-- Whatever a run does after an entry was refused heeds it. -/
theorem Reached.heeds (h : Reached env run source moves p did) : did.Pairwise Act.Heeds := by
  induction h with
  | start => exact .nil
  | @move moves move p p' did new reached happens ih =>
      refine List.pairwise_append.2 ⟨ih, ?_, ?_⟩
      · -- within one move a refused entry is the last act
        cases happens with
        | idle | cancelled | reads => exact .nil
        | spawned => exact List.pairwise_singleton _ _
        | attempted split attempted =>
            cases attempted with
            | crashed | refused | entered =>
                refine List.pairwise_pair.2 ?_
                intro entry message eq
                cases eq
        | settled reading split settles =>
            cases settles with
            | delivered =>
                refine List.pairwise_pair.2 ?_
                intro entry message eq
                cases eq
            | failed | lost => exact List.pairwise_singleton _ _
      · intro act old act' fresh entry message eq
        subst eq
        have refused : (entry.recordId, message) ∈ refusalsOf did :=
          mem_refusalsOf.2 ⟨entry, old, rfl⟩
        cases happens with
        | idle | cancelled | reads => cases fresh
        | spawned unit source reading left unwanted unhalted =>
            -- the run has stopped reading by then
            rw [reached.halted_iff.2 (List.ne_nil_of_mem refused)] at unhalted
            cases unhalted
        | attempted split attempted =>
            -- the refused task has ended, so the attempt is that of another record
            obtain ⟨job, ended, same⟩ := mem_refusedIn.1 (reached.refused_perm.mem_iff.2 refused)
            have apart := reached.apart split rfl ended
            obtain ⟨unadmitted, called⟩ := attempted.called act' fresh
            refine ⟨unadmitted, fun request attempt eq => ?_⟩
            rw [called request attempt eq, ← same]
            exact apart.symm
        | settled reading split settles =>
            cases settles with
            | delivered =>
                rcases List.mem_pair.1 fresh with rfl | rfl
                · exact ⟨nofun, nofun⟩
                · exact ⟨nofun, nofun⟩
            | failed | lost =>
                rw [List.mem_singleton.1 fresh]
                exact ⟨nofun, nofun⟩

/-- What has become of the tasks of a run that is over. -/
structure AllSettled (p : Pool) (did : List Act) : Prop where
  settled : ((endingsOf did).map (·.1)).Perm (jobsOf did)
  distinct : ((jobsOf did).map (·.recordId)).Nodup
  /-- The run fails if and only if an entry was refused. -/
  fails : (∃ message, p.outcome = .error message) ↔
    ∃ entry message, Act.appended entry (some message) ∈ did
  /-- It fails with what the first of the refused tasks to be settled has to say. -/
  first : ∀ message, p.outcome = .error message ↔ ∃ before job after,
    endingsOf did = before ++ (job, .auditFailed message) :: after ∧ refusedIn before = []
  /-- The tasks that are settled as refused are those whose entries were. -/
  refused : ∀ recordId message,
    (∃ job, (job, .auditFailed message) ∈ endingsOf did ∧ job.recordId = recordId) ↔
      ∃ entry, Act.appended entry (some message) ∈ did ∧ entry.recordId = recordId
  /-- A record whose entry was refused does not go to the sink. -/
  withheld : ∀ entry message, Act.appended entry (some message) ∈ did →
    ∀ e ∈ resultsOf did, e.1.recordId ≠ entry.recordId
  /-- A record whose task the client took down does not go to the sink. -/
  lost : ∀ request attempt, Act.crashed request attempt ∈ did →
    ∀ e ∈ resultsOf did, e.1.recordId ≠ request.recordId
  /-- Every other record goes to the sink once. -/
  once : ∀ job ∈ jobsOf did,
    (∀ entry message, Act.appended entry (some message) ∈ did → entry.recordId ≠ job.recordId) →
    (∀ request attempt, Act.crashed request attempt ∈ did → request.recordId ≠ job.recordId) →
    ((resultsOf did).map (·.1.recordId)).count job.recordId = 1

theorem outcome_eq_error_iff {message : String} :
    p.outcome = .error message ↔ p.fatal = some message := by
  rw [outcome]
  cases p.fatal with
  | none => exact ⟨nofun, nofun⟩
  | some m => rw [Except.error.injEq, Option.some.injEq]

/-- The first of the refused tasks has nothing but other tasks before it. -/
theorem head?_refusedIn {ended : List (Job × Ending)} {message : String} :
    (refusedIn ended).head?.map (·.2) = some message ↔ ∃ before job after,
      ended = before ++ (job, .auditFailed message) :: after ∧ refusedIn before = [] := by
  rw [refusedIn, List.head?_filterMap, Option.map_eq_some_iff]
  constructor
  · rintro ⟨⟨recordId, _⟩, found, rfl⟩
    obtain ⟨before, e, after, split, here, none⟩ := List.findSome?_eq_some_iff.1 found
    split at here
    · cases here
      exact ⟨before, _, after, split, List.filterMap_eq_nil_iff.2 none⟩
    · cases here
  · rintro ⟨before, job, after, rfl, none⟩
    refine ⟨(job.recordId, message), List.findSome?_eq_some_iff.2 ?_, rfl⟩
    exact ⟨before, _, after, rfl, rfl, List.filterMap_eq_nil_iff.1 none⟩

theorem Reached.allSettled (h : Reached env run source moves p did) (ended : p.isOver = true) :
    AllSettled p did := by
  obtain ⟨read, -, -, jobs, -⟩ := h.accounted
  have refused := h.refused_perm
  have crashed := h.crashed_perm
  have settled := h.jobs_perm
  have labelled := h.labelled
  rw [finished_of_isOver ended] at refused crashed labelled
  rw [(isOver_iff.1 ended).2, List.map_nil, List.append_nil] at settled
  have distinct : ((jobsOf did).map (·.recordId)).Nodup := by
    rw [jobs, map_recordId_jobsIn]
    exact List.nodup_range' 1
  -- every record has a result, a refused entry or a crash, and only one of them
  have shares : ((resultsOf did).map (·.1.recordId) ++
      ((refusalsOf did).map (·.1) ++ crashesOf did)).Perm ((jobsOf did).map (·.recordId)) := by
    have results := congrArg (List.map RecordResult.recordId) h.results_eq
    rw [List.map_map] at results
    have same := shares_perm labelled
    have ids := settled.map (·.recordId)
    rw [List.map_map] at ids
    rw [← results] at same
    exact ((((refused.map _).append crashed).append_left _).symm.trans same).trans ids
  obtain ⟨once, -, apart⟩ := List.nodup_append.1 (shares.nodup_iff.2 distinct)
  have withheld : ∀ recordId ∈ (refusalsOf did).map (·.1) ++ crashesOf did,
      ∀ e ∈ resultsOf did, e.1.recordId ≠ recordId := fun recordId member e handed =>
    apart _ (List.mem_map_of_mem handed) _ member
  have refusal : ∀ entry message, Act.appended entry (some message) ∈ did →
      entry.recordId ∈ (refusalsOf did).map (·.1) := fun entry message member =>
    List.mem_map_of_mem (f := Prod.fst) (mem_refusalsOf.2 ⟨entry, member, rfl⟩)
  constructor
  case settled => exact settled
  case distinct => exact distinct
  case fails =>
    simp only [outcome_eq_error_iff, h.fatal_eq, Option.map_eq_some_iff]
    constructor
    · rintro ⟨-, ⟨recordId, message⟩, first, -⟩
      have member := refused.mem_iff.1 (List.mem_of_mem_head? first)
      obtain ⟨entry, appended, -⟩ := mem_refusalsOf.1 member
      exact ⟨entry, message, appended⟩
    · rintro ⟨entry, message, appended⟩
      have member := refused.mem_iff.2 (mem_refusalsOf.2 ⟨entry, appended, rfl⟩)
      exact ⟨_, _, List.head?_eq_some_head (List.ne_nil_of_mem member), rfl⟩
  case first =>
    intro message
    rw [outcome_eq_error_iff, h.fatal_eq, head?_refusedIn]
  case refused =>
    intro recordId message
    rw [← mem_refusedIn, refused.mem_iff, mem_refusalsOf]
  case withheld =>
    intro entry message member
    exact withheld _ (List.mem_append_left _ (refusal entry message member))
  case lost =>
    intro request attempt member
    exact withheld _ (List.mem_append_right _ (mem_crashesOf.2 ⟨request, attempt, member, rfl⟩))
  case once =>
    intro job admitted unrefused uncrashed
    have member := shares.mem_iff.2 (List.mem_map_of_mem (f := Job.recordId) admitted)
    refine List.count_eq_one_of_mem once ((List.mem_append.1 member).resolve_right ?_)
    intro other
    rcases List.mem_append.1 other with refused | crashed
    · obtain ⟨⟨recordId, message⟩, there, same⟩ := List.mem_map.1 refused
      obtain ⟨entry, appended, eq⟩ := mem_refusalsOf.1 there
      exact unrefused entry message appended (eq.trans same)
    · obtain ⟨request, attempt, there, eq⟩ := mem_crashesOf.1 crashed
      exact uncrashed request attempt there eq

/-- Whatever the client, the log and the sink do, a run never has more tasks under way than there is
room for, it heeds every entry that is refused, and it can be carried to its end; when it is over,
all of its tasks are settled. -/
theorem allSettled_of_follow (env : Collaborators σ) (sink : Sink σ)
    (room : 1 ≤ run.prepared.settings.concurrency) (source : Source) (moves : List Move) (s : σ) :
    (follow env sink run moves (start source) s).1.running.length ≤
        run.prepared.settings.concurrency ∧
    (chronicle env sink run moves (start source) s).Pairwise Act.Heeds ∧
    (∃ more, (follow env sink run (moves ++ more) (start source) s).1.isOver = true) ∧
    ((follow env sink run moves (start source) s).1.isOver = true →
      AllSettled (follow env sink run moves (start source) s).1
        (chronicle env sink run moves (start source) s)) := by
  have reached := reached_follow env sink run source moves s
  exact ⟨reached.bounded.1, reached.heeds, exists_more env sink room moves _ s,
    reached.allSettled⟩

/-- Two records under way at once, the first of which cannot be entered. -/
theorem allSettled_of_follow_refused : ∃ plan prepared,
    Plan.ofDeclaration "DRAFT reply" (fun _ _ => none) = .ok plan ∧
    Prepared.ofPlan plan (fun _ _ => none) {} = .ok prepared ∧
    AllSettled
      (follow { Collaborators.constant (.text "done") with
          append := fun entry s => (if entry.recordId = 1 then some "full" else none, s) }
        (fun _ s => (true, s)) ⟨prepared, "run"⟩
        [.proceed, .read, .proceed, .read, .proceed, .advance 1, .advance 2, .read, .settle 2,
          .settle 1]
        (start [.ok (.text "a"), .ok (.text "b"), .ok (.text "c")]) ()).1
      (chronicle { Collaborators.constant (.text "done") with
          append := fun entry s => (if entry.recordId = 1 then some "full" else none, s) }
        (fun _ s => (true, s)) ⟨prepared, "run"⟩
        [.proceed, .read, .proceed, .read, .proceed, .advance 1, .advance 2, .read, .settle 2,
          .settle 1]
        (start [.ok (.text "a"), .ok (.text "b"), .ok (.text "c")]) ()) := by
  have run : ((Plan.ofDeclaration "DRAFT reply" fun _ _ => none).toOption.bind fun plan =>
      (Prepared.ofPlan plan (fun _ _ => none) {}).toOption.map fun prepared =>
        decide (1 ≤ prepared.settings.concurrency) &&
        (follow { Collaborators.constant (.text "done") with
            append := fun entry s => (if entry.recordId = 1 then some "full" else none, s) }
          (fun _ s => (true, s)) ⟨prepared, "run"⟩
          [.proceed, .read, .proceed, .read, .proceed, .advance 1, .advance 2, .read, .settle 2,
            .settle 1]
          (start [.ok (.text "a"), .ok (.text "b"), .ok (.text "c")]) ()).1.isOver) =
      some true := by decide +kernel
  obtain ⟨plan, compiled, run⟩ := Option.bind_eq_some_iff.1 run
  obtain ⟨prepared, ready, run⟩ := Option.map_eq_some_iff.1 run
  rw [Except.toOption_eq_some_iff] at compiled ready
  obtain ⟨room, ended⟩ := Bool.and_eq_true_iff.1 run
  exact ⟨plan, prepared, compiled, ready, (@allSettled_of_follow _ ⟨prepared, "run"⟩ _ _
    (of_decide_eq_true room) _ _ ()).2.2.2 ended⟩

/-- A task that the client takes down has no result, though no entry was refused. -/
theorem unserved_of_crash : ∃ plan prepared,
    Plan.ofDeclaration "DRAFT reply" (fun _ _ => none) = .ok plan ∧
    Prepared.ofPlan plan (fun _ _ => none) {} = .ok prepared ∧
    (follow (.constant .crash) (fun _ s => (true, s)) ⟨prepared, "run"⟩
      [.proceed, .read, .proceed, .read, .advance 1, .settle 1]
      (start [.ok (.text "a")]) ()).1.isOver = true ∧
    ∃ job ∈ jobsOf (chronicle (.constant .crash) (fun _ s => (true, s)) ⟨prepared, "run"⟩
        [.proceed, .read, .proceed, .read, .advance 1, .settle 1] (start [.ok (.text "a")]) ()),
      (∀ entry message, Act.appended entry (some message) ∉
        chronicle (.constant .crash) (fun _ s => (true, s)) ⟨prepared, "run"⟩
          [.proceed, .read, .proceed, .read, .advance 1, .settle 1]
          (start [.ok (.text "a")]) ()) ∧
      ((resultsOf (chronicle (.constant .crash) (fun _ s => (true, s)) ⟨prepared, "run"⟩
        [.proceed, .read, .proceed, .read, .advance 1, .settle 1]
        (start [.ok (.text "a")]) ())).map (·.1.recordId)).count job.recordId ≠ 1 := by
  have run : ((Plan.ofDeclaration "DRAFT reply" fun _ _ => none).toOption.bind fun plan =>
      (Prepared.ofPlan plan (fun _ _ => none) {}).toOption.map fun prepared =>
        (follow (.constant .crash) (fun _ s => (true, s)) ⟨prepared, "run"⟩
          [.proceed, .read, .proceed, .read, .advance 1, .settle 1]
          (start [.ok (.text "a")]) ()).1.isOver &&
        let did := chronicle (.constant .crash) (fun _ s => (true, s)) ⟨prepared, "run"⟩
          [.proceed, .read, .proceed, .read, .advance 1, .settle 1] (start [.ok (.text "a")]) ()
        (jobsOf did).any fun job => (refusalsOf did).isEmpty &&
          decide (((resultsOf did).map (·.1.recordId)).count job.recordId ≠ 1)) =
      some true := by decide +kernel
  obtain ⟨plan, compiled, run⟩ := Option.bind_eq_some_iff.1 run
  obtain ⟨prepared, ready, run⟩ := Option.map_eq_some_iff.1 run
  rw [Except.toOption_eq_some_iff] at compiled ready
  obtain ⟨ended, run⟩ := Bool.and_eq_true_iff.1 run
  obtain ⟨job, member, run⟩ := List.any_eq_true.1 run
  obtain ⟨none, unserved⟩ := Bool.and_eq_true_iff.1 run
  refine ⟨plan, prepared, compiled, ready, ended, job, member, ?_, of_decide_eq_true unserved⟩
  intro entry message refused
  have there := mem_refusalsOf.2 ⟨entry, refused, rfl⟩
  rw [List.isEmpty_iff.1 none] at there
  cases there

end Pool

end RecordInference
