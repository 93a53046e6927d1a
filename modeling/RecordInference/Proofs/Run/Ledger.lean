import Mathlib.Algebra.GroupWithZero.Nat
import Mathlib.Data.List.Perm.Basic
import RecordInference.Proofs.Run.Chronicle

/-!
# The accounts of a run

What a run has read, admitted, settled and handed on adds up at any time, whatever the schedule and
the world outside: its jobs are those of the units of what it has read (`accounted`), every job is
settled or has a task (`jobs_perm`), a result goes to the sink when its task is settled and at no
other time (`results_eq`), and the counters say how many of each there were (`tallied`).

Each fact is an induction over what can happen (`Happens`), with the facts before it at hand.
-/

set_option autoImplicit false

namespace RecordInference

/-! ### Reading a chronicle -/

/-- The jobs that were admitted, in their order. -/
def jobsOf (did : List Act) : List Job :=
  did.filterMap fun
    | .admitted job => some job
    | _ => none

/-- The tasks that were settled, in their order. -/
def endingsOf (did : List Act) : List (Job × Ending) :=
  did.filterMap fun
    | .settled job ending => some (job, ending)
    | _ => none

/-- The results that went to the sink, in their order, and whether they were taken. -/
def resultsOf (did : List Act) : List (RecordResult × Bool) :=
  did.filterMap fun
    | .handed result taken => some (result, taken)
    | _ => none

/-- The records whose entries were refused, each with what the log had to say. -/
def refusalsOf (did : List Act) : List (Nat × String) :=
  did.filterMap fun
    | .appended entry (some message) => some (entry.recordId, message)
    | _ => none

/-- The records whose tasks the client took down. -/
def crashesOf (did : List Act) : List Nat :=
  did.filterMap fun
    | .crashed request _ => some request.recordId
    | _ => none

/-- The results of tasks that have ended. -/
def deliveredIn (ended : List (Job × Ending)) : List RecordResult :=
  ended.filterMap fun
    | (_, .delivered result) => some result
    | _ => none

/-- The records among ended tasks whose entries were refused, each with what the log had to say. -/
def refusedIn (ended : List (Job × Ending)) : List (Nat × String) :=
  ended.filterMap fun
    | (job, .auditFailed message) => some (job.recordId, message)
    | _ => none

/-- The records among ended tasks that the client took down. -/
def crashedIn (ended : List (Job × Ending)) : List Nat :=
  ended.filterMap fun
    | (job, .crashed) => some job.recordId
    | _ => none

/-- How a task has ended, if it has. -/
def Task.ending? : Task → Option Ending
  | ended ending => some ending
  | calling _ _ _ _ => none

/-- The units among what was read. -/
def unitsOf (read : Source) : List InputUnit := read.filterMap Except.toOption

/-- The jobs of the units among what was read, numbered from one. -/
def jobsIn (read : Source) : List Job :=
  ((unitsOf read).zipIdx 1).map fun e => Job.ofUnit e.2 e.1

/-- How often reading failed. -/
def failuresIn (read : Source) : Nat := read.countP fun unit => !unit.isOk

@[simp] theorem jobsOf_append (did new : List Act) : jobsOf (did ++ new) = jobsOf did ++ jobsOf new :=
  List.filterMap_append

@[simp] theorem endingsOf_append (did new : List Act) :
    endingsOf (did ++ new) = endingsOf did ++ endingsOf new := List.filterMap_append

@[simp] theorem resultsOf_append (did new : List Act) :
    resultsOf (did ++ new) = resultsOf did ++ resultsOf new := List.filterMap_append

@[simp] theorem refusalsOf_append (did new : List Act) :
    refusalsOf (did ++ new) = refusalsOf did ++ refusalsOf new := List.filterMap_append

@[simp] theorem crashesOf_append (did new : List Act) :
    crashesOf (did ++ new) = crashesOf did ++ crashesOf new := List.filterMap_append

theorem deliveredIn_append (ended more : List (Job × Ending)) :
    deliveredIn (ended ++ more) = deliveredIn ended ++ deliveredIn more := List.filterMap_append

theorem refusedIn_append (ended more : List (Job × Ending)) :
    refusedIn (ended ++ more) = refusedIn ended ++ refusedIn more := List.filterMap_append

theorem crashedIn_append (ended more : List (Job × Ending)) :
    crashedIn (ended ++ more) = crashedIn ended ++ crashedIn more := List.filterMap_append

theorem unitsOf_append (read more : Source) : unitsOf (read ++ more) = unitsOf read ++ unitsOf more :=
  List.filterMap_append

theorem failuresIn_append (read more : Source) :
    failuresIn (read ++ more) = failuresIn read + failuresIn more := List.countP_append

theorem jobsIn_skip (read : Source) (message : String) :
    jobsIn (read ++ [.error message]) = jobsIn read := by
  rw [jobsIn, unitsOf_append]
  exact congrArg _ (congrArg (List.zipIdx · 1) (List.append_nil _))

theorem jobsIn_snoc (read : Source) (unit : InputUnit) :
    jobsIn (read ++ [.ok unit]) =
      jobsIn read ++ [Job.ofUnit ((unitsOf read).length + 1) unit] := by
  rw [jobsIn, unitsOf_append, List.zipIdx_append, List.map_append, Nat.add_comm]
  rfl

/-- The jobs are numbered without gaps. -/
theorem map_recordId_jobsIn (read : Source) :
    (jobsIn read).map (·.recordId) = List.range' 1 (unitsOf read).length := by
  rw [jobsIn, List.map_map, ← List.zipIdx_map_snd 1 (unitsOf read)]
  rfl

/-! ### How tasks end -/

/-- Whether the result of a task that has ended, if there is one, is that of its job. -/
def Labelled (e : Job × Ending) : Prop :=
  ∀ result, e.2 = .delivered result →
    result.recordId = e.1.recordId ∧ result.inputRef = e.1.inputRef

/-- The task of a job, if it has ended. -/
def endedOf (job : Job) (t : Task) : List (Job × Ending) :=
  (t.ending?.map fun ending => (job, ending)).toList

variable {σ : Type} {env : Collaborators σ} {run : Run}

theorem Task.goOn_ended (run : Run) (job : Job) (record : Record) (steps : List PreparedStep) :
    refusedIn (endedOf job (goOn run job record steps)) = [] ∧
      crashedIn (endedOf job (goOn run job record steps)) = [] ∧
      ∀ e ∈ endedOf job (goOn run job record steps), Labelled e := by
  cases steps with
  | nil =>
      refine ⟨rfl, rfl, List.forall_mem_singleton.2 ?_⟩
      intro result eq
      cases eq
      exact ⟨rfl, rfl⟩
  | cons step rest => exact ⟨rfl, rfl, List.forall_mem_nil _⟩

/-- An ended task is counted once: for its result, for the entry that was refused, or for the client
that took it down. -/
theorem shares_perm {ended : List (Job × Ending)} (labelled : ∀ e ∈ ended, Labelled e) :
    ((deliveredIn ended).map (·.recordId) ++
      ((refusedIn ended).map (·.1) ++ crashedIn ended)).Perm (ended.map (·.1.recordId)) := by
  induction ended with
  | nil => exact .refl _
  | cons e rest ih =>
      obtain ⟨here, later⟩ := List.forall_mem_cons.1 labelled
      obtain ⟨job, ending⟩ := e
      cases ending with
      | delivered result =>
          show (result.recordId :: _).Perm (job.recordId :: _)
          rw [(here result rfl).1]
          exact (ih later).cons _
      | auditFailed message => exact List.perm_middle.trans ((ih later).cons _)
      | crashed =>
          refine .trans ?_ ((ih later).cons _)
          rw [← List.append_assoc, ← List.append_assoc]
          exact List.perm_middle

/-- Where no entry is refused and no task is taken down every task has a result, that of its job. -/
theorem results_of_delivered {ended : List (Job × Ending)} (labelled : ∀ e ∈ ended, Labelled e)
    (refused : refusedIn ended = []) (crashed : crashedIn ended = []) :
    (deliveredIn ended).map (fun r => (r.recordId, r.inputRef)) =
      ended.map fun e => (e.1.recordId, e.1.inputRef) := by
  induction ended with
  | nil => rfl
  | cons e rest ih =>
      obtain ⟨here, later⟩ := List.forall_mem_cons.1 labelled
      obtain ⟨job, ending⟩ := e
      cases ending with
      | delivered result =>
          obtain ⟨recordId, inputRef⟩ := here result rfl
          exact congrArg₂ List.cons (Prod.ext recordId inputRef) (ih later refused crashed)
      | auditFailed message => cases refused
      | crashed => cases crashed

section Attempts

variable {job : Job} {record : Record} {step : PreparedStep} {rest : List PreparedStep}
  {attempt : Nat} {t : Task} {new : List Act}

theorem Task.settle_ended (run : Run) (job : Job) (record : Record) (step : PreparedStep)
    (rest : List PreparedStep) (attempt : Nat) (judgement : Judgement) :
    refusedIn (endedOf job (settle run job record step rest attempt judgement)) = [] ∧
      crashedIn (endedOf job (settle run job record step rest attempt judgement)) = [] ∧
      ∀ e ∈ endedOf job (settle run job record step rest attempt judgement), Labelled e := by
  cases judgement with
  | ok v => exact goOn_ended run job _ rest
  | error f =>
      rw [settle]
      split
      · exact ⟨rfl, rfl, List.forall_mem_nil _⟩
      · refine ⟨rfl, rfl, List.forall_mem_singleton.2 ?_⟩
        intro result eq
        cases eq
        exact ⟨rfl, rfl⟩

/-- An attempt admits, settles and hands on nothing. -/
theorem Attempted.quiet (h : Attempted env run job record step rest attempt t new) :
    jobsOf new = [] ∧ endingsOf new = [] ∧ resultsOf new = [] := by
  cases h with
  | crashed | refused | entered => exact ⟨rfl, rfl, rfl⟩

theorem Task.isAuditFailure_iff (job : Job) (t : Task) :
    t.isAuditFailure = true ↔ refusedIn (endedOf job t) ≠ [] := by
  rcases t with _ | ending
  · exact ⟨nofun, fun some => absurd rfl some⟩
  · cases ending with
    | auditFailed message => exact ⟨fun _ => List.cons_ne_nil _ _, fun _ => rfl⟩
    | delivered | crashed => exact ⟨nofun, fun some => absurd rfl some⟩

/-- A task ends with the entry that is refused, or with the call that crashes. -/
theorem Attempted.ended (h : Attempted env run job record step rest attempt t new) :
    refusalsOf new = refusedIn (endedOf job t) ∧ crashesOf new = crashedIn (endedOf job t) ∧
      ∀ e ∈ endedOf job t, Labelled e := by
  cases h with
  | crashed request s same crash =>
      refine ⟨rfl, ?_, List.forall_mem_singleton.2 nofun⟩
      exact congrArg (fun recordId => [recordId]) same
  | refused request entry message s same same' refused =>
      refine ⟨?_, rfl, List.forall_mem_singleton.2 nofun⟩
      exact congrArg (fun recordId => [(recordId, message)]) same'
  | entered request entry judgement =>
      obtain ⟨refused, crashed, labelled⟩ :=
        Task.settle_ended run job record step rest attempt judgement
      exact ⟨refused.symm, crashed.symm, labelled⟩

/-- A steady world refuses nothing and takes nothing down. -/
theorem Attempted.steady (steady : env.Steady)
    (h : Attempted env run job record step rest attempt t new) :
    refusalsOf new = [] ∧ crashesOf new = [] := by
  cases h with
  | crashed request s same crash => exact absurd crash (steady.answers request attempt s)
  | refused request entry message s same same' refused =>
      rw [steady.appends entry s] at refused
      cases refused
  | entered => exact ⟨rfl, rfl⟩

end Attempts

namespace Pool

theorem Settles.quiet {ending : Ending} {p p' : Pool} {new : List Act}
    (h : Settles ending p p' new) : jobsOf new = [] ∧ endingsOf new = [] := by
  cases h with
  | delivered | failed | lost => exact ⟨rfl, rfl⟩

theorem Settles.jobsOf_settled {ending : Ending} {p p' : Pool} {new : List Act}
    (h : Settles ending p p' new) (job : Job) : jobsOf (.settled job ending :: new) = [] :=
  h.quiet.1

theorem Settles.endingsOf_settled {ending : Ending} {p p' : Pool} {new : List Act}
    (h : Settles ending p p' new) (job : Job) :
    endingsOf (.settled job ending :: new) = [(job, ending)] :=
  congrArg ((job, ending) :: ·) h.quiet.2

variable {source : Source} {moves : List Move} {p : Pool} {did : List Act}

/-- The tasks that have ended, settled or not. -/
def finished (p : Pool) (did : List Act) : List (Job × Ending) :=
  endingsOf did ++ p.tasks.flatMap fun e => endedOf e.1 e.2

/-- What a move ends. -/
theorem Happens.finished_perm {move : Move} {p p' : Pool} {new : List Act}
    (h : Happens env run move p p' new) (did : List Act) : ∃ fresh,
    (p'.finished (did ++ new)).Perm (p.finished did ++ fresh) ∧
      refusalsOf new = refusedIn fresh ∧ crashesOf new = crashedIn fresh ∧
      ∀ e ∈ fresh, Labelled e := by
  -- a task ends when it is spawned or advanced; that it is settled moves it and ends none
  cases h with
  | idle | cancelled =>
      refine ⟨[], ?_, rfl, rfl, List.forall_mem_nil _⟩
      simp only [List.append_nil]
      exact .refl _
  | reads reads =>
      refine ⟨[], ?_, rfl, rfl, List.forall_mem_nil _⟩
      rw [finished, finished, reads.frame.1, List.append_nil, List.append_nil]
  | spawned unit source reading left unwanted unhalted =>
      let job := Job.ofUnit (p.admitted + 1) unit
      obtain ⟨refused, crashed, labelled⟩ := Task.goOn_ended run job [] run.prepared.steps
      refine ⟨endedOf job (Task.start run job), ?_, refused.symm, crashed.symm, labelled⟩
      simp only [finished, spawn, endingsOf_append, List.flatMap_append, List.flatMap_singleton,
        List.append_assoc]
      exact .refl _
  | @attempted recordId p before after job record step rest attempt t new split attempted =>
      obtain ⟨refused, crashed, labelled⟩ := attempted.ended
      refine ⟨endedOf job t, ?_, refused, crashed, labelled⟩
      simp only [finished, endingsOf_append, attempted.quiet.2.1, split, List.flatMap_append,
        List.flatMap_cons, List.append_assoc, List.append_nil]
      exact .append_left _ (.append_left _ List.perm_append_comm)
  | @settled recordId p p' before after job ending new reading split settles =>
      refine ⟨[], ?_, ?_, ?_, List.forall_mem_nil _⟩
      · obtain ⟨-, -, -, tasks, -⟩ := settles.frame
        simp only [finished, endingsOf_append, settles.endingsOf_settled, split, tasks,
          List.flatMap_append, List.flatMap_cons, List.append_assoc, List.append_nil]
        exact .append_left _ (List.perm_append_comm_assoc [(job, ending)] _ _)
      · cases settles with
        | delivered | failed | lost => rfl
      · cases settles with
        | delivered | failed | lost => rfl

namespace Reached

/-- The units of what was read became jobs in their order, and only a last unit that comes after the
run was stopped is dropped. -/
theorem accounted (h : Reached env run source moves p did) : ∃ read dropped,
    source = read ++ dropped ++ p.source ∧ jobsOf did = jobsIn read ∧
      p.admitted = (unitsOf read).length ∧ p.summary.sourceErrors = failuresIn read ∧
      (dropped = [] ∨ (∃ unit, dropped = [.ok unit]) ∧ p.phase = .draining ∧
        (p.summary.cancelled = true ∨ p.halted = true)) := by
  induction h with
  | start => exact ⟨[], [], rfl, rfl, rfl, rfl, Or.inl rfl⟩
  | @move moves move p p' did new reached happens ih =>
      obtain ⟨read, dropped, split, jobs, admitted, failures, last⟩ := ih
      -- nothing is dropped before the last unit
      have kept : p.phase ≠ .draining → dropped = [] := by
        intro busy
        rcases last with none | ⟨-, draining, -⟩
        · exact none
        · exact absurd draining busy
      cases happens with
      | idle | cancelled =>
          exact ⟨read, dropped, split, by simpa using jobs, admitted, failures, last⟩
      | reads reads =>
          rw [List.append_nil]
          cases reads with
          | room admitting | closed admitting | stopped admitting | exhausted admitting =>
              obtain rfl := kept (by rw [admitting]; exact nofun)
              exact ⟨read, [], split, jobs, admitted, failures, Or.inl rfl⟩
          | skipped message source reading left =>
              obtain rfl := kept (by rw [reading]; exact nofun)
              refine ⟨read ++ [.error message], [], ?_, by rw [jobsIn_skip, jobs], ?_, ?_, Or.inl rfl⟩
              · rw [split, left, List.append_nil, List.append_nil, List.append_cons]
              · rw [unitsOf_append, List.length_append, ← admitted]
                rfl
              · rw [failuresIn_append, ← failures]
                rfl
          | droppedCancelled unit source reading left wanted =>
              obtain rfl := kept (by rw [reading]; exact nofun)
              refine ⟨read, [.ok unit], ?_, jobs, admitted, failures,
                Or.inr ⟨⟨unit, rfl⟩, rfl, Or.inl rfl⟩⟩
              rw [split, left, List.append_nil, List.append_cons]
              rfl
          | droppedHalted unit source reading left halted =>
              obtain rfl := kept (by rw [reading]; exact nofun)
              refine ⟨read, [.ok unit], ?_, jobs, admitted, failures,
                Or.inr ⟨⟨unit, rfl⟩, rfl, Or.inr halted⟩⟩
              rw [split, left, List.append_nil, List.append_cons]
      | spawned unit source reading left unwanted unhalted =>
          obtain rfl := kept (by rw [reading]; exact nofun)
          refine ⟨read ++ [.ok unit], [], ?_, ?_, ?_, ?_, Or.inl rfl⟩
          · rw [split, left, List.append_nil, List.append_nil, List.append_cons]
            rfl
          · rw [jobsIn_snoc, jobsOf_append, jobs, admitted]
            rfl
          · rw [unitsOf_append, List.length_append, ← admitted]
            rfl
          · rw [failuresIn_append, ← failures]
            rfl
      | attempted split' attempted =>
          refine ⟨read, dropped, split, ?_, admitted, failures, ?_⟩
          · rw [jobsOf_append, attempted.quiet.1, List.append_nil, jobs]
          · refine last.imp_right fun why => ⟨why.1, why.2.1, why.2.2.imp_right fun halted => ?_⟩
            rw [halted, Bool.true_or]
      | settled reading split' settles =>
          obtain ⟨phase, left, admitted', -, -, halted, failures', stopped⟩ := settles.frame
          rw [phase, left, admitted', halted, failures', stopped]
          refine ⟨read, dropped, split, ?_, admitted, failures, last⟩
          rw [jobsOf_append, settles.jobsOf_settled, List.append_nil, jobs]

/-- Every job that was admitted is settled or has a task. -/
theorem jobs_perm (h : Reached env run source moves p did) :
    ((endingsOf did).map (·.1) ++ p.tasks.map (·.1)).Perm (jobsOf did) := by
  induction h with
  | start => exact .refl _
  | @move moves move p p' did new reached happens ih =>
      cases happens with
      | idle | cancelled => simpa using ih
      | reads reads => simpa [reads.frame.1] using ih
      | spawned unit source reading left unwanted unhalted =>
          simp only [endingsOf_append, jobsOf_append, spawn, List.map_append, ← List.append_assoc]
          exact List.Perm.append (by simpa [endingsOf] using ih) (.refl _)
      | attempted split attempted =>
          obtain ⟨jobs, endings, -⟩ := attempted.quiet
          simpa [jobs, endings, split] using ih
      | @settled recordId p p' before after job ending new reading split settles =>
          obtain ⟨-, -, -, tasks, -⟩ := settles.frame
          rw [endingsOf_append, settles.endingsOf_settled, jobsOf_append, settles.jobsOf_settled,
            List.append_nil, tasks]
          -- the job leaves the tasks for the settled ones
          refine .trans ?_ ih
          simp only [split, List.map_append, List.map_cons, List.map_nil, List.append_assoc,
            List.singleton_append]
          exact List.Perm.append_left _ List.perm_middle.symm

/-- A result goes to the sink when its task is settled, and at no other time. -/
theorem results_eq (h : Reached env run source moves p did) :
    (resultsOf did).map (·.1) = deliveredIn (endingsOf did) := by
  induction h with
  | start => rfl
  | @move moves move p p' did new reached happens ih =>
      rw [resultsOf_append, endingsOf_append, List.map_append, deliveredIn_append, ih]
      refine congrArg _ ?_
      cases happens with
      | idle | cancelled | reads | spawned => rfl
      | attempted split attempted =>
          obtain ⟨-, endings, results⟩ := attempted.quiet
          rw [results, endings]
          rfl
      | settled reading split settles =>
          cases settles with
          | delivered | failed | lost => rfl

/-- An entry is refused where a task ends for it. -/
theorem refused_perm (h : Reached env run source moves p did) :
    (refusedIn (p.finished did)).Perm (refusalsOf did) := by
  induction h with
  | start => exact .refl _
  | move reached happens ih =>
      obtain ⟨fresh, same, refused, -⟩ := happens.finished_perm _
      rw [refusalsOf_append, refused]
      have more := ih.append_right (refusedIn fresh)
      rw [← refusedIn_append] at more
      exact (same.filterMap _).trans more

/-- A client takes a task down where one ends for it. -/
theorem crashed_perm (h : Reached env run source moves p did) :
    (crashedIn (p.finished did)).Perm (crashesOf did) := by
  induction h with
  | start => exact .refl _
  | move reached happens ih =>
      obtain ⟨fresh, same, -, crashed, -⟩ := happens.finished_perm _
      rw [crashesOf_append, crashed]
      have more := ih.append_right (crashedIn fresh)
      rw [← crashedIn_append] at more
      exact (same.filterMap _).trans more

/-- A result is that of its job. -/
theorem labelled (h : Reached env run source moves p did) : ∀ e ∈ p.finished did, Labelled e := by
  induction h with
  | start => exact List.forall_mem_nil _
  | move reached happens ih =>
      obtain ⟨fresh, same, -, -, labelled⟩ := happens.finished_perm _
      intro e member
      rcases List.mem_append.1 (same.subset member) with old | new
      · exact ih e old
      · exact labelled e new

/-- No two jobs have the same number. -/
theorem nodup_jobs (h : Reached env run source moves p did) :
    ((endingsOf did).map (·.1.recordId) ++ p.tasks.map (·.1.recordId)).Nodup := by
  obtain ⟨read, -, -, jobs, -⟩ := h.accounted
  have same := h.jobs_perm.map (·.recordId)
  rw [jobs, map_recordId_jobsIn, List.map_append, List.map_map, List.map_map] at same
  exact same.nodup_iff.2 (List.nodup_range' 1)

/-- What the first task to be settled that could not be entered has to say is what is fatal. -/
theorem fatal_eq (h : Reached env run source moves p did) :
    p.fatal = (refusedIn (endingsOf did)).head?.map (·.2) := by
  induction h with
  | start => rfl
  | @move moves move p p' did new reached happens ih =>
      rw [endingsOf_append, refusedIn_append, List.head?_append, Option.map_or, ← ih]
      cases happens with
      | idle | cancelled | spawned => exact (Option.or_none).symm
      | reads reads =>
          obtain ⟨-, -, -, -, fatal⟩ := reads.frame
          rw [fatal]
          exact (Option.or_none).symm
      | attempted split attempted =>
          rw [attempted.quiet.2.1]
          exact (Option.or_none).symm
      | settled reading split settles =>
          rw [settles.endingsOf_settled]
          cases settles with
          | delivered | lost => exact (Option.or_none).symm
          | failed message => rfl

/-- A run stops reading for the entries that are refused. -/
theorem halted_iff (h : Reached env run source moves p did) :
    p.halted = true ↔ refusalsOf did ≠ [] := by
  induction h with
  | start => exact ⟨nofun, fun some => absurd rfl some⟩
  | @move moves move p p' did new reached happens ih =>
      rw [refusalsOf_append, Ne, List.append_eq_nil_iff, Classical.not_and_iff_not_or_not, ← Ne, ← ih]
      cases happens with
      | idle | cancelled | spawned => exact (or_iff_left fun some => some rfl).symm
      | reads reads =>
          obtain ⟨-, -, -, halted, -⟩ := reads.frame
          rw [halted]
          exact (or_iff_left fun some => some rfl).symm
      | @attempted recordId p before after job record step rest attempt t new split attempted =>
          rw [Bool.or_eq_true, Task.isAuditFailure_iff job t, attempted.ended.1]
      | settled reading split settles =>
          obtain ⟨-, -, -, -, -, halted, -⟩ := settles.frame
          rw [halted]
          cases settles with
          | delivered | lost | failed => exact (or_iff_left fun some => some rfl).symm

/-- What is fatal has stopped the reading. -/
theorem halted_of_fatal (h : Reached env run source moves p did) (fatal : p.fatal.isSome = true) :
    p.halted = true := by
  rw [h.fatal_eq, Option.isSome_map, List.isSome_head?] at fatal
  rw [h.halted_iff]
  intro none
  have refused := h.refused_perm
  rw [none, List.perm_nil, finished, refusedIn_append, List.append_eq_nil_iff] at refused
  exact fatal refused.1

/-- A cancellation is one of the moves, and is noted only where it has been made. -/
theorem wanted (h : Reached env run source moves p did) :
    (p.cancelWanted = true → .cancel ∈ moves) ∧
      (p.summary.cancelled = true → p.cancelWanted = true) := by
  induction h with
  | start => exact ⟨nofun, nofun⟩
  | @move moves move p p' did new reached happens ih =>
      obtain ⟨made, noted⟩ := ih
      cases happens with
      | idle | spawned | attempted =>
          exact ⟨fun wanted => List.mem_append_left _ (made wanted), noted⟩
      | cancelled => exact ⟨fun _ => List.mem_append_right _ (List.mem_singleton_self _), fun _ => rfl⟩
      | reads reads =>
          refine ⟨fun wanted => List.mem_append_left _ (made ?_), ?_⟩
          · rwa [reads.frame.2.2.1] at wanted
          · cases reads with
            | room | closed | exhausted | skipped | droppedHalted => exact noted
            | stopped admitting wanted => exact fun _ => wanted
            | droppedCancelled unit source reading left wanted => exact fun _ => wanted
      | settled reading split settles =>
          obtain ⟨-, -, -, -, wanted, -, -, stopped⟩ := settles.frame
          rw [wanted, stopped]
          exact ⟨fun wanted => List.mem_append_left _ (made wanted), noted⟩

/-- A run waits for its tasks at the end of the source, after a cancellation or after a refusal. -/
theorem drains (h : Reached env run source moves p did) (draining : p.phase = .draining) :
    p.source = [] ∨ p.summary.cancelled = true ∨ p.halted = true := by
  induction h with
  | start => cases draining
  | @move moves move p p' did new reached happens ih =>
      cases happens with
      | idle | cancelled => exact ih draining
      | reads reads =>
          cases reads with
          | room | skipped => cases draining
          | closed admitting why =>
              exact Or.inr (Or.inr (why.elim reached.halted_of_fatal id))
          | stopped | droppedCancelled => exact Or.inr (Or.inl rfl)
          | exhausted reading left => exact Or.inl left
          | droppedHalted unit source reading left halted => exact Or.inr (Or.inr halted)
      | spawned => cases draining
      | attempted split attempted =>
          exact (ih draining).imp_right fun why =>
            why.imp_right fun halted => by rw [halted, Bool.true_or]
      | settled reading split settles =>
          obtain ⟨phase, left, -, -, -, halted, -, stopped⟩ := settles.frame
          rw [left, halted, stopped]
          exact ih (phase ▸ draining)

/-- No more tasks are under way than there is room for, and there is room while a unit is read. -/
theorem bounded (h : Reached env run source moves p did) :
    p.running.length ≤ run.prepared.settings.concurrency ∧
      (p.phase = .reading → p.running.length < run.prepared.settings.concurrency) := by
  induction h with
  | start =>
      refine ⟨Nat.zero_le _, fun admitting => ?_⟩
      cases admitting
  | @move moves move p p' did new reached happens ih =>
      obtain ⟨bound, room⟩ := ih
      cases happens with
      | idle | cancelled => exact ⟨bound, room⟩
      | reads reads =>
          have same : p'.running = p.running := congrArg (List.filter _) reads.frame.1
          rw [same]
          refine ⟨bound, ?_⟩
          cases reads with
          | room admitting unwanted unhalted room => exact fun _ => room
          | closed | stopped | exhausted | skipped | droppedCancelled | droppedHalted =>
              intro reading
              cases reading
      | spawned unit source reading left unwanted unhalted =>
          refine ⟨?_, Phase.noConfusion⟩
          rw [running, spawn, List.filter_append, List.length_append]
          -- the reader was waiting for a unit, so there is room for one task
          have one := List.length_filter_le (fun e : Job × Task => !e.2.isEnded)
            [(Job.ofUnit (p.admitted + 1) unit, Task.start run (Job.ofUnit (p.admitted + 1) unit))]
          exact Nat.le_trans (Nat.add_le_add_left one _) (room reading)
      | @attempted recordId p before after job record step rest attempt t new split attempted =>
          -- the task that made the attempt was under way, and may have ended
          have fewer : (running { p with
              tasks := before ++ (job, t) :: after
              halted := p.halted || t.isAuditFailure }).length ≤ p.running.length := by
            simp only [running, split, List.filter_append, List.length_append]
            refine Nat.add_le_add_left ?_ _
            cases t with
            | calling => exact Nat.le_refl _
            | ended => exact Nat.le_succ _
          exact ⟨Nat.le_trans fewer bound, fun reading => Nat.lt_of_le_of_lt fewer (room reading)⟩
      | @settled recordId p p' before after job ending new reading split settles =>
          obtain ⟨phase, -, -, tasks, -⟩ := settles.frame
          refine ⟨?_, fun reading' => absurd (phase ▸ reading') reading⟩
          rw [running, split, List.filter_append, List.filter_cons_of_neg] at bound
          · rwa [running, tasks, List.filter_append]
          · exact Bool.false_ne_true

/-- The counters say what went to the sink, and how many tasks the client took down. -/
structure Tallied (s : Summary) (results : List (RecordResult × Bool)) (crashes : Nat) : Prop where
  records : s.records = results.length
  completed : s.completed = results.countP fun e => e.1.status = .completed
  failed : s.failed = (results.countP fun e => e.1.status ≠ .completed) + crashes
  flagged : s.flagged = results.countP fun e => e.1.flagged
  ruleErrors : s.ruleErrors = (results.map fun e => e.1.ruleErrors.length).sum
  sinkErrors : s.sinkErrors = results.countP fun e => !e.2

theorem Tallied.count {s : Summary} {results : List (RecordResult × Bool)} {crashes : Nat}
    (h : Tallied s results crashes) (result : RecordResult) (taken : Bool) :
    Tallied (s.count result taken) (results ++ [(result, taken)]) crashes where
  records := by simp [Summary.count, h.records]
  completed := by
    simp only [Summary.count, h.completed, List.countP_append, List.countP_singleton]
    split <;> simp_all
  failed := by
    simp only [Summary.count, h.failed, List.countP_append, List.countP_singleton]
    split <;> simp_all
    omega
  flagged := by
    simp only [Summary.count, h.flagged, List.countP_append, List.countP_singleton]
    split <;> rfl
  ruleErrors := by simp [Summary.count, h.ruleErrors]
  sinkErrors := by
    simp only [Summary.count, h.sinkErrors, List.countP_append, List.countP_singleton]
    cases taken <;> rfl

theorem tallied (h : Reached env run source moves p did) :
    Tallied p.summary (resultsOf did) (crashedIn (endingsOf did)).length := by
  induction h with
  | start => exact ⟨rfl, rfl, rfl, rfl, rfl, rfl⟩
  | @move moves move p p' did new reached happens ih =>
      cases happens with
      | idle | cancelled =>
          rw [List.append_nil]
          exact ih
      | reads reads =>
          obtain ⟨records, completed, failed, flagged, ruleErrors, sinkErrors⟩ := ih
          rw [List.append_nil]
          cases reads with
          | room | closed | stopped | exhausted | skipped | droppedCancelled | droppedHalted =>
              exact ⟨records, completed, failed, flagged, ruleErrors, sinkErrors⟩
      | spawned unit source reading left unwanted unhalted =>
          rw [resultsOf_append, endingsOf_append]
          show Tallied _ (resultsOf did ++ []) (crashedIn (endingsOf did ++ [])).length
          rw [List.append_nil, List.append_nil]
          exact ih
      | attempted split attempted =>
          obtain ⟨-, endings, results⟩ := attempted.quiet
          rw [resultsOf_append, endingsOf_append, endings, results, List.append_nil, List.append_nil]
          exact ih
      | settled reading split settles =>
          rw [endingsOf_append, settles.endingsOf_settled, resultsOf_append, crashedIn_append,
            List.length_append]
          cases settles with
          | delivered result taken => exact ih.count result taken
          | failed message =>
              show Tallied _ (resultsOf did ++ []) _
              rw [List.append_nil]
              exact ih
          | lost =>
              show Tallied _ (resultsOf did ++ []) _
              rw [List.append_nil]
              obtain ⟨records, completed, failed, flagged, ruleErrors, sinkErrors⟩ := ih
              exact ⟨records, completed, congrArg (· + 1) failed, flagged, ruleErrors, sinkErrors⟩

theorem steady (steady : env.Steady) (h : Reached env run source moves p did) :
    refusalsOf did = [] ∧ crashesOf did = [] := by
  induction h with
  | start => exact ⟨rfl, rfl⟩
  | @move moves move p p' did new reached happens ih =>
      rw [refusalsOf_append, crashesOf_append, ih.1, ih.2, List.nil_append, List.nil_append]
      cases happens with
      | idle | cancelled | reads | spawned => exact ⟨rfl, rfl⟩
      | attempted split attempted => exact attempted.steady steady
      | settled reading split settles =>
          cases settles with
          | delivered | failed | lost => exact ⟨rfl, rfl⟩

end Reached

theorem isOver_iff : p.isOver = true ↔ p.phase = .draining ∧ p.tasks = [] := by
  rw [isOver, Bool.and_eq_true, decide_eq_true_iff, List.isEmpty_iff]

/-- All ended tasks of a run that is over are settled. -/
theorem finished_of_isOver (ended : p.isOver = true) (did : List Act) :
    p.finished did = endingsOf did := by
  rw [finished, (isOver_iff.1 ended).2]
  exact List.append_nil _

end Pool

end RecordInference
