import RecordInference.Proofs.Prompt.Template
import RecordInference.Proofs.Run.Protocol

/-!
# What a request depends on

A record is made of the responses to the steps before, and a request is made of a step, a job and
the record so far. If the step is no draft, the request takes from the record what is at the paths
that its prompt names, and nothing else (`PreparedStep.request_congr`).

The record of a task is what the accepted responses to the steps before come to, whatever happens
outside (`Task.gathering_advance`). So every request that goes out is one of a step and of such a
record (`Task.allAsked_advanceBy`), and the responses reach it through the named paths alone
(`request_of_agree`).
-/

set_option autoImplicit false

namespace RecordInference

/-! ### Requests of two records -/

/-- Whether two records have the same values at the paths, and lack the same ones. -/
def Record.AgreeOn (paths : List String) (record record' : Record) : Prop :=
  ∀ path ∈ paths, record.lookup? path = record'.lookup? path

namespace PreparedStep

variable {p : PreparedStep} {record record' : Record}

/-- The paths that the prompt of a step names: none if it has no prompt. -/
def paths (p : PreparedStep) : List String := p.context.toList.flatMap Template.paths

/-- Only the input of a draft shows the record. -/
theorem inputOf_of_ne {verb : Verb} (structured : verb ≠ .draft) (input : String)
    (record : Record) : inputOf verb input record = input := by
  cases verb with
  | extract | classify => rfl
  | draft => exact absurd rfl structured

/-- The prompt of a step is filled from the paths that it names. -/
theorem context_congr (agree : Record.AgreeOn p.paths record record') :
    (p.context.map fun text => Template.fill text record) =
      p.context.map fun text => Template.fill text record' := by
  cases prompt : p.context with
  | none => rfl
  | some text =>
      refine congrArg some (Template.fill_congr ?_)
      intro path named
      apply agree
      rw [paths, prompt]
      exact List.mem_flatMap.2 ⟨text, List.mem_singleton_self text, named⟩

/-- A request that is no draft is the same for records that agree on what its prompt names. -/
theorem request_congr (structured : p.step.verb ≠ .draft)
    (agree : Record.AgreeOn p.paths record record') (recordId : Nat) (input : String) :
    p.request recordId input record = p.request recordId input record' := by
  rw [request, request, context_congr agree, inputOf_of_ne structured, inputOf_of_ne structured]

/-- Without a prompt all records agree. -/
theorem agreeOn_of_none (bare : p.context = none) (record record' : Record) :
    Record.AgreeOn p.paths record record' := by
  intro path named
  rw [paths, bare] at named
  cases named

end PreparedStep

/-! ### Records and the responses that they are made of -/

/-- What accepted responses to steps come to: one response for each step, in their order. -/
inductive Record.Gathered : List PlannedStep → List String → Record → Prop
  | start : Gathered [] [] []
  | concat {steps : List PlannedStep} {raws : List String} {record : Record} {step : PlannedStep}
      {raw : String} {v : Value} (before : Gathered steps raws record)
      (accepted : Response.checkStep step.verb step.schema step.output raw = .ok v) :
      Gathered (steps ++ [step]) (raws ++ [raw]) (record.merge step.output v)

/-- Whether a request is that of a step of a run for a job, made of what the responses to the steps
before it come to. -/
structure Asked (run : Run) (job : Job) (p : PreparedStep) (raws : List String) (record : Record)
    (request : Request) : Prop where
  gathered : ∃ done rest, run.prepared.steps = done ++ p :: rest ∧
    Record.Gathered (done.map (·.step)) raws record
  made : request = p.request job.recordId job.input record

namespace Task

variable {σ : Type} {run : Run} {job : Job}

/-- Whether the record of a task is what the responses to the steps before come to. -/
def Gathering (run : Run) : Task → Prop
  | .calling record step rest _ => ∃ done raws, run.prepared.steps = done ++ step :: rest ∧
      Record.Gathered (done.map (·.step)) raws record
  | .ended _ => True

theorem gathering_goOn {record : Record} {done rest : List PreparedStep} {raws : List String}
    (split : run.prepared.steps = done ++ rest)
    (gathered : Record.Gathered (done.map (·.step)) raws record) :
    (goOn run job record rest).Gathering run := by
  cases rest with
  | nil => trivial
  | cons step rest => exact ⟨done, raws, split, gathered⟩

theorem gathering_start (run : Run) (job : Job) : (start run job).Gathering run :=
  gathering_goOn (List.nil_append _).symm .start

/-- A valid answer is an accepted response, and any other leaves the record as it is. -/
theorem gathering_settle {record : Record} {step : PreparedStep} {rest : List PreparedStep}
    {attempt : Nat} (h : (calling record step rest attempt).Gathering run) (answer : Answer)
    (timeoutMs : Nat) : (settle run job record step rest attempt
      (answer.judge step.step timeoutMs)).Gathering run := by
  obtain ⟨done, raws, split, gathered⟩ := h
  cases judged : answer.judge step.step timeoutMs with
  | ok v =>
      -- the response is one more, to one more step
      obtain ⟨raw, accepted⟩ : ∃ raw, Response.checkStep step.step.verb step.step.schema
          step.step.output raw = .ok v := by
        cases answer with
        | text raw => exact ⟨raw, Except.mapError_eq_ok_iff.1 judged⟩
        | transport | timedOut => cases judged
      have further : run.prepared.steps = (done ++ [step]) ++ rest := by
        rw [split, List.append_assoc, List.singleton_append]
      apply gathering_goOn further
      rw [List.map_append, List.map_singleton]
      exact .concat gathered accepted
  | error f =>
      rw [settle]
      split
      · exact ⟨done, raws, split, gathered⟩
      · trivial

/-- An attempt keeps the record of a task what the responses come to, in whatever world outside. -/
theorem gathering_advance (env : Collaborators σ) {t : Task} (h : t.Gathering run) (s : σ) :
    (advance env run job t s).1.Gathering run := by
  cases t with
  | ended ending => trivial
  | calling record step rest attempt =>
      rw [advance]
      split
      · trivial
      · split
        · trivial
        · exact gathering_settle h _ _

/-- An attempt calls once, with the request of its step, and what follows the call are entries. -/
theorem events_advance (env : Collaborators σ) (run : Run) (job : Job) (record : Record)
    (step : PreparedStep) (rest : List PreparedStep) (attempt : Nat) (s : σ)
    (events : List Event) : ∃ entries : List AuditEntry,
      (advance env.observed run job (.calling record step rest attempt) (s, events)).2.2 =
        events ++ .called (step.request job.recordId job.input record) attempt ::
          entries.map .entered := by
  simp only [advance, invoke_observed]
  rcases invoke env run.prepared.settings.timeoutMs
    (step.request job.recordId job.input record) attempt s with ⟨answer, s'⟩
  cases answer with
  | none => exact ⟨[], rfl⟩
  | some answer =>
      rcases appended : env.append (entry run job step attempt (env.now s') answer) s'
        with ⟨fault, s''⟩
      simp only [Collaborators.now_observed, Collaborators.append_observed, appended,
        List.append_assoc, List.singleton_append]
      cases fault with
      | none | some => exact ⟨[_], rfl⟩

/-- Whether all requests among events are those of steps, made of what the responses to the steps
before them come to. -/
def AllAsked (run : Run) (job : Job) (events : List Event) : Prop :=
  ∀ request attempt, .called request attempt ∈ events →
    ∃ p raws record, Asked run job p raws record request

theorem allAsked_advance (env : Collaborators σ) {t : Task} (h : t.Gathering run) (s : σ)
    {events : List Event} (asked : AllAsked run job events) :
    AllAsked run job (advance env.observed run job t (s, events)).2.2 := by
  cases t with
  | ended ending => exact asked
  | calling record step rest attempt =>
      obtain ⟨done, raws, split, gathered⟩ := h
      obtain ⟨entries, eq⟩ := events_advance env run job record step rest attempt s events
      intro request attempt' called
      rw [eq, List.mem_append, List.mem_cons] at called
      rcases called with before | here | behind
      · exact asked request attempt' before
      · cases here
        exact ⟨step, raws, record, ⟨done, rest, split, gathered⟩, rfl⟩
      · obtain ⟨entry, -, same⟩ := List.mem_map.1 behind
        cases same

/-- However many attempts are made, every request that has gone out is one of a step, made of what
the responses to the steps before it come to. -/
theorem allAsked_advanceBy (env : Collaborators σ) (n : Nat) {t : Task} (h : t.Gathering run)
    (s : σ) {events : List Event} (asked : AllAsked run job events) :
    AllAsked run job (advanceBy env.observed run job n t (s, events)).2.2 := by
  induction n generalizing t s events with
  | zero => exact asked
  | succ n ih =>
      have next := allAsked_advance env h s asked
      obtain ⟨events', eq⟩ := advance_observed env run job t s events
      rw [eq] at next
      rw [advanceBy, eq]
      exact ih (gathering_advance env h s) _ next

end Task

/-- The request of a step that is no draft is the same for any two records that agree on the paths
its prompt names, and for any two records at all if it has no prompt. What goes out in a run are
requests of steps, each of a record that is what the accepted responses to the steps before come
to; so these responses reach the request through the named paths alone. -/
theorem request_of_agree {p : PreparedStep} (structured : p.step.verb ≠ .draft) :
    (∀ (recordId : Nat) (input : String) (record record' : Record),
      Record.AgreeOn p.paths record record' →
      p.request recordId input record = p.request recordId input record') ∧
    (p.context = none → ∀ (recordId : Nat) (input : String) (record record' : Record),
      p.request recordId input record = p.request recordId input record') ∧
    (∀ {run run' : Run} {job : Job} {raws raws' : List String} {record record' : Record}
      {request request' : Request}, Asked run job p raws record request →
      Asked run' job p raws' record' request' →
      Record.AgreeOn p.paths record record' → request = request') ∧
    ∀ {σ : Type} (env : Collaborators σ) (run : Run) (job : Job) (n : Nat) (s : σ)
      (request : Request) (attempt : Nat),
      .called request attempt ∈
        (Task.advanceBy env.observed run job n (Task.start run job) (s, [])).2.2 →
      ∃ q raws record, Asked run job q raws record request := by
  refine ⟨?_, ?_, ?_, ?_⟩
  · intro recordId input record record' agree
    exact PreparedStep.request_congr structured agree recordId input
  · intro bare recordId input record record'
    apply PreparedStep.request_congr structured
    exact PreparedStep.agreeOn_of_none bare record record'
  · intro run run' job raws raws' record record' request request' asked asked' agree
    rw [asked.made, asked'.made]
    exact PreparedStep.request_congr structured agree job.recordId job.input
  · intro σ env run job n s request attempt called
    have none : Task.AllAsked run job [] := fun _ _ member => absurd member List.not_mem_nil
    exact Task.allAsked_advanceBy env n (Task.gathering_start run job) s none request attempt called

/-- The second step of a declaration, whose prompt names the field of the first: what else a record
has does not change the request. -/
theorem request_of_agree_triage : ∃ plan prepared p,
    Plan.ofDeclaration "CLASSIFY kind INTO [car, home]\nCLASSIFY urgency INTO [low, high] WITH triage"
      (fun _ _ => some "A \x7bkind\x7d claim.") = .ok plan ∧
    Prepared.ofPlan plan (fun _ _ => some "A \x7bkind\x7d claim.") {} = .ok prepared ∧
    prepared.steps[1]? = some p ∧ p.paths = ["kind"] ∧ p.step.verb ≠ .draft ∧
    p.request 1 "dent" [("kind", .oneOf "car"), ("note", .text "new")] =
      p.request 1 "dent" [("kind", .oneOf "car"), ("note", .text "old")] := by
  have run : ((Plan.ofDeclaration
      "CLASSIFY kind INTO [car, home]\nCLASSIFY urgency INTO [low, high] WITH triage"
      fun _ _ => some "A \x7bkind\x7d claim.").toOption.bind fun plan =>
      (Prepared.ofPlan plan (fun _ _ => some "A \x7bkind\x7d claim.") {}).toOption.bind
        fun prepared => prepared.steps[1]?.map fun p => (p.paths, p.step.verb)) =
      some (["kind"], .classify) := by decide +kernel
  obtain ⟨plan, compiled, run⟩ := Option.bind_eq_some_iff.1 run
  obtain ⟨prepared, ready, run⟩ := Option.bind_eq_some_iff.1 run
  obtain ⟨p, second, same⟩ := Option.map_eq_some_iff.1 run
  obtain ⟨paths, verb⟩ := Prod.mk.inj same
  rw [Except.toOption_eq_some_iff] at compiled ready
  have structured : p.step.verb ≠ .draft := by
    rw [verb]
    decide
  refine ⟨plan, prepared, p, compiled, ready, second, paths, structured, ?_⟩
  apply (request_of_agree structured).1
  intro path named
  rw [paths, List.mem_singleton] at named
  rw [named]
  rfl

end RecordInference
