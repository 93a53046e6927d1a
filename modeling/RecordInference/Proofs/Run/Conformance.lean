import RecordInference.Proofs.Response.Soundness
import RecordInference.Proofs.Run.Protocol

/-!
# Records that conform

While a record becomes, it has exactly the fields of the steps that are done, in their order, and
the value of every field is of its shape (`Task.Sound`). A step adds its own fields, which are new,
and an attempt that fails adds nothing, so every attempt keeps this in whatever world outside
(`sound_advance`), and so does a whole record (`sound_process`).
-/

set_option autoImplicit false

namespace RecordInference

/-- The value of a valid response adds the fields of its step to the record. -/
theorem Record.conforms_merge {loader : Loader} {before : List PlannedStep} {step : PlannedStep}
    {record : Record} {raw : String} {v : Value} (fits : StepFits loader before step)
    (conforms : FieldsConform (producedBy before) record)
    (valid : Response.checkStep step.verb step.schema step.output raw = .ok v) :
    FieldsConform (producedBy (before ++ [step])) (record.merge step.output v) := by
  have value := Response.conforms_of_checkStep fits.distinct valid
  have nodup := fits.nodup
  have fresh := fits.fresh
  rw [producedBy_append, producedBy_singleton]
  simp only [PlannedStep.produced] at nodup fresh ⊢
  rw [← conforms.keys_eq] at fresh
  cases output : step.output with
  | field name =>
      -- one new field, whatever its value is
      rw [output] at fresh
      have new : name ∉ Keyed.keys record := fresh name List.mem_cons_self
      have merged : record.merge (.field name) v = record ++ [(name, v)] := by
        cases v with
        | text | money | number | yesNo | oneOf | list | object => exact Keyed.insert_eq_append new _
      rw [merged]
      exact conforms.append (.single name value)
  | fields =>
      -- the fields of an object, which are distinct and new
      obtain ⟨name, fields, object⟩ := fits.object output
      rw [output, object] at nodup fresh
      rw [object] at value ⊢
      cases value with
      | @object _ _ values each =>
          have merged : record.merge .fields (.object values) = record ++ values := by
            apply Keyed.extend_eq_append
            · rw [each.keys_eq]
              exact nodup
            · rw [each.keys_eq]
              exact fresh
          rw [merged]
          exact conforms.append each

namespace Task

/-- What a task is, however its record came about. -/
inductive Sound (run : Run) (job : Job) : Task → Prop
  | calling {record : Record} {step : PreparedStep} {rest : List PreparedStep} (attempt : Nat)
      (done : List PreparedStep) (split : run.prepared.steps = done ++ step :: rest)
      (conforms : FieldsConform (producedBy (done.map (·.step))) record) :
      Sound run job (.calling record step rest attempt)
  | completed {record : Record}
      (conforms : FieldsConform (producedBy (run.prepared.steps.map (·.step))) record) :
      Sound run job (.ended (.delivered (complete run job record)))
  | failed {record : Record} {step : PreparedStep} {rest : List PreparedStep}
      (done : List PreparedStep) (split : run.prepared.steps = done ++ step :: rest)
      (conforms : FieldsConform (producedBy (done.map (·.step))) record) (failure : StepFailure) :
      Sound run job (.ended (.delivered (fail job record step.step.index failure)))
  | auditFailed (message : String) : Sound run job (.ended (.auditFailed message))
  | crashed : Sound run job (.ended .crashed)

variable {σ : Type} {run : Run} {job : Job} {loader : Loader}

theorem sound_goOn {record : Record} {done rest : List PreparedStep}
    (split : run.prepared.steps = done ++ rest)
    (conforms : FieldsConform (producedBy (done.map (·.step))) record) :
    Sound run job (goOn run job record rest) := by
  cases rest with
  | nil =>
      apply Sound.completed
      rw [split, List.append_nil]
      exact conforms
  | cons step rest => exact .calling 1 done split conforms

theorem sound_start (run : Run) (job : Job) : Sound run job (start run job) :=
  sound_goOn (List.nil_append _).symm .nil

theorem checkStep_of_judge {step : PlannedStep} {timeoutMs : Nat} {answer : Answer} {v : Value}
    (h : answer.judge step timeoutMs = .ok v) :
    ∃ raw, Response.checkStep step.verb step.schema step.output raw = .ok v := by
  cases answer with
  | text raw => exact ⟨raw, Except.mapError_eq_ok_iff.1 h⟩
  | transport | timedOut => cases h

theorem sound_settle (fit : StepsFit loader (run.prepared.steps.map (·.step))) {record : Record}
    {step : PreparedStep} {done rest : List PreparedStep}
    (split : run.prepared.steps = done ++ step :: rest)
    (conforms : FieldsConform (producedBy (done.map (·.step))) record) (attempt : Nat)
    (answer : Answer) (timeoutMs : Nat) : Sound run job
      (settle run job record step rest attempt (answer.judge step.step timeoutMs)) := by
  cases judged : answer.judge step.step timeoutMs with
  | ok v =>
      obtain ⟨raw, valid⟩ := checkStep_of_judge judged
      have further : run.prepared.steps = (done ++ [step]) ++ rest := by
        rw [split, List.append_assoc, List.singleton_append]
      refine sound_goOn further ?_
      rw [List.map_append, List.map_singleton]
      exact Record.conforms_merge (fit.of_split split) conforms valid
  | error f =>
      -- a failure leaves the record as it is, whether the step is tried again or given up
      rw [settle]
      split
      · exact .calling (attempt + 1) done split conforms
      · exact .failed done split conforms f

/-- An attempt keeps a task sound, whatever happens outside. -/
theorem sound_advance (fit : StepsFit loader (run.prepared.steps.map (·.step)))
    (env : Collaborators σ) {t : Task} (h : Sound run job t) (s : σ) :
    Sound run job (advance env run job t s).1 := by
  cases h with
  | completed conforms => exact .completed conforms
  | failed done split conforms failure => exact .failed done split conforms failure
  | auditFailed message => exact .auditFailed message
  | crashed => exact .crashed
  | calling attempt done split conforms =>
      -- the call may crash, its entry may be refused, and otherwise the answer is judged
      rw [advance]
      split
      · exact .crashed
      · split
        · exact .auditFailed _
        · exact sound_settle fit split conforms attempt _ _

theorem sound_advanceBy (fit : StepsFit loader (run.prepared.steps.map (·.step)))
    (env : Collaborators σ) (n : Nat) {t : Task} (h : Sound run job t) (s : σ) :
    Sound run job (advanceBy env run job n t s).1 := by
  induction n generalizing t s with
  | zero => exact h
  | succ n ih => exact ih (sound_advance fit env h s) _

/-- However a record ends, it is sound. -/
theorem sound_process (fit : StepsFit loader (run.prepared.steps.map (·.step)))
    (env : Collaborators σ) (job : Job) (s : σ) :
    Sound run job (process env run job s).1 :=
  sound_advanceBy fit env _ (sound_start run job) s

theorem sound_of_ofDeclaration {text : String} {loader' : Loader} {plan : Plan}
    {settings : Settings} {prepared : Prepared}
    (compiled : Plan.ofDeclaration text loader = .ok plan)
    (ready : Prepared.ofPlan plan loader' settings = .ok prepared) (env : Collaborators σ)
    (name : String) (job : Job) (s : σ) :
    Sound ⟨prepared, name⟩ job (process env ⟨prepared, name⟩ job s).1 := by
  obtain ⟨fits, -⟩ := Plan.fits_of_ofDeclaration compiled
  obtain ⟨-, steps, -⟩ := Prepared.steps_of_ofPlan ready
  have fit : StepsFit loader (prepared.steps.map (·.step)) := by
    rw [steps]
    exact fits.steps
  exact sound_process fit env job s

end Task

/-! ### Results -/

/-- Whether the record of a result has the fields of the steps that are done, in their order, each
of its shape: all fields of the plan if it is complete, those of the steps before the one that
failed if it is not. -/
structure RecordResult.Typed (plan : Plan) (result : RecordResult) : Prop where
  completed : result.status = .completed → FieldsConform plan.shape result.record
  failed : ∀ k failure, result.status = .failed k failure →
    k < plan.steps.length ∧ FieldsConform (producedBy (plan.steps.take k)) result.record ∧
      result.flagged = false ∧ result.flagReasons = [] ∧ result.ruleErrors = []

theorem Task.typed_of_sound {loader loader' : Loader} {plan : Plan} {settings : Settings}
    {prepared : Prepared} {name : String} {job : Job} {result : RecordResult}
    (fits : plan.Fits loader) (ready : Prepared.ofPlan plan loader' settings = .ok prepared)
    (h : Sound ⟨prepared, name⟩ job (.ended (.delivered result))) : result.Typed plan := by
  obtain ⟨-, steps, -⟩ := Prepared.steps_of_ofPlan ready
  cases h with
  | completed conforms =>
      rw [steps, ← fits.shape] at conforms
      exact ⟨fun _ => conforms, nofun⟩
  | @failed record step rest done split conforms failure =>
      refine ⟨nofun, ?_⟩
      intro k failure' failed
      have split' : plan.steps = done.map (·.step) ++ step.step :: rest.map (·.step) := by
        rw [← steps, split, List.map_append, List.map_cons]
      -- the index of the step that failed is the number of the steps before it
      have index := (fits.steps _ _ _ split').index
      cases failed
      rw [index, split', List.take_left]
      refine ⟨?_, conforms, rfl, rfl, rfl⟩
      rw [List.length_append, List.length_cons]
      omega

/-- Every record of a declaration that ends with a result is typed, whatever happens outside; and
it ends with one if every call is answered and every entry is taken. -/
theorem typed_of_process {text : String} {loader loader' : Loader} {plan : Plan}
    {settings : Settings} {prepared : Prepared}
    (compiled : Plan.ofDeclaration text loader = .ok plan)
    (ready : Prepared.ofPlan plan loader' settings = .ok prepared) {σ : Type}
    (env : Collaborators σ) (name : String) (job : Job) (s : σ) :
    (∀ result, (Task.process env ⟨prepared, name⟩ job s).1 = .ended (.delivered result) →
      result.Typed plan) ∧
    (env.Steady → ∃ result,
      (Task.process env ⟨prepared, name⟩ job s).1 = .ended (.delivered result)) := by
  obtain ⟨fits, -⟩ := Plan.fits_of_ofDeclaration compiled
  constructor
  · intro result ended
    have sound := Task.sound_of_ofDeclaration compiled ready env name job s
    rw [ended] at sound
    exact Task.typed_of_sound fits ready sound
  · intro steady
    obtain ⟨result, s', episodes, ended, -⟩ :=
      Task.protocol_of_process steady ⟨prepared, name⟩ job s
    exact ⟨result, congrArg Prod.fst ended⟩

/-- An order whose numbers and truth values come as texts. -/
theorem typed_of_process_order : ∃ plan prepared result,
    Plan.ofDeclaration "DEFINE Order\n  total MONEY\n  paid YES/NO\nEXTRACT Order"
      (fun _ _ => none) = .ok plan ∧
    Prepared.ofPlan plan (fun _ _ => none) {} = .ok prepared ∧
    (Task.process (.constant (.text "\x7b\"total\": \"12.50\", \"paid\": \"yes\"\x7d"))
      ⟨prepared, "run"⟩ ⟨1, "input", "ref"⟩ ()).1 = .ended (.delivered result) ∧
    result.Typed plan := by
  obtain ⟨plan, prepared, compiled, ready⟩ := Prepared.exists_of_ofDeclaration
    (show (Plan.ofDeclaration "DEFINE Order\n  total MONEY\n  paid YES/NO\nEXTRACT Order"
      fun _ _ => none).isOk = true by decide +kernel)
    (show Settings.problems {} = [] by decide)
  have steady : (Collaborators.constant
      (.text "\x7b\"total\": \"12.50\", \"paid\": \"yes\"\x7d")).Steady :=
    Collaborators.steady_constant (by decide)
  obtain ⟨typed, delivered⟩ :=
    typed_of_process compiled ready _ "run" ⟨1, "input", "ref"⟩ ()
  obtain ⟨result, ended⟩ := delivered steady
  exact ⟨plan, prepared, result, compiled, ready, ended, typed result ended⟩

end RecordInference
