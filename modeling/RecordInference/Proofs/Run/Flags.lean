import RecordInference.Proofs.Rule.Safety
import RecordInference.Proofs.Run.Conformance

/-!
# Flags of complete records

On a complete record of a declaration every rule has an answer, because the rule was typed against
the shape of the record: no rule fails, and the reasons of the flag are the texts of the rules that
hold, in the order of the declaration (`flagReasons_of_process`).
-/

set_option autoImplicit false

namespace RecordInference

/-- Whether a rule holds on a record. -/
def PlannedRule.holds (record : Record) (rule : PlannedRule) : Bool :=
  match rule.condition.evaluate rule.text record with
  | .ok b => b
  | .error _ => false

theorem holding_eq (rules : List PlannedRule) (record : Record) :
    holding rules record = (rules.filter (·.holds record)).map (·.text) := by
  induction rules with
  | nil => rfl
  | cons rule rest ih =>
      -- a rule that fails is left out like one that does not hold
      simp only [holding] at ih ⊢
      cases evaluated : rule.condition.evaluate rule.text record with
      | error e =>
          have fails : rule.holds record = false := by
            rw [PlannedRule.holds, evaluated]
          rw [List.filterMap_cons, List.filter_cons_of_neg (by simp [fails]), evaluated, ih]
      | ok b =>
          have answer : rule.holds record = b := by
            rw [PlannedRule.holds, evaluated]
          cases b with
          | true =>
              rw [List.filterMap_cons, List.filter_cons_of_pos answer, evaluated, ih, List.map_cons]
          | false =>
              rw [List.filterMap_cons, List.filter_cons_of_neg (by simp [answer]), evaluated, ih]

theorem failing_eq_nil {rules : List PlannedRule} {record : Record}
    (answered : ∀ rule ∈ rules, ∃ b, rule.condition.evaluate rule.text record = .ok b) :
    failing rules record = [] := by
  rw [failing, List.filterMap_eq_nil_iff]
  intro rule member
  obtain ⟨b, evaluated⟩ := answered rule member
  rw [evaluated]

theorem RecordResult.flagged_iff (result : RecordResult) :
    result.flagged = true ↔ result.flagReasons ≠ [] := by
  simp [flagged]

theorem Task.rules_of_sound {run : Run} {job : Job} {result : RecordResult}
    (h : Sound run job (.ended (.delivered result))) (completed : result.status = .completed) :
    result.flagReasons = holding run.prepared.plan.rules result.record ∧
      result.ruleErrors = failing run.prepared.plan.rules result.record := by
  cases h with
  | completed conforms => exact ⟨rfl, rfl⟩
  | failed done split conforms failure => cases completed

/-- On a complete record every rule of a declaration has an answer, and the reasons of the flag
are the texts of the rules that hold, in their order. -/
theorem flagReasons_of_process {text : String} {loader loader' : Loader} {plan : Plan}
    {settings : Settings} {prepared : Prepared}
    (compiled : Plan.ofDeclaration text loader = .ok plan)
    (ready : Prepared.ofPlan plan loader' settings = .ok prepared) {σ : Type}
    (env : Collaborators σ) (name : String) (job : Job) (s : σ) {result : RecordResult}
    (ended : (Task.process env ⟨prepared, name⟩ job s).1 = .ended (.delivered result))
    (completed : result.status = .completed) :
    result.ruleErrors = [] ∧
      (∀ rule ∈ plan.rules, ∃ b, rule.condition.evaluate rule.text result.record = .ok b) ∧
      result.flagReasons = (plan.rules.filter (·.holds result.record)).map (·.text) ∧
      (result.flagged = true ↔ result.flagReasons ≠ []) ∧
      ∃ program, Declaration.read text = .ok program ∧ plan.rules.map (·.text) = program.rules := by
  obtain ⟨fits, program⟩ := Plan.fits_of_ofDeclaration compiled
  obtain ⟨same, -, -⟩ := Prepared.steps_of_ofPlan ready
  have sound := Task.sound_of_ofDeclaration compiled ready env name job s
  rw [ended] at sound
  have conforms := (Task.typed_of_sound fits ready sound).completed completed
  obtain ⟨reasons, errors⟩ := Task.rules_of_sound sound completed
  simp only [same] at reasons errors
  have answered : ∀ rule ∈ plan.rules,
      ∃ b, rule.condition.evaluate rule.text result.record = .ok b := by
    intro rule member
    -- the rule was typed against the shape that the record has now
    obtain ⟨expr, -, typed⟩ := fits.rules rule member
    exact Rule.evaluate_of_typed conforms typed rule.text
  refine ⟨?_, answered, ?_, result.flagged_iff, program⟩
  · rw [errors, failing_eq_nil answered]
  · rw [reasons, holding_eq]

/-- A draft that is flagged for what it says. -/
theorem flagReasons_of_process_done : ∃ plan prepared result,
    Plan.ofDeclaration "DRAFT reply\nFLAG WHEN reply IS done" (fun _ _ => none) = .ok plan ∧
    Prepared.ofPlan plan (fun _ _ => none) {} = .ok prepared ∧
    (Task.process (.constant (.text "done")) ⟨prepared, "run"⟩ ⟨1, "input", "ref"⟩ ()).1 =
      .ended (.delivered result) ∧
    result.status = .completed ∧ result.ruleErrors = [] ∧
    result.flagReasons = (plan.rules.filter (·.holds result.record)).map (·.text) ∧
    result.flagged = true := by
  have run : ((Plan.ofDeclaration "DRAFT reply\nFLAG WHEN reply IS done"
      fun _ _ => none).toOption.bind fun plan =>
      (Prepared.ofPlan plan (fun _ _ => none) {}).toOption.map fun prepared =>
      match (Task.process (.constant (.text "done")) ⟨prepared, "run"⟩ ⟨1, "input", "ref"⟩ ()).1 with
      | .ended (.delivered result) => result.status = .completed && result.flagged
      | _ => false) = some true := by decide +kernel
  obtain ⟨plan, compiled, run⟩ := Option.bind_eq_some_iff.1 run
  obtain ⟨prepared, ready, run⟩ := Option.map_eq_some_iff.1 run
  rw [Except.toOption_eq_some_iff] at compiled ready
  split at run
  · next result ended =>
    simp only [Bool.and_eq_true, decide_eq_true_eq] at run
    obtain ⟨completed, flagged⟩ := run
    obtain ⟨none, -, reasons, -, -⟩ :=
      flagReasons_of_process compiled ready _ "run" _ () ended completed
    exact ⟨plan, prepared, result, compiled, ready, ended, completed, none, reasons, flagged⟩
  · cases run

end RecordInference
