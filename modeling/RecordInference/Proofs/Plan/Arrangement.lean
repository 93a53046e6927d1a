import RecordInference.Proofs.Plan.Acceptance
import RecordInference.Proofs.Plan.Renumbering

/-!
# Order that does not count

A pipeline is taken up in order, but only the order of its steps and of its settings counts. Where
its rules, its source and its output stand among them makes no difference
(`Assembly.foldl_take_around`), and neither do the order of the definitions and definitions that no
step needs (`Schema.get?_of_closed`). Two programs that differ in nothing else have the same plan,
or the same diagnostics (`Program.Rearranged.compile_eq`).
-/

set_option autoImplicit false

namespace RecordInference

/-! ### Programs in another order -/

/-- Whether the place of a construct among the others counts. -/
def Step.isPlaced : Step → Bool
  | .inference _ => true
  | .set _ _ => true
  | _ => false

/-- The rule that a construct states, with its line. -/
def Step.numberedRule? : Step → Option (String × Nat)
  | .rule expression line => some (expression, line)
  | _ => none

namespace Program

/-- Whether a step needs the definition of a name, for its response or for a part of it. -/
def Needs (p : Program) (name : String) : Prop :=
  ∃ step ∈ p.inferenceSteps, step.NamesDefinition ∧
    Relation.ReflTransGen (Refers p.definitions) step.target name

/-- Whether two programs differ only in where rules, source and output stand among the steps and
the settings, in the order of their definitions, and in definitions that no step needs. -/
structure Rearranged (p q : Program) : Prop where
  settings : p.settings = q.settings
  placed : p.pipeline.filter Step.isPlaced = q.pipeline.filter Step.isPlaced
  rules : p.pipeline.filterMap Step.numberedRule? = q.pipeline.filterMap Step.numberedRule?
  sources : p.sources = q.sources
  outputs : p.outputs = q.outputs
  source : p.sources.length ≤ 1
  output : p.outputs.length ≤ 1
  definitions : ∃ shared others others', p.definitions.Perm (shared ++ others) ∧
    q.definitions.Perm (shared ++ others') ∧ (∀ d ∈ others, ¬ p.Needs d.name) ∧
    ∀ d ∈ others', ¬ q.Needs d.name

end Program

/-! ### Pipelines -/

/-- A pipeline comes to what its steps and settings come to, with its source, its output and its
rules, wherever these stand. -/
theorem Assembly.foldl_take_around {schemas : Keyed Schema} {loader : Loader}
    {pipeline : List Step} (source output : Option String) (rules : List (String × Nat))
    (d : Assembly)
    (sources : (source.toList ++ pipeline.filterMap Step.source?).length ≤ 1)
    (outputs : (output.toList ++ pipeline.filterMap Step.output?).length ≤ 1) :
    pipeline.foldl (take schemas loader) (d.around source output rules) =
      ((pipeline.filter Step.isPlaced).foldl (take schemas loader) d).around
        (source.toList ++ pipeline.filterMap Step.source?).head?
        (output.toList ++ pipeline.filterMap Step.output?).head?
        (rules ++ pipeline.filterMap Step.numberedRule?) := by
  -- a construct whose place does not count goes into what is put around, the others into the rest
  induction pipeline generalizing source output rules d with
  | nil => simp
  | cons step rest ih =>
      cases step with
      | source locator line =>
          cases source with
          | none => exact ih (some locator) output rules d sources outputs
          | some earlier => simp [Step.source?] at sources
      | output locator line =>
          cases output with
          | none => exact ih source (some locator) rules d sources outputs
          | some earlier => simp [Step.output?] at outputs
      | rule expression line =>
          have later := ih source output (rules ++ [(expression, line)]) d sources outputs
          rwa [List.append_assoc] at later
      | set overrides line =>
          exact ih source output rules (d.take schemas loader (.set overrides line)) sources outputs
      | inference step =>
          rw [List.foldl_cons, take_inference_around]
          exact ih source output rules (d.take schemas loader (.inference step)) sources outputs

namespace Program

theorem foldl_eq_around {p : Program} (source : p.sources.length ≤ 1)
    (output : p.outputs.length ≤ 1) (schemas : Keyed Schema) (loader : Loader) :
    p.pipeline.foldl (Assembly.take schemas loader) { overrides := p.settings } =
      ((p.pipeline.filter Step.isPlaced).foldl (Assembly.take schemas loader)
        { overrides := p.settings }).around p.sources.head? p.outputs.head?
        (p.pipeline.filterMap Step.numberedRule?) :=
  Assembly.foldl_take_around none none [] { overrides := p.settings } source output

/-- The inference steps are among the constructs whose place counts. -/
theorem inferenceSteps_eq (p : Program) :
    p.inferenceSteps = (p.pipeline.filter Step.isPlaced).filterMap Step.inference? := by
  rw [inferenceSteps, List.filterMap_filter]
  congr 1
  funext step
  cases step with
  | source | inference | rule | output | set => rfl

namespace Rearranged

variable {p q : Program}

theorem symm (h : p.Rearranged q) : q.Rearranged p := by
  obtain ⟨shared, others, others', perm, perm', unneeded, unneeded'⟩ := h.definitions
  exact ⟨h.settings.symm, h.placed.symm, h.rules.symm, h.sources.symm, h.outputs.symm,
    h.sources ▸ h.source, h.outputs ▸ h.output, shared, others', others, perm', perm, unneeded',
    unneeded⟩

theorem inferenceSteps (h : p.Rearranged q) : p.inferenceSteps = q.inferenceSteps := by
  rw [inferenceSteps_eq, inferenceSteps_eq, h.placed]

/-- A definition that a step needs is in both programs. -/
theorem mem_of_needs (h : p.Rearranged q) :
    ∀ d ∈ p.definitions, p.Needs d.name → d ∈ q.definitions := by
  obtain ⟨shared, others, others', perm, perm', unneeded, -⟩ := h.definitions
  intro d declared needs
  rw [perm.mem_iff, List.mem_append] at declared
  rw [perm'.mem_iff, List.mem_append]
  exact declared.imp_right fun other => absurd needs (unneeded d other)

theorem needs (h : p.Rearranged q) {name : String} (needs : p.Needs name) : q.Needs name := by
  obtain ⟨step, member, names, reaches⟩ := needs
  -- what is reached so far is needed in the one program, so its definition is in the other one
  induction reaches with
  | refl => exact ⟨step, h.inferenceSteps ▸ member, names, .refl⟩
  | @tail a b reaches refers ih =>
      obtain ⟨step', member', names', reaches'⟩ := ih
      obtain ⟨d, declared, rfl, field⟩ := refers
      have shared := h.mem_of_needs d declared ⟨step, member, names, reaches⟩
      exact ⟨step', member', names', reaches'.tail ⟨d, shared, rfl, field⟩⟩

section

variable {schemas schemas' : Keyed Schema}
  (expansion : Schema.IsExpansion p.definitions schemas)
  (expansion' : Schema.IsExpansion q.definitions schemas')

include expansion expansion'

theorem get?_of_needs (h : p.Rearranged q) {name : String} (needs : p.Needs name)
    {schema : Schema} (found : Keyed.get? name schemas = some schema) :
    Keyed.get? name schemas' = some schema := by
  refine Schema.get?_of_closed expansion expansion' ?_ h.mem_of_needs needs found
  rintro a b ⟨step, member, names, reaches⟩ refers
  exact ⟨step, member, names, reaches.tail refers⟩

/-- The steps yield the same with the schemas of either program. -/
theorem ofStep_eq (h : p.Rearranged q) {step : InferenceStep} (member : step ∈ p.inferenceSteps) :
    Yield.ofStep schemas step = Yield.ofStep schemas' step := by
  by_cases names : step.NamesDefinition
  · have needs : p.Needs step.target := ⟨step, member, names, .refl⟩
    have same : Keyed.get? step.target schemas = Keyed.get? step.target schemas' :=
      Option.ext fun schema => ⟨h.get?_of_needs expansion expansion' needs,
        h.symm.get?_of_needs expansion' expansion (h.needs needs)⟩
    rw [Yield.ofStep_of_names names, Yield.ofStep_of_names names, Yield.ofDefinition,
      Yield.ofDefinition, same]
  · obtain ⟨schema, yields, -⟩ := InferenceStep.exists_single names
    rw [yields, yields]

/-- Every construct does the same with the schemas of either program. -/
theorem take_eq (h : p.Rearranged q) (loader : Loader) {step : Step} (member : step ∈ p.pipeline)
    (d : Assembly) : d.take schemas loader step = d.take schemas' loader step := by
  cases step with
  | source | output | rule | set => rfl
  | inference step =>
      have listed : step ∈ p.inferenceSteps := List.mem_filterMap.2 ⟨_, member, rfl⟩
      rw [Assembly.take, Assembly.take, h.ofStep_eq expansion expansion' listed]

theorem assemble_eq (h : p.Rearranged q) (loader : Loader) :
    p.assemble schemas loader = q.assemble schemas' loader := by
  have taken : (p.pipeline.filter Step.isPlaced).foldl (Assembly.take schemas loader)
      { overrides := p.settings } =
        (p.pipeline.filter Step.isPlaced).foldl (Assembly.take schemas' loader)
          { overrides := p.settings } :=
    List.foldl_ext _ _ _ fun d step member =>
      h.take_eq expansion expansion' loader (List.mem_filter.1 member).1 d
  have folded : p.pipeline.foldl (Assembly.take schemas loader) { overrides := p.settings } =
      q.pipeline.foldl (Assembly.take schemas' loader) { overrides := q.settings } := by
    rw [foldl_eq_around h.source h.output, foldl_eq_around h.symm.source h.symm.output, taken,
      h.placed, h.settings, h.sources, h.outputs, h.rules]
  have some : p.pipeline.any Step.isInference = q.pipeline.any Step.isInference := by
    rw [Bool.eq_iff_iff, Step.any_isInference_iff, Step.any_isInference_iff]
    exact not_congr (Eq.congr_left h.inferenceSteps)
  simp only [assemble, folded, some]

end

/-- Rearranged programs come to the same: to the same plan, or to the same diagnostics. -/
theorem compile_eq {schemas schemas' : Keyed Schema} (h : p.Rearranged q)
    (resolved : Schema.resolve p.definitions = .ok schemas)
    (resolved' : Schema.resolve q.definitions = .ok schemas') (loader : Loader) :
    Plan.compile p schemas loader = Plan.compile q schemas' loader := by
  rw [Plan.compile_eq, Plan.compile_eq, h.assemble_eq (Schema.isExpansion_of_resolve resolved)
    (Schema.isExpansion_of_resolve resolved')]

end Rearranged

end Program

namespace Plan

/-- Two programs have the same plan, or none with the same diagnostics up to the lines in them,
if they differ only in their lines, in where rules, source and output stand among the steps and the
settings, in the order of their definitions and in definitions that no step needs. The lines are
those of the programs themselves where `f` and `g` change none. -/
theorem compile_of_rearranged {p q : Program} {f g : Nat → Nat} {schemas schemas' : Keyed Schema}
    (h : (p.renumber f).Rearranged (q.renumber g))
    (resolved : Schema.resolve p.definitions = .ok schemas)
    (resolved' : Schema.resolve q.definitions = .ok schemas') (loader : Loader) :
    (∃ plan, compile p schemas loader = .ok plan ∧ compile q schemas' loader = .ok plan) ∨
    ∃ ds ds', compile p schemas loader = .error ds ∧ compile q schemas' loader = .error ds' ∧
      ds.map (Diagnostic.renumber f) = ds'.map (Diagnostic.renumber g) := by
  have same := h.compile_eq ((Schema.resolve_renumber p.definitions).trans resolved)
    ((Schema.resolve_renumber q.definitions).trans resolved') loader
  rw [compile_renumber, compile_renumber] at same
  exact Except.eq_ok_or_eq_error_of_bimap same

/-- A definition that refers to the one that a step needs, and everything that may stand elsewhere
elsewhere. -/
theorem compile_of_rearranged_report :
    let claim : Definition := ⟨"claim", [⟨"holder", .object "person", 2⟩], 1⟩
    let person : Definition := ⟨"person", [⟨"name", .text, 4⟩], 3⟩
    let report : Definition := ⟨"report", [⟨"claims", .listOf "claim", 6⟩], 5⟩
    let extract : Step := .inference ⟨.extract, "claim", none, none, none, 8⟩
    let draft : Step := .inference ⟨.draft, "reply", none, none, none, 9⟩
    let p : Program := ⟨[claim, person], [.seed 7],
      [.source "in" 7, extract, .rule "reply IS thanks" 10, .set [.seed 9] 11, draft,
        .output "out" 12]⟩
    let q : Program := ⟨[person, report, claim], [.seed 7],
      [.output "out" 7, .rule "reply IS thanks" 8, extract, .set [.seed 9] 12, .source "in" 13,
        draft]⟩
    (p.renumber fun _ => 0).Rearranged (q.renumber fun _ => 0) ∧
    ∃ schemas schemas', Schema.resolve p.definitions = .ok schemas ∧
      Schema.resolve q.definitions = .ok schemas' ∧
      ∃ plan, compile p schemas (.ofTexts [] []) = .ok plan ∧
        compile q schemas' (.ofTexts [] []) = .ok plan := by
  intro claim person report extract draft p q
  have unneeded : ¬ (q.renumber fun _ => 0).Needs "report" := by
    rintro ⟨step, member, -, reaches⟩
    -- no step has it for a target, and no definition refers to it
    rcases reaches.cases_tail with target | ⟨earlier, -, d, declared, -, f, field, refers⟩
    · have targets : ∀ step ∈ (q.renumber fun _ => 0).inferenceSteps, step.target ≠ "report" := by
        decide
      exact targets step member target.symm
    · have references : ∀ d ∈ (q.renumber fun _ => 0).definitions, ∀ f ∈ d.fields,
          f.type.reference? ≠ some "report" := by decide
      exact references d declared f field refers
  have rearranged : (p.renumber fun _ => 0).Rearranged (q.renumber fun _ => 0) :=
    ⟨rfl, rfl, rfl, rfl, rfl, by decide, by decide,
      (p.renumber fun _ => 0).definitions, [], [report.renumber fun _ => 0], by decide, by decide,
      List.forall_mem_nil _, List.forall_mem_singleton.2 unneeded⟩
  obtain ⟨plan, planned⟩ := Except.exists_of_isOk
    (show (p.plan (.ofTexts [] [])).isOk = true by decide +kernel)
  obtain ⟨schemas, resolved, compiled⟩ := Except.bind_eq_ok_iff.1 planned
  rw [Except.mapError_eq_ok_iff] at resolved compiled
  obtain ⟨schemas', resolved'⟩ := Except.exists_of_isOk
    (show (Schema.resolve q.definitions).isOk = true by decide +kernel)
  refine ⟨rearranged, schemas, schemas', resolved, resolved', plan, compiled, ?_⟩
  rcases compile_of_rearranged rearranged resolved resolved' (.ofTexts [] []) with
    ⟨plan', same, compiled'⟩ | ⟨ds, -, failed, -⟩
  · rw [compiled] at same
    cases same
    exact compiled'
  · rw [compiled] at failed
    cases failed

end Plan

end RecordInference
