import RecordInference.Proofs.Plan.Arrangement

/-!
# Programs whose constructs are in order

Some diagnostics are about the constructs of a program by themselves: a target that is no
definition or none to classify by, a rule that cannot be read, a second source or output
(`Diagnostic.isStructural`). Where the constructs are in order, whatever else is reported is about
the fields of steps, about resources or about types (`Plan.not_structural_of_compile`).
-/

set_option autoImplicit false

namespace RecordInference

/-- Whether a diagnostic is about a construct by itself. -/
def Diagnostic.isStructural : Diagnostic → Bool
  | unknownDefinition .. | notClassifiable .. | ruleSyntax .. | duplicateStep .. => true
  | _ => false

/-- Whether the constructs of a program are in order by themselves. -/
structure Program.Structured (p : Program) : Prop where
  source : p.sources.length ≤ 1
  output : p.outputs.length ≤ 1
  steps : ∀ step ∈ p.inferenceSteps, step.NamesDefinition →
    step.verb = .extract ∧ ∃ d, p.definition? step.target = some d
  rules : ∀ text ∈ p.rules, ∃ expr, Rule.read text = .ok expr

section

variable {d : Assembly} {loader : Loader} {schemas : Keyed Schema}

/-- A step of known yield is reported for its fields and for its resources only. -/
theorem Assembly.not_structural_plan (step : InferenceStep) (y : Yield)
    (none : ∀ x ∈ d.diagnostics, x.isStructural = false) :
    ∀ x ∈ (d.plan loader step y).diagnostics, x.isStructural = false := by
  have clashes : ∀ x ∈ d.clashes step.line y.produced, x.isStructural = false := by
    intro x member
    obtain ⟨e, -, found⟩ := List.mem_filterMap.1 member
    obtain ⟨previous, -, rfl⟩ := Option.map_eq_some_iff.1 found
    rfl
  have prompts : ∀ x ∈ (checked (d.prompt loader step.line) step.prompt).2,
      x.isStructural = false := by
    cases step.prompt with
    | none => exact List.forall_mem_nil _
    | some name =>
        simp only [checked, prompt]
        split
        · exact List.forall_mem_singleton.2 rfl
        · exact List.forall_mem_map.2 fun _ _ => rfl
  have examples : ∀ x ∈ (checked (exampleSet loader step.line) step.examples).2,
      x.isStructural = false := by
    cases step.examples with
    | none => exact List.forall_mem_nil _
    | some name =>
        simp only [checked, exampleSet]
        split
        · exact List.forall_mem_singleton.2 rfl
        · split
          · exact List.forall_mem_singleton.2 rfl
          · exact List.forall_mem_nil _
  rw [diagnostics_plan, List.forall_mem_append, List.forall_mem_append, List.forall_mem_append]
  exact ⟨none, ⟨clashes, prompts⟩, examples⟩

theorem Assembly.not_structural_foldl {pipeline : List Step}
    (placed : ∀ step ∈ pipeline, step.isPlaced = true)
    (yields : ∀ step ∈ pipeline.filterMap Step.inference?, ∃ y, Yield.ofStep schemas step = .ok y)
    (none : ∀ x ∈ d.diagnostics, x.isStructural = false) :
    ∀ x ∈ (pipeline.foldl (take schemas loader) d).diagnostics, x.isStructural = false := by
  induction pipeline generalizing d with
  | nil => exact none
  | cons step rest ih =>
      obtain ⟨here, later⟩ := List.forall_mem_cons.1 placed
      cases step with
      | source | output | rule => cases here
      | set overrides line => exact ih later yields none
      | inference step =>
          obtain ⟨⟨y, known⟩, others⟩ := List.forall_mem_cons.1 yields
          refine ih later others ?_
          rw [take, known]
          exact not_structural_plan step y none

/-- Rules that can be read are reported for what they compare only. -/
theorem not_structural_planRules {shape : Keyed Schema} {rules : List (String × Nat)}
    (readable : ∀ text ∈ rules.map (·.1), ∃ expr, Rule.read text = .ok expr) :
    ∀ x ∈ (planRules shape rules).2, x.isStructural = false := by
  induction rules with
  | nil => exact List.forall_mem_nil _
  | cons rule rest ih =>
      obtain ⟨text, line⟩ := rule
      obtain ⟨⟨expr, read⟩, later⟩ := List.forall_mem_cons.1 readable
      simp only [planRules, planRule, read]
      cases Rule.typed shape expr with
      | ok condition => exact ih later
      | error misfits =>
          exact List.forall_mem_append.2 ⟨List.forall_mem_map.2 fun _ _ => rfl, ih later⟩

end

/-- Nothing is wrong with the constructs of a program by themselves if they are in order. -/
theorem Plan.not_structural_of_compile {p : Program} {schemas : Keyed Schema} {loader : Loader}
    {ds : List Diagnostic} (structured : p.Structured)
    (expansion : Schema.IsExpansion p.definitions schemas)
    (h : Plan.compile p schemas loader = .error ds) : ∀ x ∈ ds, x.isStructural = false := by
  have yields : ∀ step ∈ p.inferenceSteps, ∃ y, Yield.ofStep schemas step = .ok y := by
    intro step member
    refine (Yield.exists_ofStep_iff expansion step).2 ⟨fun verb => ?_, fun verb free => ?_⟩
    · exact (structured.steps step member (Or.inl verb)).2
    · have extract := (structured.steps step member (Or.inr ⟨verb, free⟩)).1
      rw [verb] at extract
      cases extract
  have folded : ∀ x ∈ (p.pipeline.foldl (Assembly.take schemas loader)
      { overrides := p.settings }).diagnostics, x.isStructural = false := by
    rw [Program.foldl_eq_around structured.source structured.output]
    refine Assembly.not_structural_foldl (fun step member => (List.mem_filter.1 member).2) ?_
      (List.forall_mem_nil _)
    rwa [← Program.inferenceSteps_eq]
  have assembled : ∀ x ∈ (p.assemble schemas loader).diagnostics, x.isStructural = false := by
    rw [Program.assemble]
    split
    · exact folded
    · exact List.forall_mem_append.2 ⟨folded, List.forall_mem_singleton.2 rfl⟩
  have ruled : ∀ x ∈ (planRules (p.assemble schemas loader).shape
      (p.assemble schemas loader).rules).2, x.isStructural = false :=
    not_structural_planRules ((Program.rules_assemble p schemas loader).symm ▸ structured.rules)
  rw [Plan.compile_eq] at h
  dsimp only at h
  split at h
  · cases h
  · cases h
    exact List.forall_mem_append.2 ⟨assembled, ruled⟩

end RecordInference
