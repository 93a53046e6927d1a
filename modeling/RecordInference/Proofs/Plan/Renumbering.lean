import RecordInference.Plan.Compilation
import RecordInference.Proofs.Declaration.Renumbering

/-!
# Plans do not depend on line numbers

Lines end up in diagnostics only. A program on other lines has the same schemas
(`resolve_renumber`), and the same plan or the same diagnostics on these lines (`plan_renumber`).
-/

set_option autoImplicit false

namespace RecordInference

/-! ### Diagnostics on other lines -/

section

variable (f : Nat → Nat)

/-- The diagnostic on another line. -/
def Diagnostic.renumber : Diagnostic → Diagnostic
  | unknownDefinition line verb name => unknownDefinition (f line) verb name
  | notClassifiable line name found => notClassifiable (f line) name found
  | duplicateOutputField line field previous => duplicateOutputField (f line) field previous
  | misfit line m => misfit (f line) m
  | ruleSyntax line fault => ruleSyntax (f line) fault
  | missingResource line handle => missingResource (f line) handle
  | malformedResource line handle fault => malformedResource (f line) handle fault
  | duplicateStep line construct => duplicateStep (f line) construct
  | noInferenceStep => noInferenceStep

/-- The error on other lines. Errors about schemas name definitions and fields, and no lines. -/
def DeclarationError.renumber : DeclarationError → DeclarationError
  | declaration fault => declaration (fault.renumber f)
  | schema error => schema error
  | compile diagnostics => compile (diagnostics.map (Diagnostic.renumber f))

/-- The plan under construction on other lines. -/
def Assembly.renumber (d : Assembly) : Assembly :=
  { d with
    rules := d.rules.map fun rule => (rule.1, f rule.2)
    diagnostics := d.diagnostics.map (Diagnostic.renumber f) }

end

variable {f : Nat → Nat}

/-! ### Schemas -/

namespace Schema

theorem visitFields_renumber
    (visit : String → Keyed Schema → Except SchemaError (Schema × Keyed Schema))
    (fields : List Field) (done : Keyed Schema) :
    visitFields visit (fields.map (Field.renumber f)) done = visitFields visit fields done := by
  induction fields generalizing done with
  | nil => rfl
  | cons x rest ih => simp only [List.map_cons, visitFields, ih, Field.renumber]

theorem visit_renumber (definitions : List Definition) (room : Nat) (stack : List String)
    (name : String) (done : Keyed Schema) :
    visit (definitions.map (Definition.renumber f)) room stack name done =
      visit definitions room stack name done := by
  induction room generalizing stack name done with
  | zero => rfl
  | succ room ih =>
      have visits : visit (definitions.map (Definition.renumber f)) room (stack ++ [name]) =
          visit definitions room (stack ++ [name]) := by
        funext name' done'
        exact ih _ _ _
      have found : (definitions.map (Definition.renumber f)).find? (fun d => d.name = name) =
          (definitions.find? fun d => d.name = name).map (Definition.renumber f) := by
        rw [List.find?_map]
        rfl
      simp only [visit, visits, found]
      cases definitions.find? fun d => d.name = name with
      | none => rfl
      | some d => simp only [Option.map_some, Option.getD_some, Definition.renumber,
          visitFields_renumber]

theorem visitAll_renumber (definitions : List Definition) (names : List String)
    (done : Keyed Schema) :
    visitAll (definitions.map (Definition.renumber f)) names done =
      visitAll definitions names done := by
  induction names generalizing done with
  | nil => rfl
  | cons name rest ih => simp only [visitAll, visit_renumber, ih, List.length_map]

/-- Definitions on other lines have the same schemas. -/
theorem resolve_renumber (definitions : List Definition) :
    resolve (definitions.map (Definition.renumber f)) = resolve definitions := by
  have names : (definitions.map (Definition.renumber f)).map (·.name) =
      definitions.map (·.name) := by simp [Definition.renumber]
  have unresolved : ∀ names, firstUnresolved? names (definitions.map (Definition.renumber f)) =
      firstUnresolved? names definitions := by
    intro names
    simp [firstUnresolved?, List.findSome?_map, Definition.renumber, Field.renumber,
      Function.comp_def]
  simp only [resolve, names, unresolved, visitAll_renumber]

end Schema

/-! ### Plans -/

theorem Yield.ofClassification_renumber (line : Nat) (target : String)
    (fields : List (String × Schema)) :
    Yield.ofClassification (f line) target fields =
      (Yield.ofClassification line target fields).bimap (List.map (Diagnostic.renumber f)) id := by
  unfold Yield.ofClassification
  split
  · rfl
  · rfl
  · rfl
  · rfl

theorem Yield.ofStep_renumber (schemas : Keyed Schema) (step : InferenceStep) :
    Yield.ofStep schemas (step.renumber f) =
      (Yield.ofStep schemas step).bimap (List.map (Diagnostic.renumber f)) id := by
  simp only [Yield.ofStep, InferenceStep.renumber]
  split
  · rfl
  · rfl
  · simp only [Yield.ofDefinition]
    split
    · rfl
    · split
      · rfl
      · exact Yield.ofClassification_renumber step.line step.target _
    · rfl

namespace Assembly

theorem report_renumber (d : Assembly) (ds : List Diagnostic) :
    (d.renumber f).report (ds.map (Diagnostic.renumber f)) = (d.report ds).renumber f := by
  simp [report, renumber]

theorem clashes_renumber (d : Assembly) (line : Nat) (produced : List (String × Schema)) :
    (d.renumber f).clashes (f line) produced =
      (d.clashes line produced).map (Diagnostic.renumber f) := by
  rw [clashes, clashes, List.map_filterMap]
  congr 1
  funext e
  rw [Option.map_map]
  rfl

/-- What a check of an optional resource yields, with its diagnostics on other lines. -/
theorem checked_renumber {check check' : String → Option Handle × List Diagnostic}
    (checks : ∀ name, check' name = ((check name).1, (check name).2.map (Diagnostic.renumber f)))
    (name : Option String) :
    checked check' name = ((checked check name).1,
      (checked check name).2.map (Diagnostic.renumber f)) := by
  cases name with
  | none => rfl
  | some name => exact checks name

theorem prompt_renumber (d : Assembly) (loader : Loader) (line : Nat) (name : String) :
    (d.renumber f).prompt loader (f line) name = ((d.prompt loader line name).1,
      (d.prompt loader line name).2.map (Diagnostic.renumber f)) := by
  simp only [prompt]
  split
  · rfl
  · rw [List.map_map]
    rfl

theorem exampleSet_renumber (loader : Loader) (line : Nat) (name : String) :
    exampleSet loader (f line) name = ((exampleSet loader line name).1,
      (exampleSet loader line name).2.map (Diagnostic.renumber f)) := by
  simp only [exampleSet]
  split
  · rfl
  · split
    · rfl
    · rfl

theorem plan_renumber (d : Assembly) (loader : Loader) (step : InferenceStep) (y : Yield) :
    (d.renumber f).plan loader (step.renumber f) y = (d.plan loader step y).renumber f := by
  have clashes := clashes_renumber (f := f) d step.line y.produced
  have prompts := checked_renumber (prompt_renumber (f := f) d loader step.line) step.prompt
  have examples := checked_renumber (exampleSet_renumber (f := f) loader step.line) step.examples
  have none : ((d.clashes step.line y.produced).map (Diagnostic.renumber f)).isEmpty =
      (d.clashes step.line y.produced).isEmpty := List.isEmpty_map
  simp only [plan, InferenceStep.renumber, clashes, prompts, examples, none, ← List.map_append]
  rw [← report_renumber]
  congr 1
  -- the fields are written, or not, whatever the lines
  split
  · rfl
  · rfl

theorem take_renumber (schemas : Keyed Schema) (loader : Loader) (d : Assembly) (step : Step) :
    take schemas loader (d.renumber f) (step.renumber f) =
      (take schemas loader d step).renumber f := by
  cases step with
  | source locator line =>
      simp only [take, Step.renumber]
      rw [show (d.renumber f).source = d.source from rfl]
      split
      · exact report_renumber d [.duplicateStep line .source]
      · rfl
  | output locator line =>
      simp only [take, Step.renumber]
      rw [show (d.renumber f).output = d.output from rfl]
      split
      · exact report_renumber d [.duplicateStep line .output]
      · rfl
  | set overrides line => rfl
  | rule expression line => simp [take, Step.renumber, renumber]
  | inference step =>
      simp only [take, Step.renumber, Yield.ofStep_renumber]
      cases Yield.ofStep schemas step with
      | error ds => exact report_renumber d ds
      | ok y => exact plan_renumber d loader step y

theorem foldl_take_renumber (schemas : Keyed Schema) (loader : Loader) (pipeline : List Step)
    (d : Assembly) : (pipeline.map (Step.renumber f)).foldl (take schemas loader) (d.renumber f) =
      (pipeline.foldl (take schemas loader) d).renumber f := by
  induction pipeline generalizing d with
  | nil => rfl
  | cons step rest ih => rw [List.map_cons, List.foldl_cons, take_renumber, ih, List.foldl_cons]

end Assembly

theorem planRule_renumber (shape : Keyed Schema) (text : String) (line : Nat) :
    planRule shape text (f line) =
      (planRule shape text line).bimap (List.map (Diagnostic.renumber f)) id := by
  simp only [planRule]
  split
  · rfl
  · split
    · rw [Except.bimap_error, List.map_map]
      rfl
    · rfl

theorem planRules_renumber (shape : Keyed Schema) (rules : List (String × Nat)) :
    planRules shape (rules.map fun rule => (rule.1, f rule.2)) =
      ((planRules shape rules).1, (planRules shape rules).2.map (Diagnostic.renumber f)) := by
  induction rules with
  | nil => rfl
  | cons rule rest ih =>
      obtain ⟨text, line⟩ := rule
      simp only [List.map_cons, planRules, planRule_renumber, ih]
      cases planRule shape text line with
      | ok rule => rfl
      | error faults => simp

theorem any_isInference_renumber (pipeline : List Step) :
    (pipeline.map (Step.renumber f)).any Step.isInference = pipeline.any Step.isInference := by
  have each : Step.isInference ∘ Step.renumber f = Step.isInference := by
    funext step
    cases step with
    | source | inference | rule | output | set => rfl
  rw [List.any_map, each]

/-- What a plan makes of the constructs taken up, on other lines. -/
theorem Plan.compile_renumber (program : Program) (schemas : Keyed Schema) (loader : Loader) :
    Plan.compile (program.renumber f) schemas loader =
      (Plan.compile program schemas loader).bimap (List.map (Diagnostic.renumber f)) id := by
  have taken : (program.pipeline.map (Step.renumber f)).foldl (Assembly.take schemas loader)
      { overrides := program.settings } =
        (program.pipeline.foldl (Assembly.take schemas loader)
          { overrides := program.settings }).renumber f :=
    Assembly.foldl_take_renumber schemas loader program.pipeline { overrides := program.settings }
  simp only [Plan.compile, Program.renumber, any_isInference_renumber, taken]
  -- from here on only what was taken up counts
  generalize program.pipeline.foldl (Assembly.take schemas loader)
    { overrides := program.settings } = d
  have reported : (if program.pipeline.any Step.isInference then d.renumber f
      else (d.renumber f).report [.noInferenceStep]) =
        (if program.pipeline.any Step.isInference then d
          else d.report [.noInferenceStep]).renumber f := by
    split
    · rfl
    · exact Assembly.report_renumber d [.noInferenceStep]
  rw [reported]
  generalize (if program.pipeline.any Step.isInference then d
    else d.report [.noInferenceStep]) = d
  simp only [Assembly.renumber, planRules_renumber, ← List.map_append, List.isEmpty_map]
  split
  · rfl
  · rfl

/-- A program on other lines has the same plan, or the same diagnostics on these lines. -/
theorem Program.plan_renumber (program : Program) (loader : Loader) :
    (program.renumber f).plan loader =
      (program.plan loader).bimap (DeclarationError.renumber f) id := by
  rw [Program.plan, Program.plan, Program.renumber, Schema.resolve_renumber]
  cases Schema.resolve program.definitions with
  | error e => rfl
  | ok schemas =>
      have compiled := Plan.compile_renumber (f := f) program schemas loader
      simp only [Program.renumber] at compiled
      simp only [Except.mapError, bind, Except.bind, compiled]
      cases Plan.compile program schemas loader with
      | error ds => rfl
      | ok plan => rfl

end RecordInference
