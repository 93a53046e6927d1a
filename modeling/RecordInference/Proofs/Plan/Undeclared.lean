import RecordInference.Proofs.Plan.Clash

/-!
# Fields that rules name

A rule is checked against the record, so a field of it is reported as undeclared exactly if no step
whose fields joined the record has it (`Program.mem_undeclared_iff`). A step with a clash has joined
none of its fields, but its clash is reported too: what is reported as undeclared is a field of no
other step (`Plan.undeclared_of_rule`). `Plan.exists_undeclared_declared` has a step of this kind.
-/

set_option autoImplicit false

namespace RecordInference

/-! ### Rules by themselves -/

namespace Rule

/-- The fields that a rule names, from left to right. -/
def Expr.fields : Expr → List String
  | compare field _ _ => [field]
  | join _ left right => left.fields ++ right.fields

theorem typedComparison_undeclared_iff {shape : Keyed Schema} {field literal path : String}
    {op : Comparison} : typedComparison shape field op literal = .error (.undeclared path) ↔
      path = field ∧ Schema.lookup? shape path = none := by
  rw [typedComparison]
  cases found : Schema.lookup? shape field with
  | none =>
      simp only [Except.error.injEq, Misfit.undeclared.injEq]
      constructor
      · rintro rfl
        exact ⟨rfl, found⟩
      · exact fun h => h.1.symm
  | some schema =>
      constructor
      · intro h
        dsimp only at h
        split at h
        · cases h
        · split at h <;> cases h
      · rintro ⟨rfl, missing⟩
        rw [found] at missing
        cases missing

/-- A rule is reported for an undeclared field exactly if it names one. -/
theorem exists_undeclared_iff {shape : Keyed Schema} {e : Expr} {path : String} :
    (∃ misfits, typed shape e = .error misfits ∧ .undeclared path ∈ misfits) ↔
      path ∈ e.fields ∧ Schema.lookup? shape path = none := by
  induction e with
  | compare field op literal =>
      rw [Expr.fields, List.mem_singleton, ← typedComparison_undeclared_iff, typed]
      cases typedComparison shape field op literal with
      | ok c => simp
      | error misfit => simp [eq_comm]
  | join op left right ihl ihr =>
      rw [Expr.fields, List.mem_append, or_and_right, ← ihl, ← ihr, typed]
      cases typed shape left with
      | ok l =>
          cases typed shape right with
          | ok r => simp
          | error r => simp
      | error l =>
          cases typed shape right with
          | ok r => simp
          | error r => simp

end Rule

/-- A rule that is planned by itself is reported for the fields that it names, at its line. -/
theorem exists_planRule_undeclared_iff {shape : Keyed Schema} {text path : String}
    {place line : Nat} :
    (∃ faults, planRule shape text place = .error faults ∧
      .misfit line (.undeclared path) ∈ faults) ↔
      place = line ∧ ∃ expr, Rule.read text = .ok expr ∧ path ∈ expr.fields ∧
        Schema.lookup? shape path = none := by
  rw [planRule]
  cases Rule.read text with
  | error fault => simp
  | ok expr =>
      simp only [Except.ok.injEq, exists_eq_left', ← Rule.exists_undeclared_iff]
      cases Rule.typed shape expr with
      | ok condition => simp
      | error misfits => simp [and_comm]

/-- Rules are reported for the fields that they name and that the shape does not have. -/
theorem mem_planRules_undeclared_iff {shape : Keyed Schema} {rules : List (String × Nat)}
    {line : Nat} {path : String} : .misfit line (.undeclared path) ∈ (planRules shape rules).2 ↔
      (∃ text expr, (text, line) ∈ rules ∧ Rule.read text = .ok expr ∧ path ∈ expr.fields) ∧
        Schema.lookup? shape path = none := by
  induction rules with
  | nil => simp [planRules]
  | cons rule rest ih =>
      obtain ⟨first, place⟩ := rule
      have here := @exists_planRule_undeclared_iff shape first path place line
      have split : .misfit line (.undeclared path) ∈ (planRules shape ((first, place) :: rest)).2 ↔
          (∃ faults, planRule shape first place = .error faults ∧
            .misfit line (.undeclared path) ∈ faults) ∨
          .misfit line (.undeclared path) ∈ (planRules shape rest).2 := by
        rw [planRules]
        cases planRule shape first place with
        | ok rule => simp
        | error faults => simp
      rw [split, here, ih]
      constructor
      · rintro (⟨rfl, expr, read, named, missing⟩ | ⟨⟨text, expr, member, read, named⟩, missing⟩)
        · exact ⟨⟨first, expr, List.mem_cons_self, read, named⟩, missing⟩
        · exact ⟨⟨text, expr, List.mem_cons_of_mem _ member, read, named⟩, missing⟩
      · rintro ⟨⟨text, expr, member, read, named⟩, missing⟩
        rcases List.mem_cons.1 member with same | later
        · cases same
          exact Or.inl ⟨rfl, expr, read, named, missing⟩
        · exact Or.inr ⟨⟨text, expr, later, read, named⟩, missing⟩

/-! ### Rules of a program -/

theorem Assembly.mem_rules_take_iff (schemas : Keyed Schema) (loader : Loader) (d : Assembly)
    {step : Step} {text : String} {line : Nat} :
    (text, line) ∈ (d.take schemas loader step).rules ↔
      (text, line) ∈ d.rules ∨ .rule text line = step := by
  cases step with
  | source locator place | output locator place =>
      rw [take]
      split <;> simp [report]
  | set overrides place => simp [take]
  | rule expression place => simp [take]
  | inference step =>
      -- a step leaves the rules as they are, whatever they are
      have kept := take_inference_around schemas loader d d.source d.output d.rules step
      have same := congrArg Assembly.rules kept
      have unchanged : (d.take schemas loader (.inference step)).rules = d.rules := same
      simp [unchanged]

/-- The rules that are checked at the end are those of the program. -/
theorem Program.mem_rules_assemble_iff (program : Program) (schemas : Keyed Schema)
    (loader : Loader) {text : String} {line : Nat} :
    (text, line) ∈ (program.assemble schemas loader).rules ↔
      .rule text line ∈ program.pipeline := by
  have folded : ∀ (pipeline : List Step) (d : Assembly),
      (text, line) ∈ (pipeline.foldl (Assembly.take schemas loader) d).rules ↔
        (text, line) ∈ d.rules ∨ .rule text line ∈ pipeline := by
    intro pipeline
    induction pipeline with
    | nil => simp
    | cons step rest ih =>
        intro d
        rw [List.foldl_cons, ih, Assembly.mem_rules_take_iff, List.mem_cons, or_assoc]
  have all := folded program.pipeline { overrides := program.settings }
  rw [or_iff_right List.not_mem_nil] at all
  rw [assemble]
  split
  · exact all
  · exact all

/-! ### Fields of steps -/

/-- Whether a path leads somewhere in the fields of a step. Of a repeated name the last field counts,
as in a record. -/
structure InferenceStep.Declares (program : Program) (schemas : Keyed Schema)
    (step : InferenceStep) (path : String) : Prop where
  suits : step.suits program = true
  leads : ∃ schema,
    Schema.lookup? (Keyed.ofList (step.produced program schemas)) path = some schema

/-- What the rules of a program are reported for. -/
def Program.ruleDiagnostics (program : Program) (schemas : Keyed Schema) (loader : Loader) :
    List Diagnostic :=
  (planRules (program.assemble schemas loader).shape (program.assemble schemas loader).rules).2

/-- Whether a rule of the program at this line names a field. -/
def Program.RuleNames (program : Program) (line : Nat) (path : String) : Prop :=
  ∃ text expr, .rule text line ∈ program.pipeline ∧ Rule.read text = .ok expr ∧ path ∈ expr.fields

/-- A path leads somewhere in the record exactly if it does so in the fields of a step that joined
it. -/
theorem Assembly.Joined.lookup?_iff {program : Program} {schemas : Keyed Schema} {d : Assembly}
    {steps : List InferenceStep} (h : d.Joined program schemas steps) {path : String}
    {schema : Schema} : Schema.lookup? d.shape path = some schema ↔ ∃ before step after,
      steps = before ++ step :: after ∧ step.Joins program schemas before ∧
        Schema.lookup? (Keyed.ofList (step.produced program schemas)) path = some schema := by
  simp only [Schema.lookup?]
  cases pathParts path with
  | nil => simp
  | cons name rest =>
      simp only [Option.bind_eq_some_iff, h.shape]
      constructor
      · rintro ⟨found, ⟨before, step, after, split, joins, here⟩, leads⟩
        exact ⟨before, step, after, split, joins, found, here, leads⟩
      · rintro ⟨before, step, after, split, joins, found, here, leads⟩
        exact ⟨found, ⟨before, step, after, split, joins, here⟩, leads⟩

section

variable {program : Program} {schemas : Keyed Schema}
  (expansion : Schema.IsExpansion program.definitions schemas) (loader : Loader)

include expansion

/-- A field that a rule names is reported exactly if no step with it has joined the record. -/
theorem Program.mem_undeclared_iff (line : Nat) (path : String) :
    .misfit line (.undeclared path) ∈ program.ruleDiagnostics schemas loader ↔
      program.RuleNames line path ∧ ∀ before step after,
        program.inferenceSteps = before ++ step :: after → step.Declares program schemas path →
          ¬ step.Joins program schemas before := by
  have joined := Program.joined expansion loader
  rw [ruleDiagnostics, mem_planRules_undeclared_iff]
  simp only [Program.mem_rules_assemble_iff, RuleNames]
  refine and_congr_right fun _ => ?_
  rw [Option.eq_none_iff_forall_ne_some]
  constructor
  · intro missing before step after split declares joins
    obtain ⟨schema, leads⟩ := declares.leads
    exact missing schema (joined.lookup?_iff.2 ⟨before, step, after, split, joins, leads⟩)
  · intro apart schema found
    obtain ⟨before, step, after, split, joins, leads⟩ := joined.lookup?_iff.1 found
    have suits := (InferenceStep.joins_iff.1 joins).1
    exact apart before step after split ⟨suits, schema, leads⟩ joins

end

section

variable {program : Program} {schemas : Keyed Schema} {loader : Loader} {ds : List Diagnostic}
  (resolved : Schema.resolve program.definitions = .ok schemas)
  (failed : Plan.compile program schemas loader = .error ds)

include resolved failed

/-- A step whose fields have not joined the record is reported for one of them. -/
theorem Plan.exists_duplicate_of_apart {before after : List InferenceStep} {step : InferenceStep}
    (split : program.inferenceSteps = before ++ step :: after)
    (suits : step.suits program = true) (apart : ¬ step.Joins program schemas before) :
    ∃ field number, .duplicateOutputField step.line field number ∈ ds ∧
      step.Produces program schemas field := by
  rw [InferenceStep.joins_iff, and_iff_right suits] at apart
  simp only [not_forall, Classical.not_not, exists_prop] at apart
  obtain ⟨field, declared, number, numbers⟩ := apart
  exact ⟨field, number, (mem_duplicate_iff resolved failed _ _ _).2
    ⟨before, step, after, split, rfl, ⟨suits, declared⟩, numbers⟩, suits, declared⟩

end

namespace Plan

/-- The diagnostics of rules stand at the end. A field that a rule names is reported as undeclared
exactly if no step with it has joined the record. So every step that has a field of this kind, and
whose target is known and one to classify by, is reported itself for a field that is produced
again. -/
theorem undeclared_of_rule {program : Program} {schemas : Keyed Schema} {loader : Loader}
    {ds : List Diagnostic} (resolved : Schema.resolve program.definitions = .ok schemas)
    (failed : compile program schemas loader = .error ds) :
    (∃ others, ds = others ++ program.ruleDiagnostics schemas loader) ∧
    ∀ line path, (.misfit line (.undeclared path) ∈ program.ruleDiagnostics schemas loader ↔
        program.RuleNames line path ∧ ∀ before step after,
          program.inferenceSteps = before ++ step :: after →
            step.Declares program schemas path → ¬ step.Joins program schemas before) ∧
      (.misfit line (.undeclared path) ∈ program.ruleDiagnostics schemas loader →
        ∀ step ∈ program.inferenceSteps, step.Declares program schemas path →
          ∃ field number, .duplicateOutputField step.line field number ∈ ds ∧
            step.Produces program schemas field) := by
  have expansion := Schema.isExpansion_of_resolve resolved
  constructor
  · rw [compile_eq] at failed
    dsimp only at failed
    split at failed
    · cases failed
    · cases failed
      exact ⟨_, rfl⟩
  · intro line path
    have reported := Program.mem_undeclared_iff expansion loader line path
    refine ⟨reported, fun member step listed declares => ?_⟩
    obtain ⟨before, after, split⟩ := List.append_of_mem listed
    have apart := (reported.1 member).2 before step after split declares
    exact exists_duplicate_of_apart resolved failed split declares.suits apart

/-- The only step has joined the record, and it has no such field in its object. -/
theorem undeclared_of_rule_age :
    let program : Program := ⟨[⟨"person", [⟨"name", .text, 2⟩], 1⟩,
        ⟨"claim", [⟨"holder", .object "person", 4⟩, ⟨"amount", .money, 5⟩], 3⟩], [],
      [.rule "amount OVER 10 AND holder.age OVER 3" 6,
        .inference ⟨.extract, "claim", none, none, none, 7⟩]⟩
    let person : Schema := .object "person" [("name", .text)]
    let schemas : Keyed Schema :=
      [("person", person), ("claim", .object "claim" [("holder", person), ("amount", .money)])]
    ∃ ds, Schema.resolve program.definitions = .ok schemas ∧
      compile program schemas (.ofTexts [] []) = .error ds ∧
      .misfit 6 (.undeclared "holder.age") ∈ program.ruleDiagnostics schemas (.ofTexts [] []) ∧
      ∀ step ∈ program.inferenceSteps, ¬ step.Declares program schemas "holder.age" := by
  intro program person schemas
  have resolved : Schema.resolve program.definitions = .ok schemas := by rfl
  have failed : compile program schemas (.ofTexts [] []) =
      .error [.misfit 6 (.undeclared "holder.age")] := by rfl
  have member : .misfit 6 (.undeclared "holder.age") ∈
      program.ruleDiagnostics schemas (.ofTexts [] []) := by decide +kernel
  refine ⟨_, resolved, failed, member, fun step listed declares => ?_⟩
  -- such a step would be reported for a field that is produced again
  obtain ⟨field, number, reported, -⟩ :=
    ((undeclared_of_rule resolved failed).2 6 "holder.age").2 member step listed declares
  cases List.mem_singleton.1 reported

/-- The first field of the definition is produced by the step above, so its second one is reported
as undeclared. -/
theorem exists_undeclared_declared :
    let program : Program := ⟨[⟨"e", [⟨"a", .text, 2⟩, ⟨"b", .text, 3⟩], 1⟩], [],
      [.inference ⟨.draft, "a", none, none, none, 4⟩,
        .inference ⟨.extract, "e", none, none, none, 5⟩, .rule "b IS x" 6]⟩
    let schemas : Keyed Schema := [("e", .object "e" [("a", .text), ("b", .text)])]
    Schema.resolve program.definitions = .ok schemas ∧
      compile program schemas (.ofTexts [] []) =
        .error [.duplicateOutputField 5 "a" 0, .misfit 6 (.undeclared "b")] ∧
      .misfit 6 (.undeclared "b") ∈ program.ruleDiagnostics schemas (.ofTexts [] []) ∧
      ∃ step ∈ program.inferenceSteps, step.Declares program schemas "b" := by
  intro program schemas
  refine ⟨by rfl, by rfl, by decide +kernel, _, List.mem_cons_of_mem _ List.mem_cons_self, ?_⟩
  exact ⟨by decide, .text, by rfl⟩

end Plan

end RecordInference
