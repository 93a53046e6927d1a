import RecordInference.Proofs.Declaration.Scope
import RecordInference.Proofs.Plan.Parameters

/-!
# The settings of planned steps

A step of a plan has for each of its parameters the value of the last setting above it, or else what
its verb has by default; it has every header that is set above it, in the order in which their names
first stand there, each with the value of the last setting of it (`Parameters.Follows`). What is
above a step are the lines of the declaration above its line, and nothing else counts
(`Plan.follows_of_ofDeclaration`).
-/

set_option autoImplicit false

namespace RecordInference

/-! ### The last setting of a parameter -/

namespace Override

/-- The model that a setting gives. -/
def model? : Override → Option String
  | model name => some name
  | _ => none

/-- The temperature that a setting gives. -/
def temperature? : Override → Option Float
  | temperature t => some t
  | _ => none

/-- The `top_p` that a setting gives. -/
def topP? : Override → Option Float
  | topP p => some p
  | _ => none

/-- The seed that a setting gives. -/
def seed? : Override → Option Nat
  | seed n => some n
  | _ => none

/-- The number of tokens that a setting gives. -/
def maxTokens? : Override → Option Nat
  | maxTokens n => some n
  | _ => none

/-- The header that a setting gives. -/
def header? : Override → Option (String × String)
  | header name value => some (name, value)
  | _ => none

/-- The value that a setting gives to the header `name`. -/
def valueOf? (name : String) (o : Override) : Option String :=
  o.header?.bind fun h => if h.1 = name then some h.2 else none

/-- The last value among those that settings give. -/
def last? {α : Type} (value? : Override → Option α) (settings : List Override) : Option α :=
  (settings.filterMap value?).getLast?

theorem last?_concat {α : Type} (value? : Override → Option α) (settings : List Override)
    (o : Override) : last? value? (settings ++ [o]) = (value? o).or (last? value? settings) := by
  rw [last?, List.filterMap_append, List.getLast?_append, last?]
  congr 1
  rw [List.filterMap_cons]
  cases value? o with
  | none => rfl
  | some a => rfl

end Override

theorem eraseDups_concat (names : List String) (name : String) :
    (names ++ [name]).eraseDups =
      if name ∈ names then names.eraseDups else names.eraseDups ++ [name] := by
  rw [List.eraseDups_append]
  split
  · next old => simp [List.removeAll, old]
  · next new => simp [List.removeAll, new, List.eraseDups_cons]

namespace Parameters

/-- The parameters of a verb under settings: of every parameter the last setting counts, and the
headers are in the order in which their names are set first. -/
structure Follows (p : Parameters) (verb : Verb) (settings : List Override) : Prop where
  model : p.model = (Override.last? Override.model? settings).or (default verb).model
  temperature : p.temperature =
    (Override.last? Override.temperature? settings).getD (default verb).temperature
  topP : p.topP = (Override.last? Override.topP? settings).or (default verb).topP
  seed : p.seed = (Override.last? Override.seed? settings).or (default verb).seed
  maxTokens : p.maxTokens =
    (Override.last? Override.maxTokens? settings).or (default verb).maxTokens
  names : Keyed.keys p.headers = ((settings.filterMap Override.header?).map (·.1)).eraseDups
  headers : ∀ name, Keyed.get? name p.headers = Override.last? (Override.valueOf? name) settings

theorem follows_default (verb : Verb) : (default verb).Follows verb [] := by
  cases verb with
  | extract | classify | draft => exact ⟨rfl, rfl, rfl, rfl, rfl, rfl, fun _ => rfl⟩

/-- One more setting counts for its parameter, and changes no other one. -/
theorem Follows.override {p : Parameters} {verb : Verb} {settings : List Override}
    (h : p.Follows verb settings) (o : Override) :
    (p.override o).Follows verb (settings ++ [o]) := by
  refine ⟨?_, ?_, ?_, ?_, ?_, ?_, ?_⟩
  · rw [Override.last?_concat]
    cases o with
    | model name => rfl
    | temperature | topP | seed | maxTokens | header => exact h.model
  · rw [Override.last?_concat]
    cases o with
    | temperature t => rfl
    | model | topP | seed | maxTokens | header => exact h.temperature
  · rw [Override.last?_concat]
    cases o with
    | topP x => rfl
    | model | temperature | seed | maxTokens | header => exact h.topP
  · rw [Override.last?_concat]
    cases o with
    | seed n => rfl
    | model | temperature | topP | maxTokens | header => exact h.seed
  · rw [Override.last?_concat]
    cases o with
    | maxTokens n => rfl
    | model | temperature | topP | seed | header => exact h.maxTokens
  · rw [List.filterMap_append, List.map_append]
    cases o with
    | header name value =>
        -- a name that is there keeps its place, and a new one comes last
        have listed : name ∈ Keyed.keys p.headers ↔
            name ∈ (settings.filterMap Override.header?).map (·.1) := by
          rw [h.names, List.mem_eraseDups]
        show Keyed.keys (Keyed.insert name value p.headers) = (_ ++ [name]).eraseDups
        rw [eraseDups_concat, ← h.names]
        split
        · next old => exact Keyed.keys_insert_of_mem (listed.2 old) value
        · next new =>
          rw [Keyed.insert_eq_append (fun old => new (listed.1 old)), Keyed.keys_append]
          rfl
    | model | temperature | topP | seed | maxTokens =>
        exact h.names.trans (congrArg List.eraseDups (List.append_nil _).symm)
  · intro name
    rw [Override.last?_concat]
    cases o with
    | header name' value =>
        show Keyed.get? name (Keyed.insert name' value p.headers) =
          (if name' = name then some value else none).or _
        split
        · next same =>
          rw [same, Keyed.get?_insert_self]
          rfl
        · next other =>
          rw [Keyed.get?_insert_of_ne (Ne.symm other), h.headers name]
          rfl
    | model | temperature | topP | seed | maxTokens => exact h.headers name

theorem follows_merge (verb : Verb) (settings : List Override) :
    (merge verb settings).Follows verb settings := by
  induction settings using List.reverseRecOn with
  | nil => exact follows_default verb
  | append_singleton settings o ih =>
      rw [merge, List.foldl_append]
      exact ih.override o

end Parameters

/-! ### Planned steps -/

namespace Assembly

variable {loader : Loader} {schemas : Keyed Schema} {d : Assembly}

/-- What a construct adds that causes no diagnostic: its settings to those in force, and a step with
the parameters of its verb under the settings so far. -/
theorem scopes_take {definitions : List Definition}
    (expansion : Schema.IsExpansion definitions schemas) {step : Step}
    (clean : (d.take schemas loader step).diagnostics = []) :
    (d.take schemas loader step).overrides = d.overrides ++ step.overrides ∧
    (d.take schemas loader step).steps.map (fun p => (p.verb, p.parameters)) =
      d.steps.map (fun p => (p.verb, p.parameters)) ++ (scopesFrom d.overrides [step]).map
        fun scope => (scope.1.verb, Parameters.merge scope.1.verb scope.2) := by
  cases step with
  | source locator line | output locator line =>
      rw [take]
      split
      · exact ⟨(List.append_nil _).symm, (List.append_nil _).symm⟩
      · exact ⟨(List.append_nil _).symm, (List.append_nil _).symm⟩
  | rule expression line => exact ⟨(List.append_nil _).symm, (List.append_nil _).symm⟩
  | set overrides line => exact ⟨rfl, (List.append_nil _).symm⟩
  | inference step =>
      rw [take] at clean ⊢
      cases yields : Yield.ofStep schemas step with
      | error ds =>
          simp only [yields, report, List.append_eq_nil_iff] at clean
          exact absurd (clean.2 ▸ yields) (Yield.ofStep_ne_error_nil expansion step)
      | ok y =>
          obtain ⟨planned, steps, verb, parameters⟩ := exists_steps_plan d loader step y
          refine ⟨(overrides_plan d loader step y).trans (List.append_nil _).symm, ?_⟩
          simp only [steps, List.map_append, List.map_singleton, verb, parameters]
          rfl

theorem scopes_foldl {definitions : List Definition}
    (expansion : Schema.IsExpansion definitions schemas) {pipeline : List Step} {d : Assembly}
    (clean : (pipeline.foldl (take schemas loader) d).diagnostics = []) :
    (pipeline.foldl (take schemas loader) d).steps.map (fun p => (p.verb, p.parameters)) =
      d.steps.map (fun p => (p.verb, p.parameters)) ++ (scopesFrom d.overrides pipeline).map
        fun scope => (scope.1.verb, Parameters.merge scope.1.verb scope.2) := by
  induction pipeline generalizing d with
  | nil => exact (List.append_nil _).symm
  | cons step rest ih =>
      obtain ⟨overrides, steps⟩ := scopes_take expansion (clean_of_foldl rest clean)
      have split := scopesFrom_append d.overrides [step] rest
      rw [List.singleton_append, List.flatMap_singleton, ← overrides] at split
      rw [List.foldl_cons, ih clean, steps, split, List.map_append, List.append_assoc]

end Assembly

namespace Plan

/-- The steps of a plan are those of the program, under the settings above them there. -/
theorem scopes_of_compile {program : Program} {schemas : Keyed Schema} {loader : Loader}
    {plan : Plan}
    (resolved : Schema.resolve program.definitions = .ok schemas)
    (h : compile program schemas loader = .ok plan) :
    plan.steps.map (fun p => (p.verb, p.parameters)) = program.scopes.map fun scope =>
      (scope.1.verb, Parameters.merge scope.1.verb scope.2) := by
  obtain ⟨clean, -, rfl⟩ := of_compile h
  have expansion := Schema.isExpansion_of_resolve resolved
  simp only [Program.assemble] at clean ⊢
  split
  · next some =>
    rw [if_pos some] at clean
    exact Assembly.scopes_foldl expansion clean
  · next none =>
    rw [if_neg none] at clean
    simp [Assembly.report] at clean

/-- Settings hold by their place in the text. Every `SET` line of a declaration with a plan gives a
setting, and the steps of the plan are the steps of the text, each with the parameters of its verb
under the settings of the lines above its own line. Lines below the step are not looked at, and
neither is what else stands between the lines above: definitions with their fields, comments, rules
and modifiers. -/
theorem follows_of_ofDeclaration {text : String} {loader : Loader} {plan : Plan}
    (h : ofDeclaration text loader = .ok plan) :
    let raws := Text.lines text.toList
    (∀ opener ∈ Declaration.openersOf raws, opener.keyword = .set →
      opener.override?.isSome = true) ∧
    List.Forall₂ (fun step site => step.verb = site.verb ∧
        step.parameters.Follows site.verb (Declaration.settings (raws.take (site.line - 1))))
      plan.steps (Declaration.sites raws) := by
  intro raws
  obtain ⟨program, read, h⟩ := Except.bind_eq_ok_iff.1 h
  obtain ⟨schemas, resolved, h⟩ := Except.bind_eq_ok_iff.1 h
  rw [Except.mapError_eq_ok_iff] at read resolved h
  obtain ⟨given, scopes⟩ := Declaration.scopes_of_read read
  refine ⟨given, ?_⟩
  have planned := scopes_of_compile resolved h
  rw [scopes, List.map_map, ← List.forall₂_eq_eq_eq, List.forall₂_map_left_iff,
    List.forall₂_map_right_iff] at planned
  refine planned.imp ?_
  intro step site same
  obtain ⟨verb, parameters⟩ := Prod.mk.inj same
  refine ⟨verb, ?_⟩
  rw [parameters]
  exact Parameters.follows_merge site.verb _

/-- Settings in front of the pipeline, around a definition and in two runs, for two steps. -/
theorem follows_of_ofDeclaration_runs :
    let text := "SET HEADER a 1\nSET SEED 7\nDEFINE claim\n  kind TEXT\nSET MODEL base\nFROM in\n" ++
      "SET HEADER b 2\n-- again\nSET HEADER a 3\nEXTRACT claim\nSET SEED 9\n" ++
      "FLAG WHEN kind IS x\nSET MAX_TOKENS 5\nDRAFT reply\nSET MODEL late"
    let raws := Text.lines text.toList
    ∃ plan, ofDeclaration text (.ofTexts [] []) = .ok plan ∧
      Declaration.sites raws = [⟨10, .extract⟩, ⟨14, .draft⟩] ∧
      (Declaration.settings (raws.take 9)).filterMap Override.header? =
        [("a", "1"), ("b", "2"), ("a", "3")] ∧
      Override.last? Override.seed? (Declaration.settings (raws.take 13)) = some 9 ∧
      (∀ opener ∈ Declaration.openersOf raws, opener.keyword = .set →
        opener.override?.isSome = true) ∧
      List.Forall₂ (fun step site => step.verb = site.verb ∧
          step.parameters.Follows site.verb (Declaration.settings (raws.take (site.line - 1))))
        plan.steps (Declaration.sites raws) := by
  intro text raws
  obtain ⟨ok, sites, headers, seed⟩ : (ofDeclaration text (.ofTexts [] [])).isOk = true ∧
      Declaration.sites raws = [⟨10, .extract⟩, ⟨14, .draft⟩] ∧
      (Declaration.settings (raws.take 9)).filterMap Override.header? =
        [("a", "1"), ("b", "2"), ("a", "3")] ∧
      Override.last? Override.seed? (Declaration.settings (raws.take 13)) = some 9 := by
    decide +kernel
  obtain ⟨plan, planned⟩ := Except.exists_of_isOk ok
  exact ⟨plan, planned, sites, headers, seed, follows_of_ofDeclaration planned⟩

end Plan

end RecordInference
