import RecordInference.Proofs.Declaration.Completeness
import RecordInference.Proofs.Declaration.Range

/-!
# What stands above a step

A line that says something is either a field of the definition above it, or its first word opens a
construct (`Statement.opener?`). So the lines of a text give, one after the other, the settings of
its `SET` lines (`settings`) and the places of its steps (`sites`), whatever stands between them.

A program groups the same settings: those in front of the pipeline hold for all steps, and the
others are constructs of the pipeline, one for each run of them. The settings that a program has
above one of its steps (`scopes`) are still those of the lines above the step (`scopes_of_read`).
-/

set_option autoImplicit false

namespace RecordInference

/-- Where a step stands, and what it does. -/
structure Site where
  line : Nat
  verb : Verb
deriving DecidableEq, Repr

/-- The place of a step. -/
def InferenceStep.site (step : InferenceStep) : Site := ⟨step.line, step.verb⟩

/-- The places of the steps of a pipeline, each with the settings above it: those in `above`, and
those of the constructs in front of the step. -/
def scopesFrom (above : List Override) : List Step → List (Site × List Override)
  | [] => []
  | .inference step :: rest => (step.site, above) :: scopesFrom above rest
  | step :: rest => scopesFrom (above ++ step.overrides) rest

/-- The places of the steps of a program, each with the settings above it. -/
def Program.scopes (p : Program) : List (Site × List Override) := scopesFrom p.settings p.pipeline

theorem scopesFrom_append (above : List Override) (steps steps' : List Step) :
    scopesFrom above (steps ++ steps') =
      scopesFrom above steps ++ scopesFrom (above ++ steps.flatMap Step.overrides) steps' := by
  induction steps generalizing above with
  | nil => rw [List.nil_append, List.flatMap_nil, List.append_nil]; rfl
  | cons step rest ih =>
      cases step with
      | inference step => exact congrArg (_ :: ·) (ih above)
      | source | rule | output | set =>
          rw [List.flatMap_cons, ← List.append_assoc]
          exact ih _

namespace Declaration

open Text

/-! ### The constructs of a text -/

/-- A line that opens a construct: its keyword, and the text behind the keyword. -/
structure Opener where
  line : Nat
  keyword : Keyword
  rest : List Char

/-- The setting that a construct gives. -/
def Opener.override? (o : Opener) : Option Override :=
  if o.keyword = .set then (readOverride o.rest).toOption else none

/-- The place of a construct that is a step. -/
def Opener.site? (o : Opener) : Option Site :=
  match o.keyword with
  | .step verb => some ⟨o.line, verb⟩
  | _ => none

namespace Statement

/-- Whether a line is a field of the open definition, whose header stands at `header`: whether it
stands further to the right. -/
def isField (header : Option Nat) (st : Statement) : Bool := header.any fun i => i < st.indent

/-- The construct that a line opens. -/
def opener? (header : Option Nat) (st : Statement) : Option Opener :=
  if st.isField header then none
  else (keyword? (firstWord st.text).1).map fun word => ⟨st.line, word, (firstWord st.text).2⟩

/-- Where the header of the definition stands that is open behind a line. -/
def headerAfter (header : Option Nat) (st : Statement) : Option Nat :=
  if st.isField header then header
  else if keyword? (firstWord st.text).1 = some .define then some st.indent
  else none

end Statement

/-- The constructs that lines open, in their order. -/
def openers (header : Option Nat) : List Statement → List Opener
  | [] => []
  | st :: rest => (st.opener? header).toList ++ openers (st.headerAfter header) rest

/-- The constructs that the lines of a text open. -/
def openersOf (raws : List (List Char)) : List Opener := openers none (statements 1 raws)

/-- The settings of the lines of a text, in their order. -/
def settings (raws : List (List Char)) : List Override :=
  (openersOf raws).filterMap Opener.override?

/-- The places of the steps of a text, in their order. -/
def sites (raws : List (List Char)) : List Site := (openersOf raws).filterMap Opener.site?

/-- The definition that is open behind lines. -/
def headerBehind (header : Option Nat) (sts : List Statement) : Option Nat :=
  sts.foldl Statement.headerAfter header

theorem openers_append (header : Option Nat) (sts sts' : List Statement) :
    openers header (sts ++ sts') = openers header sts ++ openers (headerBehind header sts) sts' := by
  induction sts generalizing header with
  | nil => rfl
  | cons st rest ih => rw [List.cons_append, openers, ih, openers, List.append_assoc]; rfl

/-! ### What a construct adds -/

theorem site_of_modify {tokens : List (List Char)} {step step' : InferenceStep}
    (modified : modify tokens step = .ok step') : step'.site = step.site := by
  fun_induction modify tokens step with
  | case1 =>
      cases modified
      rfl
  | case2 | case3 | case4 | case5 | case7 => cases modified
  | case6 token name rest step kind word named free ih =>
      -- a resource moves no step
      have kept : (withResource kind (String.ofList name) step).site = step.site := by
        cases kind with
        | prompt | examples => rfl
      exact (ih modified).trans kept

theorem site_of_readStep {line : Nat} {verb : Verb} {rest : List Char} {step : InferenceStep}
    (read : readStep line verb rest = .ok step) : step.site = ⟨line, verb⟩ := by
  simp only [readStep] at read
  split at read
  · cases read
  · split at read
    · cases read
    · split at read
      · split at read
        · split at read
          · cases read
          · obtain ⟨categories, -, modified⟩ := Except.bind_eq_ok_iff.1 read
            exact site_of_modify modified
        · exact site_of_modify read
      · cases read
        rfl

/-- A setting that joins a run at the end of the pipeline stands above no step of it. -/
theorem scopesFrom_of_joinRun {o : Override} {steps steps' : List Step}
    (joined : joinRun o steps = some steps') (above : List Override) :
    scopesFrom above steps' = scopesFrom above steps := by
  obtain ⟨front, overrides, first, rfl, rfl⟩ := eq_of_joinRun joined
  rw [scopesFrom_append, scopesFrom_append]
  rfl

/-- A step that keeps its place has the same settings above it, and so have those behind it. -/
theorem scopesFrom_of_amendLast {f : InferenceStep → Except Cause InferenceStep}
    (keeps : ∀ {step step'}, f step = .ok step' → step'.site = step.site)
    {steps steps' : List Step} (amended : amendLast f steps = .ok (some steps'))
    (above : List Override) : scopesFrom above steps' = scopesFrom above steps := by
  obtain ⟨front, step, step', back, rfl, changed, rfl⟩ := eq_of_amendLast amended
  rw [scopesFrom_append, scopesFrom_append, scopesFrom, scopesFrom, keeps changed]

/-- What a line adds to a program: the setting that it gives comes last, and the step that it
opens has all settings so far above it. -/
structure Adds (s s' : State) (o : Option Opener) : Prop where
  overrides : s'.program.overrides = s.program.overrides ++ (o.bind Opener.override?).toList
  scopes : s'.program.scopes = s.program.scopes ++
    (o.bind Opener.site?).toList.map fun site => (site, s.program.overrides)
  /-- A `SET` line gives a setting. -/
  given : ∀ opener ∈ o, opener.keyword = .set → opener.override?.isSome = true

namespace Adds

variable {s s' : State}

/-- A line that is neither a setting nor a step adds nothing. -/
theorem nothing {o : Option Opener} (overrides : s'.program.overrides = s.program.overrides)
    (scopes : s'.program.scopes = s.program.scopes)
    (other : ∀ opener ∈ o, opener.keyword ≠ .set ∧ opener.site? = none) : Adds s s' o := by
  have silent : o.bind Opener.override? = none ∧ o.bind Opener.site? = none := by
    cases o with
    | none => exact ⟨rfl, rfl⟩
    | some opener =>
        obtain ⟨unset, unplaced⟩ := other opener rfl
        exact ⟨if_neg unset, unplaced⟩
  refine ⟨?_, ?_, fun opener member set => absurd set (other opener member).1⟩
  · rw [silent.1, overrides]
    exact (List.append_nil _).symm
  · rw [silent.2, scopes]
    exact (List.append_nil _).symm

end Adds

theorem scopes_push (s : State) (step : Step) :
    (s.push step).program.scopes = s.program.scopes ++ scopesFrom s.program.overrides [step] :=
  scopesFrom_append s.settings s.pipeline [step]

theorem scopes_set (line : Nat) (o : Override) (s : State) :
    (set line o s).program.scopes = s.program.scopes := by
  rw [set]
  split
  · next empty => simp [State.program, Program.scopes, List.isEmpty_iff.1 empty, scopesFrom]
  · split
    · next pipeline joined =>
      split at joined
      · exact scopesFrom_of_joinRun joined s.settings
      · cases joined
    · exact (scopes_push s (.set [o] line)).trans (List.append_nil _)

theorem scopes_modifyLast {text : List Char} {s s' : State}
    (modified : modifyLast text s = .ok s') : s'.program.scopes = s.program.scopes := by
  obtain ⟨pipeline, amended, taken⟩ := Except.bind_eq_ok_iff.1 modified
  split at taken
  · cases taken
    exact scopesFrom_of_amendLast site_of_modify amended s.settings
  · cases taken

theorem adds_of_construct {line indent : Nat} {keyword : Keyword} {text rest : List Char}
    {s s' : State} (taken : construct line indent keyword text rest s = .ok s') :
    Adds s s' (some ⟨line, keyword, rest⟩) := by
  -- a construct that gives no setting and is no step
  have silent : keyword ≠ .set → (∀ verb, keyword ≠ .step verb) →
      ∀ opener ∈ some (Opener.mk line keyword rest),
        opener.keyword ≠ .set ∧ opener.site? = none := by
    intro unset unplaced opener same
    cases same
    refine ⟨unset, ?_⟩
    cases keyword with
    | step verb => exact absurd rfl (unplaced verb)
    | define | set | source | modifier | flag | output => rfl
  cases keyword with
  | define =>
      simp only [construct, define] at taken
      split at taken
      · cases taken
      · split at taken
        · cases taken
        · cases taken
          exact .nothing rfl rfl (silent (by simp) (by simp))
  | set =>
      obtain ⟨o, read, rfl⟩ := Except.map_eq_ok_iff.1 taken
      have given : Opener.override? ⟨line, .set, rest⟩ = some o := by
        rw [Opener.override?, if_pos rfl, read]
        rfl
      refine ⟨?_, ?_, ?_⟩
      · rw [Option.bind_some, given]
        exact overrides_set line o s
      · exact (scopes_set line o s).trans (List.append_nil _).symm
      · intro opener same _
        cases same
        rw [given]
        rfl
  | modifier kind =>
      have modified : modifyLast text { s with inRun := false } = .ok s' := taken
      have overrides := overrides_modifyLast modified
      have scopes := scopes_modifyLast modified
      exact .nothing overrides scopes (silent (by simp) (by simp))
  | source | output | flag =>
      obtain ⟨_, -, rfl⟩ := Except.map_eq_ok_iff.1 taken
      refine .nothing ?_ ?_ (silent (by simp) (by simp))
      · exact (overrides_push _ _).trans (List.append_nil _)
      · exact (scopes_push _ _).trans (List.append_nil _)
  | step verb =>
      obtain ⟨step, read, rfl⟩ := Except.map_eq_ok_iff.1 taken
      refine ⟨?_, ?_, ?_⟩
      · exact overrides_push _ _
      · refine (scopes_push _ _).trans ?_
        rw [scopesFrom, scopesFrom, site_of_readStep read]
        rfl
      · intro opener same set
        cases same
        cases set

theorem header_set (line : Nat) (o : Override) (s : State) : (set line o s).header = s.header := by
  rw [set]
  split
  · rfl
  · split
    · rfl
    · rfl

/-- A definition is opened at the indentation of its line, and no other construct opens one. -/
theorem header_of_construct {line indent : Nat} {keyword : Keyword} {text rest : List Char}
    {s s' : State} (closed : s.block = none)
    (taken : construct line indent keyword text rest s = .ok s') :
    s'.header = if keyword = .define then some indent else none := by
  have none : s.header = none := by rw [State.header, closed, Option.map_none]
  cases keyword with
  | define =>
      simp only [construct, define] at taken
      split at taken
      · cases taken
      · split at taken
        · cases taken
        · cases taken
          rfl
  | set =>
      obtain ⟨o, -, rfl⟩ := Except.map_eq_ok_iff.1 taken
      exact (header_set line o s).trans none
  | modifier kind =>
      obtain ⟨pipeline, -, amended⟩ := Except.bind_eq_ok_iff.1 taken
      split at amended
      · cases amended
        exact none
      · cases amended
  | source | output | step | flag =>
      obtain ⟨_, -, rfl⟩ := Except.map_eq_ok_iff.1 taken
      exact none

/-! ### What lines add -/

/-- A line adds what it opens, and leaves a definition open behind it or none. -/
theorem adds_of_take {s s' : State} {st : Statement} (taken : s.take st = .ok s') :
    Adds s s' (st.opener? s.header) ∧ s'.header = st.headerAfter s.header := by
  by_cases inside : st.isField s.header = true
  · rw [Statement.opener?, Statement.headerAfter, if_pos inside, if_pos inside]
    cases opened : s.block with
    | none => simp [Statement.isField, State.header, opened] at inside
    | some block =>
        have deeper : block.indent < st.indent := by
          simpa [Statement.isField, State.header, opened] using inside
        simp only [State.take, opened, if_pos deeper] at taken
        -- a field goes into the open definition
        obtain ⟨f, -, taken⟩ := Except.bind_eq_ok_iff.1 taken
        obtain ⟨definition, -, taken⟩ := Except.bind_eq_ok_iff.1 taken
        cases taken
        refine ⟨.nothing rfl rfl (by simp), ?_⟩
        rw [State.header, State.header, opened]
        rfl
  · rw [Statement.opener?, Statement.headerAfter, if_neg inside, if_neg inside]
    have outside : st.Outside s.header := by
      intro i header
      rw [Statement.isField, Option.mem_def.1 header] at inside
      simpa using inside
    rw [take_of_outside outside, topLine] at taken
    cases word : keyword? (firstWord st.text).1 with
    | none =>
        simp only [word] at taken
        split at taken
        · cases taken
        · cases taken
    | some keyword =>
        simp only [word] at taken
        have adds := adds_of_construct taken
        refine ⟨⟨adds.overrides, adds.scopes, adds.given⟩, ?_⟩
        rw [header_of_construct rfl taken]
        simp

/-- What is read from lines: the settings that they give, and their steps, each under the settings
of the lines above it. -/
structure Charted (raws : List (List Char)) (s : State) : Prop where
  header : s.header = headerBehind none (statements 1 raws)
  overrides : s.program.overrides = settings raws
  scopes : s.program.scopes =
    (sites raws).map fun site => (site, settings (raws.take (site.line - 1)))
  given : ∀ opener ∈ openersOf raws, opener.keyword = .set → opener.override?.isSome = true

/-- The construct that one more line opens behind others. -/
def opened? (front : List (List Char)) (raw : List Char) : Option Opener :=
  (statement? (1 + front.length) raw).bind
    (Statement.opener? (headerBehind none (statements 1 front)))

theorem statements_concat (front : List (List Char)) (raw : List Char) :
    statements 1 (front ++ [raw]) =
      statements 1 front ++ (statement? (1 + front.length) raw).toList := by
  rw [statements_append, statements, statements, List.append_nil]

theorem openersOf_concat (front : List (List Char)) (raw : List Char) :
    openersOf (front ++ [raw]) = openersOf front ++ (opened? front raw).toList := by
  rw [openersOf, statements_concat, openers_append, opened?]
  cases statement? (1 + front.length) raw with
  | none => rfl
  | some st => exact congrArg _ (List.append_nil _)

theorem filterMap_toList {α β : Type} (f : α → Option β) (o : Option α) :
    o.toList.filterMap f = (o.bind f).toList := by
  cases o with
  | none => rfl
  | some a =>
      rw [Option.toList_some, Option.bind_some, List.filterMap_cons]
      cases f a with
      | none => rfl
      | some b => rfl

theorem settings_concat (front : List (List Char)) (raw : List Char) :
    settings (front ++ [raw]) =
      settings front ++ ((opened? front raw).bind Opener.override?).toList := by
  rw [settings, openersOf_concat, List.filterMap_append]
  exact congrArg _ (filterMap_toList _ _)

theorem sites_concat (front : List (List Char)) (raw : List Char) :
    sites (front ++ [raw]) = sites front ++ ((opened? front raw).bind Opener.site?).toList := by
  rw [sites, openersOf_concat, List.filterMap_append]
  exact congrArg _ (filterMap_toList _ _)

theorem line_lt_of_mem {line : Nat} {raws : List (List Char)} {st : Statement}
    (member : st ∈ statements line raws) : st.line < line + raws.length := by
  induction raws generalizing line with
  | nil => cases member
  | cons raw rest ih =>
      rcases List.mem_append.1 member with here | later
      · rw [Option.mem_toList, statement?] at here
        split at here
        · cases here
        · cases here
          show line < line + (raw :: rest).length
          rw [List.length_cons]
          omega
      · have bound := ih later
        rw [List.length_cons]
        omega

/-- A construct is opened on the line of a statement. -/
theorem line_of_opener? {header : Option Nat} {st : Statement} {o : Opener}
    (opened : st.opener? header = some o) : o.line = st.line := by
  rw [Statement.opener?] at opened
  split at opened
  · cases opened
  · obtain ⟨word, -, rfl⟩ := Option.map_eq_some_iff.1 opened
    rfl

theorem line_of_site? {o : Opener} {site : Site} (placed : o.site? = some site) :
    site.line = o.line := by
  rw [Opener.site?] at placed
  split at placed
  · cases placed
    rfl
  · cases placed

theorem exists_of_mem_openers {header : Option Nat} {sts : List Statement} {o : Opener}
    (member : o ∈ openers header sts) : ∃ st ∈ sts, o.line = st.line := by
  induction sts generalizing header with
  | nil => cases member
  | cons st rest ih =>
      rcases List.mem_append.1 member with here | later
      · exact ⟨st, List.mem_cons_self, line_of_opener? (Option.mem_toList.1 here)⟩
      · obtain ⟨st', member', same⟩ := ih later
        exact ⟨st', List.mem_cons_of_mem _ member', same⟩

theorem line_le_of_mem_sites {raws : List (List Char)} {site : Site} (member : site ∈ sites raws) :
    site.line ≤ raws.length := by
  obtain ⟨o, opened, placed⟩ := List.mem_filterMap.1 member
  obtain ⟨st, said, same⟩ := exists_of_mem_openers opened
  have bound := line_lt_of_mem said
  rw [line_of_site? placed, same]
  omega

/-- A step on the last line has the number of lines as its line. -/
theorem line_of_opened? {front : List (List Char)} {raw : List Char} {site : Site}
    (placed : (opened? front raw).bind Opener.site? = some site) :
    site.line = 1 + front.length := by
  obtain ⟨o, opened, placed⟩ := Option.bind_eq_some_iff.1 placed
  obtain ⟨st, said, opened⟩ := Option.bind_eq_some_iff.1 opened
  have number : st.line = 1 + front.length := by
    rw [statement?] at said
    split at said
    · cases said
    · cases said
      rfl
  rw [line_of_site? placed, line_of_opener? opened, number]

/-- One more line, from what it adds. -/
theorem Charted.concat {front : List (List Char)} {raw : List Char} {s s' : State}
    (h : Charted front s) (adds : Adds s s' (opened? front raw))
    (header : s'.header = headerBehind none (statements 1 (front ++ [raw]))) :
    Charted (front ++ [raw]) s' := by
  refine ⟨header, ?_, ?_, ?_⟩
  · rw [adds.overrides, h.overrides, settings_concat]
  · -- what stands above the steps so far is still above them, and the new line is the last one
    have before : (sites front).map (fun site => (site, settings (front.take (site.line - 1)))) =
        (sites front).map fun site =>
          (site, settings ((front ++ [raw]).take (site.line - 1))) := by
      apply List.map_congr_left
      intro site member
      have bound := line_le_of_mem_sites member
      rw [List.take_append_of_le_length (by omega)]
    have last : ((opened? front raw).bind Opener.site?).toList.map
        (fun site => (site, settings front)) =
          ((opened? front raw).bind Opener.site?).toList.map fun site =>
            (site, settings ((front ++ [raw]).take (site.line - 1))) := by
      apply List.map_congr_left
      intro site member
      rw [line_of_opened? (Option.mem_toList.1 member), Nat.add_sub_cancel_left, List.take_left]
    rw [adds.scopes, h.scopes, h.overrides, before, last, sites_concat, List.map_append]
  · rw [openersOf_concat]
    refine List.forall_mem_append.2 ⟨h.given, ?_⟩
    intro o member
    exact adds.given o (Option.mem_toList.1 member)

theorem charted_of_takeAll {raws : List (List Char)} {s : State}
    (taken : takeAll (statements 1 raws) {} = .ok s) : Charted raws s := by
  induction raws using List.reverseRecOn generalizing s with
  | nil =>
      cases taken
      exact ⟨rfl, rfl, rfl, nofun⟩
  | append_singleton front raw ih =>
      rw [statements_concat, takeAll_append] at taken
      obtain ⟨s₀, before, taken⟩ := Except.bind_eq_ok_iff.1 taken
      have charted := ih before
      cases said : statement? (1 + front.length) raw with
      | none =>
          rw [said] at taken
          cases taken
          apply charted.concat
          · rw [opened?, said]
            exact .nothing rfl rfl nofun
          · rw [statements_concat, said]
            exact charted.header.trans (congrArg _ (List.append_nil _).symm)
      | some st =>
          rw [said, Option.toList_some, takeAll] at taken
          split at taken
          · cases taken
          · next s' first =>
            cases taken
            obtain ⟨adds, header⟩ := adds_of_take first
            rw [charted.header] at adds header
            apply charted.concat
            · rw [opened?, said]
              exact adds
            · rw [statements_concat, said, headerBehind, List.foldl_append]
              exact header

/-- Every `SET` line of a declaration gives a setting, and the program has above each of its steps
the settings of the lines above the step. -/
theorem scopes_of_read {text : String} {program : Program} (h : read text = .ok program) :
    (∀ opener ∈ openersOf (lines text.toList), opener.keyword = .set →
      opener.override?.isSome = true) ∧
    program.scopes = (sites (lines text.toList)).map fun site =>
      (site, settings ((lines text.toList).take (site.line - 1))) := by
  obtain ⟨s, taken, rfl⟩ := Except.map_eq_ok_iff.1 h
  rw [readLines_eq_takeAll] at taken
  have charted := charted_of_takeAll taken
  exact ⟨charted.given, charted.scopes⟩

end Declaration

end RecordInference
