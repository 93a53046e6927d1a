import Mathlib.Data.List.Chain
import RecordInference.Proofs.Declaration.Construct
import RecordInference.Proofs.Declaration.Fields
import RecordInference.Proofs.Declaration.Renumbering

/-!
# Reading what is written

A declaration whose lines write a well-formed program is read as that program (`read_of_written`):
the lines of a definition, of a run of settings and of a step are taken up one after the other, each
by induction over them, and so are the definitions and the constructs of the pipeline.
-/

set_option autoImplicit false

namespace RecordInference.Declaration

open Text

variable {w : List Char}

/-! ### Taking up lines -/

theorem takeAll_append (sts sts' : List Statement) (s : State) :
    takeAll (sts ++ sts') s = takeAll sts s >>= takeAll sts' := by
  induction sts generalizing s with
  | nil => rfl
  | cons st rest ih =>
      rw [List.cons_append, takeAll, takeAll]
      cases s.take st with
      | error cause => rfl
      | ok s' => exact ih s'

theorem takeAll_append_of_ok {sts : List Statement} {s s' : State} (taken : takeAll sts s = .ok s')
    (sts' : List Statement) : takeAll (sts ++ sts') s = takeAll sts' s' := by
  rw [takeAll_append, taken]
  rfl

theorem takeAll_cons_of_ok {st : Statement} {s s' : State} (taken : s.take st = .ok s')
    (sts : List Statement) : takeAll (st :: sts) s = takeAll sts s' := by
  rw [takeAll, taken]

/-- Where the header of the open definition stands. -/
def State.header (s : State) : Option Nat := s.block.map (·.indent)

theorem take_of_outside {s : State} {st : Statement} (outside : st.Outside s.header) :
    s.take st = topLine st.line st.indent st.text s.close := by
  rw [State.take]
  cases opened : s.block with
  | none =>
      have same : s.close = s := by
        simp only [State.close, State.allDefinitions, opened, Option.map_none, Option.toList_none,
          List.append_nil]
        rw [← opened]
      rw [same]
  | some block =>
      have inside : ¬ block.indent < st.indent :=
        Nat.not_lt.2 (outside block.indent (by rw [State.header, opened]; rfl))
      simp only [if_neg inside]

theorem take_of_closed {s : State} (closed : s.block = none) (st : Statement) :
    s.take st = topLine st.line st.indent st.text s := by
  rw [State.take, closed]

/-- A line that is no field closes the open definition. -/
theorem takeAll_close {sts : List Statement} {s : State}
    (outside : ∀ st ∈ sts.head?, st.Outside s.header) :
    (takeAll sts s).map State.program = (takeAll sts s.close).map State.program := by
  cases sts with
  | nil =>
      refine congrArg Except.ok ?_
      rw [State.program, State.program, s.allDefinitions_close]
      rfl
  | cons st rest =>
      rw [takeAll, takeAll, take_of_outside (outside st rfl), take_of_closed rfl]

/-! ### Lines of definitions -/

theorem fresh_of_nodup {α : Type} {name : α → String} {xs ys : List α} {x : α}
    (h : ((xs ++ [x] ++ ys).map name).Nodup) : name x ∉ xs.map name := by
  rw [List.map_append, List.map_append] at h
  intro member
  exact (List.nodup_append.1 (List.nodup_append.1 h).1).2.2 _ member _
    (List.mem_singleton_self _) rfl

theorem addField_of_fresh {d : Definition} {f : Field} (fresh : f.name ∉ d.fields.map (·.name)) :
    addField d f = .ok { d with fields := d.fields ++ [f] } := by
  have none : d.fields.any (fun g => g.name = f.name) = false := by
    refine List.any_eq_false.2 fun g member same => fresh ?_
    exact List.mem_map.2 ⟨g, member, of_decide_eq_true same⟩
  rw [addField, none, if_neg Bool.false_ne_true]

/-- A line that is read as a field adds it to the open definition. -/
theorem take_of_readField {indent : Nat} {d : Definition} {st : Statement} {f : Field}
    (read : readField st.line st.text = .ok f) (deeper : indent < st.indent)
    (fresh : f.name ∉ d.fields.map (·.name)) (s : State) :
    State.take { s with block := some ⟨indent, d⟩ } st =
      .ok { s with block := some ⟨indent, { d with fields := d.fields ++ [f] }⟩ } := by
  simp only [State.take, if_pos deeper, read]
  show (addField d f >>= fun definition => _) = _
  rw [addField_of_fresh fresh]
  rfl

/-- The lines of fields add the fields to the open definition. -/
theorem takeAll_of_declares {indent : Nat} {lines : List Statement} {fields : List Field}
    (written : List.Forall₂ (fun (line : Statement) f => line.Declares f ∧ indent < line.indent)
      lines fields) (wf : ∀ f ∈ fields, f.WellFormed) (d : Definition)
    (distinct : ((d.fields ++ fields).map (·.name)).Nodup) (s : State) :
    takeAll lines { s with block := some ⟨indent, d⟩ } =
      .ok { s with block := some ⟨indent, { d with fields := d.fields ++ fields }⟩ } := by
  -- each line is deeper than the header, so none of them closes the block
  induction written generalizing d with
  | nil => rw [takeAll, List.append_nil]
  | @cons line f lines fields first others ih =>
      obtain ⟨declares, deeper⟩ := first
      obtain ⟨here, later⟩ := List.forall_mem_cons.1 wf
      rw [List.append_cons] at distinct
      have fresh : f.name ∉ d.fields.map (·.name) := fresh_of_nodup distinct
      have taken := take_of_readField (readField_of_declares declares here) deeper fresh s
      rw [takeAll_cons_of_ok taken, ih later _ distinct, ← List.append_cons]

/-- The lines of definitions add the definitions. -/
theorem takeAll_of_definitionsWritten {header header' : Option Nat} {ds : List Definition}
    {sts : List Statement} (written : DefinitionsWritten header ds sts header')
    (wf : ∀ d ∈ ds, d.WellFormed) {s : State} (opened : s.header = header)
    (idle : s.inRun = false)
    (distinct : ((s.allDefinitions ++ ds).map (·.name)).Nodup) :
    ∃ s', takeAll sts s = .ok s' ∧ s'.header = header' ∧
      s'.close = ⟨s.allDefinitions ++ ds, none, s.settings, s.pipeline, false⟩ := by
  -- the block of the last definition stays open, so the result is told of the closed state
  induction written generalizing s with
  | nil header =>
      refine ⟨s, rfl, opened, ?_⟩
      rw [List.append_nil, ← idle]
      rfl
  | @cons header header' d ds st fields sts outside opens declared rest ih =>
      obtain ⟨here, later⟩ := List.forall_mem_cons.1 wf
      rw [List.append_cons] at distinct
      have fresh : d.name ∉ s.close.definitions.map (·.name) := fresh_of_nodup distinct
      have first : s.take st = .ok { s.close with
          block := some ⟨st.indent, ⟨d.name, [], d.line⟩⟩, inRun := false } := by
        rw [take_of_outside (opened ▸ outside), topLine_of_opens opens here.name fresh]
      have body := takeAll_of_declares declared here.fields ⟨d.name, [], d.line⟩ here.distinct
        { s.close with inRun := false }
      obtain ⟨s', taken, closed, final⟩ := ih later
        (s := { s.close with block := some ⟨st.indent, d⟩, inRun := false }) rfl rfl distinct
      refine ⟨s', ?_, closed, ?_⟩
      · rw [takeAll_cons_of_ok first, takeAll_append_of_ok body]
        exact taken
      · rw [List.append_cons]
        exact final

/-! ### Lines of settings -/

/-- The lines of settings in front of the pipeline add the settings. -/
theorem takeAll_of_sets {lines : List Statement} {settings : List Override}
    (written : List.Forall₂ Statement.Sets lines settings) (wf : ∀ o ∈ settings, o.WellFormed)
    {s : State} (closed : s.block = none) (first : s.pipeline = []) :
    takeAll lines s = .ok { s with settings := s.settings ++ settings } := by
  induction written generalizing s with
  | nil => rw [takeAll, List.append_nil]
  | @cons line o lines settings sets others ih =>
      obtain ⟨here, later⟩ := List.forall_mem_cons.1 wf
      have taken : s.take line = .ok { s with settings := s.settings ++ [o] } := by
        rw [take_of_closed closed, topLine_of_sets sets here, set, first]
        rfl
      rw [takeAll_cons_of_ok taken, List.append_cons s.settings o settings]
      exact ih later (s := { s with settings := s.settings ++ [o] }) closed first

theorem joinRun_concat (o : Override) (steps : List Step) (overrides : List Override) (line : Nat) :
    joinRun o (steps ++ [.set overrides line]) = some (steps ++ [.set (overrides ++ [o]) line]) := by
  induction steps with
  | nil => rfl
  | cons step rest ih =>
      obtain ⟨next, more, eq⟩ :=
        List.exists_cons_of_ne_nil (List.append_ne_nil_of_right_ne_nil rest
          (List.cons_ne_nil (Step.set overrides line) []))
      rw [List.cons_append, eq, joinRun_cons, ← eq, ih, Option.map_some, List.cons_append]

/-- The lines of settings behind a line of settings in the pipeline join it. -/
theorem takeAll_of_run {lines : List Statement} {overrides : List Override}
    (written : List.Forall₂ Statement.Sets lines overrides) (wf : ∀ o ∈ overrides, o.WellFormed)
    {s : State} (closed : s.block = none) (run : s.inRun = true) {steps : List Step}
    {before : List Override} {line : Nat} (last : s.pipeline = steps ++ [.set before line]) :
    takeAll lines s = .ok { s with pipeline := steps ++ [.set (before ++ overrides) line] } := by
  induction written generalizing s before with
  | nil => rw [takeAll, List.append_nil, ← last]
  | @cons st o lines overrides sets others ih =>
      obtain ⟨here, later⟩ := List.forall_mem_cons.1 wf
      have some : s.pipeline.isEmpty = false := by simp [last]
      have taken : s.take st =
          .ok { s with pipeline := steps ++ [.set (before ++ [o]) line] } := by
        rw [take_of_closed closed, topLine_of_sets sets here, set, some, run, last, if_pos rfl,
          joinRun_concat]
        rfl
      rw [takeAll_cons_of_ok taken, List.append_cons before o overrides]
      exact ih later (s := { s with pipeline := steps ++ [.set (before ++ [o]) line] }) closed run rfl

/-! ### Lines of steps -/

theorem amendLast_concat (amend : InferenceStep → Except Cause InferenceStep) (steps : List Step)
    {step step' : InferenceStep} (amended : amend step = .ok step') :
    amendLast amend (steps ++ [.inference step]) = .ok (some (steps ++ [.inference step'])) := by
  induction steps with
  | nil =>
      show (amend step >>= fun i => _) = _
      rw [amended]
      rfl
  | cons next rest ih =>
      rw [List.cons_append, amendLast, ih]
      rfl

/-- A line that names resources adds them to the step that ends the pipeline. -/
theorem topLine_of_amends {st : Statement} {here : List (ResourceKind × String)}
    (amends : st.Amends here) {s : State} {steps : List Step} {step : InferenceStep}
    (last : s.pipeline = steps ++ [.inference step]) (fits : Fits here step) :
    topLine st.line st.indent st.text s = .ok { s with
      pipeline := steps ++ [.inference (withResources here step)], inRun := false } := by
  obtain ⟨some, words, named, spaced⟩ := amends
  have isToken := named.isToken fits.named
  have modified : modify (tokens st.text) step = .ok (withResources here step) := by
    rw [tokens_spaced spaced isToken]
    exact modify_of_words named fits
  cases named with
  | nil => exact absurd rfl some
  | cons word others =>
      obtain ⟨solid, -, opens, -⟩ := word.reads
      obtain ⟨rest, -, eq⟩ := topLine_of_spaced spaced solid opens
        (fun v member => (isToken v (List.mem_cons_of_mem _ member)).1) st.line st.indent s
      have amended := amendLast_concat (modify (tokens st.text)) steps modified
      rw [eq]
      simp only [construct, reduceCtorEq, if_false, modifyLast, last, amended]
      rfl

theorem takeAll_of_amends {lines : List Statement} {below : List (List (ResourceKind × String))}
    (written : List.Forall₂ Statement.Amends lines below) {s : State} (closed : s.block = none)
    {steps : List Step} {step : InferenceStep} (last : s.pipeline = steps ++ [.inference step])
    (fits : Fits below.flatten step) (idle : s.inRun = false) :
    takeAll lines s =
      .ok { s with pipeline := steps ++ [.inference (withResources below.flatten step)] } := by
  induction written generalizing s step with
  | nil => rw [takeAll, List.flatten_nil, withResources, List.foldl_nil, ← last]
  | @cons line here lines below amends others ih =>
      rw [List.flatten_cons] at fits
      obtain ⟨now, later⟩ := fits.append
      have taken := topLine_of_amends amends last now
      rw [← take_of_closed closed, ← idle] at taken
      rw [takeAll_cons_of_ok taken, List.flatten_cons, withResources_append]
      exact ih (s := { s with pipeline := steps ++ [.inference (withResources here step)] })
        closed rfl later idle

theorem keyword?_of_verb {verb : Verb} (h : isWord verb.keyword w = true) :
    keyword? w = some (.step verb) := by
  cases verb with
  | extract | classify | draft => exact keyword?_of_isWord h (by decide)

theorem solid_of_verb {verb : Verb} (h : isWord verb.keyword w = true) : Solid w := by
  cases verb with
  | extract | classify | draft => exact .of_isWord h (by decide)

/-- The first line of a step adds it to the pipeline, with the resources that the line names. -/
theorem topLine_of_step {st : Statement} {step : InferenceStep} {target words : List (List Char)}
    {here : List (ResourceKind × String)} (line : st.line = step.line)
    (word : isWord step.verb.keyword w = true) (written : TargetWords step target)
    (named : ResourceWords here words) (spaced : Spaced (w :: (target ++ words)) st.text)
    (wf : step.WellFormed) (fits : Fits here (bare step)) (s : State) :
    topLine st.line st.indent st.text s = .ok { s with
      pipeline := s.pipeline ++ [.inference (withResources here (bare step))], inRun := false } := by
  have isToken := List.forall_mem_append.2 ⟨written.isToken wf, named.isToken fits.named⟩
  -- there is at least the target behind the verb
  obtain ⟨w', others, eq⟩ := List.exists_cons_of_ne_nil
    (List.append_ne_nil_of_left_ne_nil written.ne_nil words)
  rw [eq] at spaced isToken
  obtain ⟨rest, spaced, opens⟩ := topLine_of_spaced spaced (solid_of_verb word)
    (keyword?_of_verb word) (fun v member => (isToken v member).1) st.line st.indent s
  rw [← eq] at spaced
  rw [opens, line]
  simp only [construct, readStep_of_words written named wf fits spaced, Except.map, reduceCtorEq,
    if_false]
  rfl

/-- The state after a construct of the pipeline. -/
def State.after (s : State) (step : Step) : State :=
  { s with pipeline := s.pipeline ++ [step], inRun := step.isSet }

/-- The lines of a construct add it to the pipeline. -/
theorem takeAll_of_stepWritten {step : Step} {sts : List Statement} (written : step.Written sts)
    (wf : step.WellFormed) {s : State} (closed : s.block = none)
    (starts : step.isSet = true → s.pipeline ≠ [] ∧ s.inRun = false) :
    takeAll sts s = .ok (s.after step) := by
  -- all but settings and steps of inference are written on one line
  have single : ∀ {st : Statement}, topLine st.line st.indent st.text s = .ok (s.after step) →
      takeAll [st] s = .ok (s.after step) := by
    intro st taken
    rw [← take_of_closed closed] at taken
    rw [takeAll_cons_of_ok taken, takeAll]
  cases written with
  | @source locator st w word spaced | @output locator st w word spaced =>
      refine single ?_
      obtain ⟨rest, alone, eq⟩ := topLine_of_spaced spaced (.of_isWord word (by decide))
        (keyword?_of_isWord word (by decide)) (List.forall_mem_singleton.2 wf.1) st.line st.indent s
      obtain rfl := eq_of_spaced_one alone
      rw [eq]
      simp only [construct, required_of_trimmed wf.1, Except.map, reduceCtorEq, if_false]
      rfl
  | @rule expression st w w' word word' spaced =>
      refine single ?_
      have solid : Solid w' := .of_isWord word' (by decide)
      have trimmed := List.forall_mem_singleton.2 wf.1
      obtain ⟨rest, others, eq⟩ := topLine_of_spaced spaced (.of_isWord word (by decide))
        (keyword?_of_isWord word (by decide)) (List.forall_mem_cons.2 ⟨solid.trimmed, trimmed⟩)
        st.line st.indent s
      obtain ⟨condition, split, alone⟩ := firstWord_spaced others solid trimmed
      obtain rfl := eq_of_spaced_one alone
      rw [eq]
      simp only [construct, readCondition, split, word', required_of_trimmed wf.1, Except.map,
        reduceCtorEq, if_false, Bool.not_true, Bool.false_eq_true]
      rfl
  | @set overrides st sts written =>
      -- the first line starts a run, and the others join it
      obtain ⟨some, idle⟩ := starts rfl
      cases written with
      | @cons _ o _ overrides sets others =>
          obtain ⟨here, later⟩ := List.forall_mem_cons.1 wf.2
          have taken : s.take st = .ok
              { s with pipeline := s.pipeline ++ [.set [o] st.line], inRun := true } := by
            rw [take_of_closed closed, topLine_of_sets sets here, set,
              List.isEmpty_eq_false_iff.2 some, idle]
            rfl
          rw [takeAll_cons_of_ok taken]
          exact takeAll_of_run others later
            (s := { s with pipeline := s.pipeline ++ [.set [o] st.line], inRun := true })
            closed rfl rfl
  | @inference step st sts w target words here below line word target named spaced amends same =>
      have wf : step.WellFormed := wf
      have fits := (fits_resources wf.prompt wf.examples).perm same
      obtain ⟨now, later⟩ := fits.append
      have taken := topLine_of_step line word target named spaced wf now s
      rw [← take_of_closed closed] at taken
      -- wherever the resources stand, and in either order, they make up those of the step
      have whole : withResources below.flatten (withResources here (bare step)) = step := by
        rw [← withResources_append, withResources_perm same
          ((same.map _).nodup_iff.2 (fits_resources wf.prompt wf.examples).distinct), withResources_resources]
      have amended := takeAll_of_amends amends (s := { s with
        pipeline := s.pipeline ++ [.inference (withResources here (bare step))],
        inRun := false }) closed rfl later rfl
      rw [whole] at amended
      rw [takeAll_cons_of_ok taken, amended]
      rfl

/-- The lines of a pipeline add its constructs. -/
theorem takeAll_of_pipelineWritten {steps : List Step} {sts : List Statement}
    (written : PipelineWritten steps sts) (wf : ∀ step ∈ steps, step.WellFormed)
    (apart : steps.IsChain fun step next => step.isSet = true → next.isSet = false)
    {s : State} (closed : s.block = none)
    (starts : ∀ step ∈ steps.head?, step.isSet = true → s.pipeline ≠ [] ∧ s.inRun = false) :
    ∃ s', takeAll sts s = .ok s' ∧
      s'.program = ⟨s.definitions, s.settings, s.pipeline ++ steps⟩ := by
  induction written generalizing s with
  | nil =>
      refine ⟨s, rfl, ?_⟩
      rw [State.program, State.allDefinitions, closed, List.append_nil]
      simp
  | @cons step steps first sts here rest ih =>
      obtain ⟨this, later⟩ := List.forall_mem_cons.1 wf
      have taken := takeAll_of_stepWritten here this closed (starts step rfl)
      obtain ⟨between, apart⟩ := List.isChain_cons.1 apart
      -- settings behind this construct start a run, for the construct is not one of settings
      have next : ∀ step' ∈ steps.head?, step'.isSet = true →
          (s.after step).pipeline ≠ [] ∧ (s.after step).inRun = false := by
        intro step' member isSet
        refine ⟨List.append_ne_nil_of_right_ne_nil _ (List.cons_ne_nil _ _), ?_⟩
        by_contra run
        rw [Bool.not_eq_false] at run
        rw [between step' member run] at isSet
        cases isSet
      obtain ⟨s', goOn, final⟩ := ih later apart (s := s.after step) closed next
      refine ⟨s', (takeAll_append_of_ok taken sts).trans goOn, ?_⟩
      rw [final, List.append_cons]
      rfl

/-- A text whose lines write a well-formed program is read as the program. -/
theorem read_of_written {text : String} {p : Program} (wf : p.WellFormed)
    (written : p.Written (statements 1 (lines text.toList))) : read text = .ok p := by
  obtain ⟨header, definitions, settings, pipeline, eq, defined, set, steps, outside⟩ := written
  obtain ⟨s, taken, rfl, closed⟩ := takeAll_of_definitionsWritten defined wf.definitions
    (s := {}) rfl rfl wf.distinct
  have sets := takeAll_of_sets set wf.settings (s := s.close) rfl (by rw [closed])
  -- the first construct is not one of settings
  have starts : ∀ step ∈ p.pipeline.head?, step.isSet = true →
      s.close.pipeline ≠ [] ∧ s.close.inRun = false := by
    intro step member isSet
    rw [wf.first step member] at isSet
    cases isSet
  obtain ⟨s', final, program⟩ := takeAll_of_pipelineWritten steps wf.pipeline wf.apart
    (s := { s.close with settings := s.close.settings ++ p.settings }) rfl starts
  rw [read, readLines_eq_takeAll, eq, takeAll_append_of_ok taken, takeAll_close outside,
    takeAll_append_of_ok sets, final, Except.map, program, closed]
  rfl

end RecordInference.Declaration
