import RecordInference.Proofs.Declaration.Scope

/-!
# What a line adds to a program

A line that is read does one of six things to the program so far (`Program.Grows`): it adds a field
to the last definition or opens a definition, adds a setting in front of the pipeline or to the run
of settings that ends it, adds a construct, or changes the last step. Whatever it adds is regular:
it has the names, values and ranges that a declaration asks for. This is told once, of every kind of
line (`grows_of_take`), and what holds of a program however it grows holds of every program that is
read (`readLines_induction`).
-/

set_option autoImplicit false

namespace RecordInference

open Text Declaration

/-! ### What a declaration asks for -/

/-- Whether a type has values to choose from, or refers to a definition by a name that is not the
word for another type. -/
def FieldType.Regular : FieldType → Prop
  | .oneOf values => IsChoice values
  | type => IsType type

/-- Whether a field has a name and a type of its own. -/
structure Field.Regular (f : Field) : Prop where
  name : isIdentifier f.name.toList = true
  type : f.type.Regular

/-- Whether a definition has a name, and different fields. -/
structure Definition.Regular (d : Definition) : Prop where
  name : isIdentifier d.name.toList = true
  fields : ∀ f ∈ d.fields, f.Regular
  distinct : (d.fields.map (·.name)).Nodup

/-- Whether a step has a target that opens no construct, categories only if it classifies, and
resources that can be looked up. -/
structure InferenceStep.Regular (step : InferenceStep) : Prop where
  target : isIdentifier step.target.toList = true ∧ keyword? step.target.toList = none ∧
    isWord "INTO" step.target.toList = false
  categories : ∀ values, step.categories = some values → step.verb = .classify ∧ IsChoice values
  prompt : ∀ name, step.prompt = some name → isResourceName name.toList = true
  examples : ∀ name, step.examples = some name → isResourceName name.toList = true

/-- Whether a construct has the text that it takes, or some settings, all of them in range. -/
def Step.Regular : Step → Prop
  | .source locator _ => OneLine locator.toList
  | .inference step => step.Regular
  | .rule expression _ => OneLine expression.toList
  | .output locator _ => OneLine locator.toList
  | .set overrides _ => overrides ≠ [] ∧ ∀ o ∈ overrides, o.fault? = none

/-- What a line may do to a program. -/
inductive Program.Grows (line : Nat) : Program → Program → Prop
  | field {front : List Definition} {d : Definition} {f : Field} (settings : List Override)
      (pipeline : List Step) (regular : f.Regular) (here : f.line = line)
      (fresh : f.name ∉ d.fields.map (·.name)) :
      Grows line ⟨front ++ [d], settings, pipeline⟩
        ⟨front ++ [{ d with fields := d.fields ++ [f] }], settings, pipeline⟩
  | definition {name : String} (p : Program) (identifier : isIdentifier name.toList = true)
      (fresh : name ∉ p.definitions.map (·.name)) :
      Grows line p { p with definitions := p.definitions ++ [⟨name, [], line⟩] }
  | setting {o : Override} (p : Program) (sound : o.fault? = none) :
      Grows line p { p with settings := p.settings ++ [o] }
  | joined {front : List Step} {overrides : List Override} {o : Override} {first : Nat}
      (definitions : List Definition) (settings : List Override) (sound : o.fault? = none) :
      Grows line ⟨definitions, settings, front ++ [.set overrides first]⟩
        ⟨definitions, settings, front ++ [.set (overrides ++ [o]) first]⟩
  | construct {step : Step} (p : Program) (regular : step.Regular) (here : step.line = line)
      (behind : step.isSet = true → p.pipeline ≠ []) :
      Grows line p { p with pipeline := p.pipeline ++ [step] }
  | amended {front back : List Step} {step step' : InferenceStep} (definitions : List Definition)
      (settings : List Override) (regular : step.Regular → step'.Regular)
      (there : step'.line = step.line) :
      Grows line ⟨definitions, settings, front ++ .inference step :: back⟩
        ⟨definitions, settings, front ++ .inference step' :: back⟩

namespace Declaration

/-! ### Values and types -/

/-- A type that is read is regular, or it is that of a list in one of the tokens. -/
theorem regular_or_list_of_readType {text : List Char} {type : FieldType}
    (read : readType text = .ok type) :
    ((∀ values, type ≠ .oneOf values) ∧ type.Regular) ∨
      ∃ values, ∃ t ∈ tokens text, readList t = .ok values ∧ type = .oneOf values := by
  simp only [readType] at read
  split at read
  · -- a single word refers to a definition unless it is the word for a type
    next t _ =>
    refine Or.inl ?_
    split at read
    · cases read
      exact ⟨by rintro _ ⟨⟩, trivial⟩
    · next notText =>
      split at read
      · cases read
        exact ⟨by rintro _ ⟨⟩, trivial⟩
      · next notMoney =>
        split at read
        · cases read
          exact ⟨by rintro _ ⟨⟩, trivial⟩
        · next notNumber =>
          split at read
          · cases read
            exact ⟨by rintro _ ⟨⟩, trivial⟩
          · next notYesNo =>
            split at read
            · next identifier =>
              cases read
              refine ⟨by rintro _ ⟨⟩, ?_⟩
              change IsType (.object (String.ofList t))
              rw [IsType, String.toList_ofList]
              rw [Bool.or_eq_true, not_or] at notYesNo
              simp only [Bool.not_eq_true] at notText notMoney notNumber notYesNo
              exact ⟨identifier, notText, notMoney, notNumber, notYesNo.2⟩
            · cases read
  · split at read
    · cases read
    · cases read
  · -- the last of three words is the list, or the definition that elements refer to
    next first of t split =>
    split at read
    · obtain ⟨values, list, rfl⟩ := Except.map_eq_ok_iff.1 read
      exact Or.inr ⟨values, t, by rw [split]; simp, list, rfl⟩
    · split at read
      · next listOf =>
        cases read
        simp only [Bool.and_eq_true] at listOf
        refine Or.inl ⟨by rintro _ ⟨⟩, ?_⟩
        change IsType (.listOf (String.ofList t))
        rw [IsType, String.toList_ofList]
        exact listOf.2
      · cases read
  · cases read

theorem regular_of_readType {text : List Char} {type : FieldType}
    (read : readType text = .ok type) (whole : '\n' ∉ text) : type.Regular := by
  rcases regular_or_list_of_readType read with ⟨-, regular⟩ | ⟨values, t, member, list, rfl⟩
  · exact regular
  · exact isChoice_of_readList list fun ending => whole (subset_of_mem_tokens member ending)

theorem regular_of_readField {line : Nat} {text : List Char} {f : Field}
    (read : readField line text = .ok f) (whole : '\n' ∉ text) : f.Regular ∧ f.line = line := by
  simp only [readField] at read
  split at read
  · cases read
  · next named =>
    split at read
    · cases read
    · obtain ⟨type, typed, rfl⟩ := Except.map_eq_ok_iff.1 read
      refine ⟨⟨?_, ?_⟩, rfl⟩
      · rw [String.toList_ofList]
        simpa using named
      · exact regular_of_readType typed fun ending => whole ((firstWord_subset text).2 ending)

/-! ### Steps -/

/-- Resources that are added have names that can be looked up. -/
theorem regular_of_modify {tokens : List (List Char)} {step step' : InferenceStep}
    (modified : modify tokens step = .ok step') (regular : step.Regular) : step'.Regular := by
  fun_induction modify tokens step with
  | case1 =>
      cases modified
      exact regular
  | case2 | case3 | case4 | case5 | case7 => cases modified
  | case6 token name rest step kind word named free ih =>
      have found : isResourceName (String.ofList name).toList = true := by
        rw [String.toList_ofList]
        simpa using named
      apply ih modified
      -- the other resource is that of the step before
      cases kind with
      | prompt =>
          refine ⟨regular.target, regular.categories, ?_, regular.examples⟩
          rintro _ ⟨⟩
          exact found
      | examples =>
          refine ⟨regular.target, regular.categories, regular.prompt, ?_⟩
          rintro _ ⟨⟩
          exact found

theorem regular_of_readStep {line : Nat} {verb : Verb} {rest : List Char} {step : InferenceStep}
    (read : readStep line verb rest = .ok step) (whole : '\n' ∉ rest) : step.Regular := by
  have outside : ∀ t ∈ tokens rest, '\n' ∉ t := fun t member ending =>
    whole (subset_of_mem_tokens member ending)
  simp only [readStep] at read
  split at read
  · cases read
  · next target modifiers words =>
    split at read
    · cases read
    · next isTarget =>
      have fits : isIdentifier (String.ofList target).toList = true ∧
          keyword? (String.ofList target).toList = none ∧
          isWord "INTO" (String.ofList target).toList = false := by
        rw [String.toList_ofList]
        simpa [Declaration.isTarget, and_assoc] using isTarget
      -- the step before its resources, whatever its categories are
      have bare : ∀ categories : Option (List String),
          (∀ values, categories = some values → verb = .classify ∧ IsChoice values) →
          (InferenceStep.mk verb (String.ofList target) categories none none line).Regular :=
        fun categories chosen => ⟨fits, chosen, by simp, by simp⟩
      split at read
      · split at read
        · -- only a classification has a list behind its target
          next into =>
          split at read
          · cases read
          · next token more =>
            obtain ⟨categories, list, modified⟩ := Except.bind_eq_ok_iff.1 read
            apply regular_of_modify modified
            apply bare
            rintro _ ⟨⟩
            have classifies : verb = .classify := by
              simp only [Bool.and_eq_true, decide_eq_true_eq] at into
              exact into.1
            exact ⟨classifies, isChoice_of_readList list (outside token (by rw [words]; simp))⟩
        · exact regular_of_modify read (bare none (by simp))
      · cases read
        exact bare none (by simp)

theorem oneLine_of_required {missing : Cause} {rest : List Char} {s : String}
    (read : required missing rest = .ok s) (whole : '\n' ∉ rest) : OneLine s.toList := by
  rw [required] at read
  split at read
  · cases read
  · next more =>
    cases read
    rw [String.toList_ofList]
    exact ⟨.of_trim (by simpa using more), fun ending => whole (trim_subset rest ending)⟩

theorem oneLine_of_readCondition {rest : List Char} {s : String}
    (read : readCondition rest = .ok s) (whole : '\n' ∉ rest) : OneLine s.toList := by
  simp only [readCondition] at read
  split at read
  · cases read
  · exact oneLine_of_required read fun ending => whole ((firstWord_subset rest).2 ending)

/-! ### Lines -/

variable {line indent : Nat} {s s' : State}

theorem program_of_closed (closed : s.block = none) :
    s.program = ⟨s.definitions, s.settings, s.pipeline⟩ := by
  rw [State.program, State.allDefinitions, closed, Option.map_none, Option.toList_none,
    List.append_nil]

theorem grows_of_set {o : Override} (sound : o.fault? = none) (s : State) :
    s.program.Grows line (set line o s).program := by
  rw [set]
  split
  · -- nothing is in the pipeline yet
    exact .setting s.program sound
  · next some =>
    split
    · next pipeline joined =>
      split at joined
      · obtain ⟨front, overrides, first, before, rfl⟩ := eq_of_joinRun joined
        rw [State.program, before]
        exact .joined _ _ sound
      · cases joined
    · -- a run of its own, behind a construct that is no setting
      have regular : Step.Regular (.set [o] line) :=
        ⟨List.cons_ne_nil _ _, List.forall_mem_singleton.2 sound⟩
      apply Program.Grows.construct s.program regular rfl
      intro _ none
      exact some (List.isEmpty_iff.2 none)

theorem grows_of_modifyLast {text : List Char} (modified : modifyLast text s = .ok s') :
    s.program.Grows line s'.program := by
  obtain ⟨pipeline, amended, taken⟩ := Except.bind_eq_ok_iff.1 modified
  split at taken
  · cases taken
    obtain ⟨front, step, step', back, before, changed, rfl⟩ := eq_of_amendLast amended
    have site := site_of_modify changed
    rw [State.program, before]
    exact .amended _ _ (regular_of_modify changed) (congrArg Site.line site)
  · cases taken

theorem grows_of_construct {keyword : Keyword} {text rest : List Char} (closed : s.block = none)
    (whole : '\n' ∉ rest) (taken : construct line indent keyword text rest s = .ok s') :
    s.program.Grows line s'.program := by
  -- a construct of its own stands behind the others
  have push : ∀ {step : Step}, step.Regular → step.line = line → step.isSet = false →
      s.program.Grows line (State.push { s with inRun := false } step).program := by
    intro step regular here other
    apply Program.Grows.construct s.program regular here
    intro isSet
    cases other.symm.trans isSet
  cases keyword with
  | define =>
      simp only [construct, define] at taken
      split at taken
      · cases taken
      · next identifier =>
        split at taken
        · cases taken
        · next none =>
          cases taken
          rw [program_of_closed closed]
          apply Program.Grows.definition
          · rw [String.toList_ofList]
            simpa using identifier
          · intro member
            obtain ⟨d, old, named⟩ := List.mem_map.1 member
            exact absurd named (by simpa using List.find?_eq_none.1 none d old)
  | set =>
      obtain ⟨o, read, rfl⟩ := Except.map_eq_ok_iff.1 taken
      exact grows_of_set (fault?_of_readOverride read) s
  | modifier kind =>
      have modified : modifyLast text { s with inRun := false } = .ok s' := taken
      exact grows_of_modifyLast (s := { s with inRun := false }) modified
  | source =>
      obtain ⟨locator, read, rfl⟩ := Except.map_eq_ok_iff.1 taken
      have regular : Step.Regular (.source locator line) := oneLine_of_required read whole
      exact push regular rfl rfl
  | output =>
      obtain ⟨locator, read, rfl⟩ := Except.map_eq_ok_iff.1 taken
      have regular : Step.Regular (.output locator line) := oneLine_of_required read whole
      exact push regular rfl rfl
  | flag =>
      obtain ⟨condition, read, rfl⟩ := Except.map_eq_ok_iff.1 taken
      exact push (oneLine_of_readCondition read whole) rfl rfl
  | step verb =>
      obtain ⟨step, read, rfl⟩ := Except.map_eq_ok_iff.1 taken
      have site := site_of_readStep read
      exact push (regular_of_readStep read whole) (congrArg Site.line site) rfl

/-- Whatever a statement says, it adds that to the program. -/
theorem grows_of_take {st : Statement} (whole : '\n' ∉ st.text) (taken : s.take st = .ok s') :
    s.program.Grows st.line s'.program := by
  -- outside of definitions there are constructs only
  have top : ∀ {s : State}, s.block = none → topLine st.line st.indent st.text s = .ok s' →
      s.program.Grows st.line s'.program := by
    intro s closed taken
    have rest : '\n' ∉ (firstWord st.text).2 := fun ending =>
      whole ((firstWord_subset st.text).2 ending)
    simp only [topLine] at taken
    split at taken
    · exact grows_of_construct closed rest taken
    · split at taken
      · cases taken
      · cases taken
  rw [State.take] at taken
  split at taken
  · next block opened =>
    split at taken
    · -- a field goes to the open definition, which stands last
      obtain ⟨f, read, taken⟩ := Except.bind_eq_ok_iff.1 taken
      obtain ⟨definition, added, taken⟩ := Except.bind_eq_ok_iff.1 taken
      cases taken
      obtain ⟨regular, here⟩ := regular_of_readField read whole
      rw [addField] at added
      split at added
      · cases added
      · next fresh =>
        cases added
        have before : s.program =
            ⟨s.definitions ++ [block.definition], s.settings, s.pipeline⟩ := by
          rw [State.program, State.allDefinitions, opened]
          rfl
        rw [before]
        apply Program.Grows.field _ _ regular here
        intro member
        obtain ⟨g, old, same⟩ := List.mem_map.1 member
        exact fresh (List.any_eq_true.2 ⟨g, old, decide_eq_true same⟩)
    · -- the line closes the definition, which changes nothing
      have before : s.close.program = s.program := by
        rw [State.program, s.allDefinitions_close]
        rfl
      rw [← before]
      exact top rfl taken
  · next closed => exact top closed taken

/-- What holds of a program however it grows, line by line, holds of what is read from lines. -/
theorem readLines_induction {motive : Nat → Program → Prop}
    (silent : ∀ {line p}, motive line p → motive (line + 1) p)
    (grows : ∀ {line p p'}, motive line p → p.Grows (line + 1) p' → motive (line + 1) p')
    {raws : List (List Char)} (whole : ∀ raw ∈ raws, '\n' ∉ raw)
    (taken : readLines (line + 1) raws s = .ok s') (start : motive line s.program) :
    motive (line + raws.length) s'.program := by
  induction raws generalizing line s with
  | nil =>
      cases taken
      exact start
  | cons raw rest ih =>
      obtain ⟨here, later⟩ := List.forall_mem_cons.1 whole
      rw [readLines] at taken
      split at taken
      · cases taken
      · next s₁ first =>
        have next : motive (line + 1) s₁.program := by
          by_cases quiet : isSilent (trim raw) = true
          · rw [readLine_of_silent quiet] at first
            cases first
            exact silent start
          · rw [readLine_of_statement quiet] at first
            have text : '\n' ∉ trim raw := fun ending => here (trim_subset raw ending)
            exact grows start (grows_of_take text first)
        have final := ih later taken next
        rwa [List.length_cons, Nat.add_comm rest.length, ← Nat.add_assoc]

end Declaration

end RecordInference
