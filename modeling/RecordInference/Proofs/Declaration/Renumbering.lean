import RecordInference.Proofs.Declaration.Statement
import RecordInference.Proofs.Outcome

/-!
# Other line numbers

Reading a declaration never looks at a line number: it only passes them on, into the constructs and
into the faults. So statements under other numbers make the same program, or the same fault, under
these numbers (`takeAll_renumber`).
-/

set_option autoImplicit false

namespace RecordInference

/-! ### Constructs under other line numbers -/

section

variable (f : Nat → Nat)

/-- The field on the line that stands for its line. -/
def Field.renumber (x : Field) : Field := { x with line := f x.line }

/-- The definition on other lines. -/
def Definition.renumber (d : Definition) : Definition :=
  { d with fields := d.fields.map (Field.renumber f), line := f d.line }

/-- The inference step on another line. -/
def InferenceStep.renumber (step : InferenceStep) : InferenceStep :=
  { step with line := f step.line }

/-- The construct on another line. -/
def Step.renumber : Step → Step
  | source locator line => source locator (f line)
  | inference step => inference (step.renumber f)
  | rule expression line => rule expression (f line)
  | output locator line => output locator (f line)
  | set overrides line => set overrides (f line)

/-- The program on other lines. -/
def Program.renumber (p : Program) : Program :=
  ⟨p.definitions.map (Definition.renumber f), p.settings, p.pipeline.map (Step.renumber f)⟩

namespace Declaration

/-- The cause with another line for the definition that it quotes. -/
def Cause.renumber : Cause → Cause
  | duplicateDefinition name line => duplicateDefinition name (f line)
  | cause => cause

/-- The fault on other lines. -/
def Fault.renumber (fault : Fault) : Fault := ⟨f fault.line, fault.cause.renumber f⟩

/-- The open definition on other lines. -/
def Block.renumber (b : Block) : Block := { b with definition := b.definition.renumber f }

/-- What has been read, on other lines. -/
def State.renumber (s : State) : State :=
  { s with
    definitions := s.definitions.map (Definition.renumber f)
    block := s.block.map (Block.renumber f)
    pipeline := s.pipeline.map (Step.renumber f) }

/-- The statement under another number. -/
def Statement.renumber (st : Statement) : Statement := { st with line := f st.line }

end Declaration

end

namespace Declaration

open Text

/-! ### Readers that know no line -/

/-- A reader that quotes no line in its faults. -/
def Lineless {α : Type} (x : Except Cause α) : Prop := ∀ f, x.bimap (Cause.renumber f) id = x

namespace Lineless

variable {α β : Type} {x : Except Cause α}

theorem cause_eq {cause : Cause} (h : Lineless (.error cause : Except Cause α)) (f : Nat → Nat) :
    cause.renumber f = cause := Except.error.inj (h f)

theorem map (h : Lineless x) (g : α → β) : Lineless (x.map g) := by
  intro f
  cases x with
  | error cause => exact congrArg Except.error (h.cause_eq f)
  | ok a => rfl

theorem bind {k : α → Except Cause β} (h : Lineless x) (goOn : ∀ a, Lineless (k a)) :
    Lineless (x >>= k) := by
  intro f
  cases x with
  | error cause => exact congrArg Except.error (h.cause_eq f)
  | ok a => exact goOn a f

/-- What goes on from a value without lines may pass a line on. -/
theorem bind_bimap (h : Lineless x) {f : Nat → Nat} {g : β → β} {k k' : α → Except Cause β}
    (goOn : ∀ a, k' a = (k a).bimap (Cause.renumber f) g) :
    x >>= k' = (x >>= k).bimap (Cause.renumber f) g := by
  cases x with
  | error cause => exact congrArg Except.error (h.cause_eq f).symm
  | ok a => exact goOn a

theorem map_bimap (h : Lineless x) {f : Nat → Nat} {g : β → β} {k k' : α → β}
    (goOn : ∀ a, k' a = g (k a)) : x.map k' = (x.map k).bimap (Cause.renumber f) g := by
  cases x with
  | error cause => exact congrArg Except.error (h.cause_eq f).symm
  | ok a => exact congrArg Except.ok (goOn a)

end Lineless

theorem lineless_distinctValues (token : List Char) (seen : List String)
    (pieces : List (List Char)) : Lineless (distinctValues token seen pieces) := by
  induction pieces generalizing seen with
  | nil => exact fun _ => rfl
  | cons piece rest ih =>
      simp only [distinctValues]
      split
      · exact fun _ => rfl
      · split
        · exact fun _ => rfl
        · exact ih _

theorem lineless_readList (token : List Char) : Lineless (readList token) := by
  rw [readList]
  split
  · exact fun _ => rfl
  · exact lineless_distinctValues token [] _

theorem lineless_readType (text : List Char) : Lineless (readType text) := by
  simp only [readType]
  split
  · repeat' split
    all_goals exact fun _ => rfl
  · split
    · exact fun _ => rfl
    · exact fun _ => rfl
  · split
    · exact (lineless_readList _).map _
    · split
      · exact fun _ => rfl
      · exact fun _ => rfl
  · exact fun _ => rfl

theorem lineless_readValue (parameter value : List Char) :
    Lineless (readValue parameter value) := by
  simp only [readValue]
  repeat' split
  all_goals exact fun _ => rfl

theorem lineless_readOverride (rest : List Char) : Lineless (readOverride rest) := by
  simp only [readOverride]
  split
  · exact fun _ => rfl
  · refine (lineless_readValue _ _).bind fun o => ?_
    split
    · exact fun _ => rfl
    · exact fun _ => rfl

theorem lineless_required {missing : Cause} (h : ∀ f, missing.renumber f = missing)
    (rest : List Char) : Lineless (required missing rest) := by
  intro f
  rw [required]
  split
  · exact congrArg Except.error (h f)
  · rfl

theorem lineless_readCondition (rest : List Char) : Lineless (readCondition rest) := by
  simp only [readCondition]
  split
  · exact fun _ => rfl
  · exact lineless_required (fun _ => rfl) _

/-! ### Readers that pass a line on -/

variable {f : Nat → Nat}

theorem readField_renumber (line : Nat) (text : List Char) :
    readField (f line) text =
      (readField line text).bimap (Cause.renumber f) (Field.renumber f) := by
  simp only [readField]
  split
  · rfl
  · split
    · rfl
    · exact (lineless_readType _).map_bimap fun _ => rfl

theorem addField_renumber (d : Definition) (x : Field) :
    addField (d.renumber f) (x.renumber f) =
      (addField d x).bimap (Cause.renumber f) (Definition.renumber f) := by
  have same : (d.renumber f).fields.any (fun g => g.name = (x.renumber f).name) =
      d.fields.any (fun g => g.name = x.name) := by
    simp only [Definition.renumber, List.any_map]
    rfl
  rw [addField, addField, same]
  split
  · rfl
  · simp [Definition.renumber]

theorem define_renumber (line indent : Nat) (rest : List Char) (s : State) :
    define (f line) indent rest (s.renumber f) =
      (define line indent rest s).bimap (Cause.renumber f) (State.renumber f) := by
  simp only [define]
  split
  · rfl
  · have found : ∀ name, (s.renumber f).definitions.find? (fun d => d.name = name) =
        (s.definitions.find? fun d => d.name = name).map (Definition.renumber f) := by
      intro name
      rw [State.renumber, List.find?_map]
      rfl
    rw [found]
    cases s.definitions.find? fun d => d.name = String.ofList (trim (dropColons (trim rest))) with
    | none => rfl
    | some d => rfl

theorem joinRun_cons (o : Override) (step next : Step) (rest : List Step) :
    joinRun o (step :: next :: rest) = (joinRun o (next :: rest)).map (step :: ·) := by
  rw [joinRun]
  intro overrides line _ none
  cases none

theorem joinRun_renumber (o : Override) (pipeline : List Step) :
    joinRun o (pipeline.map (Step.renumber f)) =
      (joinRun o pipeline).map (List.map (Step.renumber f)) := by
  induction pipeline with
  | nil => rfl
  | cons step rest ih =>
      cases rest with
      | nil =>
          cases step with
          | source | inference | rule | output | set => rfl
      | cons next rest =>
          rw [List.map_cons] at ih
          rw [List.map_cons, List.map_cons, joinRun_cons, ih, joinRun_cons, Option.map_map,
            Option.map_map]
          rfl

theorem set_renumber (line : Nat) (o : Override) (s : State) :
    set (f line) o (s.renumber f) = (set line o s).renumber f := by
  have first : (s.renumber f).pipeline.isEmpty = s.pipeline.isEmpty := List.isEmpty_map
  have run : (if (s.renumber f).inRun then joinRun o (s.renumber f).pipeline else none) =
      (if s.inRun then joinRun o s.pipeline else none).map (List.map (Step.renumber f)) := by
    rw [State.renumber, joinRun_renumber]
    split
    · rfl
    · rfl
  simp only [set, first, run]
  split
  · rfl
  · cases if s.inRun then joinRun o s.pipeline else none with
    | none => simp [State.renumber, Step.renumber]
    | some pipeline => rfl

theorem resourceOf_renumber (kind : ResourceKind) (step : InferenceStep) :
    resourceOf kind (step.renumber f) = resourceOf kind step := by
  cases kind with
  | prompt | examples => rfl

theorem withResource_renumber (kind : ResourceKind) (name : String) (step : InferenceStep) :
    withResource kind name (step.renumber f) = (withResource kind name step).renumber f := by
  cases kind with
  | prompt | examples => rfl

theorem modify_renumber (tokens : List (List Char)) (step : InferenceStep) :
    modify tokens (step.renumber f) =
      (modify tokens step).bimap (Cause.renumber f) (InferenceStep.renumber f) := by
  fun_induction modify tokens step with
  | case1 step => rfl
  | case2 step token kind word =>
      simp only [modify, word]
      rfl
  | case3 step token other =>
      -- the word is no modifier, so the cause names the word and no line
      rw [modify]
      split
      · next kind word => exact absurd word (other kind)
      · rfl
  | case4 token name rest step kind word unnamed =>
      simp only [modify, word, unnamed, if_true]
      rfl
  | case5 token name rest step kind word named existing taken =>
      simp only [modify, word, named, resourceOf_renumber, taken]
      rfl
  | case6 token name rest step kind word named free ih =>
      simp only [modify, word, named, resourceOf_renumber, free, withResource_renumber, ih]
      rfl
  | case7 token name rest step other =>
      rw [modify]
      split
      · next kind word => exact absurd word (other kind)
      · rfl

theorem readStep_renumber (line : Nat) (verb : Verb) (rest : List Char) :
    readStep (f line) verb rest =
      (readStep line verb rest).bimap (Cause.renumber f) (InferenceStep.renumber f) := by
  simp only [readStep]
  split
  · rfl
  · split
    · rfl
    · split
      · split
        · split
          · rfl
          · refine (lineless_readList _).bind_bimap fun categories => ?_
            exact modify_renumber _ ⟨verb, _, some categories, none, none, line⟩
        · exact modify_renumber _ ⟨verb, _, none, none, none, line⟩
      · rfl

theorem amendLast_renumber {amend : InferenceStep → Except Cause InferenceStep}
    (amends : ∀ step, amend (step.renumber f) =
      (amend step).bimap (Cause.renumber f) (InferenceStep.renumber f)) (pipeline : List Step) :
    amendLast amend (pipeline.map (Step.renumber f)) =
      (amendLast amend pipeline).bimap (Cause.renumber f)
        (Option.map (List.map (Step.renumber f))) := by
  induction pipeline with
  | nil => rfl
  | cons step rest ih =>
      rw [List.map_cons, amendLast, ih, amendLast]
      refine Except.bimap_bind fun later => ?_
      cases later with
      | some rest => rfl
      | none =>
          cases step with
          | source | rule | output | set => rfl
          | inference step =>
              simp only [Step.renumber, Option.map_none, amends]
              exact Except.bimap_bind fun _ => rfl

theorem modifyLast_renumber (text : List Char) (s : State) :
    modifyLast text (s.renumber f) =
      (modifyLast text s).bimap (Cause.renumber f) (State.renumber f) := by
  have amended := amendLast_renumber (f := f) (modify_renumber (tokens text)) s.pipeline
  rw [modifyLast, State.renumber, amended, modifyLast]
  refine Except.bimap_bind fun pipeline => ?_
  cases pipeline with
  | none => rfl
  | some pipeline => rfl

/-! ### Statements -/

theorem construct_renumber (line indent : Nat) (keyword : Keyword) (text rest : List Char)
    (s : State) : construct (f line) indent keyword text rest (s.renumber f) =
      (construct line indent keyword text rest s).bimap (Cause.renumber f) (State.renumber f) := by
  have push : ∀ step, (State.renumber f { s with inRun := false }).push (step.renumber f) =
      State.renumber f (State.push { s with inRun := false } step) := by
    intro step
    simp [State.push, State.renumber]
  cases keyword with
  | define => exact define_renumber line indent rest { s with inRun := false }
  | set => exact (lineless_readOverride rest).map_bimap fun o => set_renumber line o s
  | modifier kind => exact modifyLast_renumber text { s with inRun := false }
  | source => exact (lineless_required (fun _ => rfl) rest).map_bimap fun l => push (.source l line)
  | output => exact (lineless_required (fun _ => rfl) rest).map_bimap fun l => push (.output l line)
  | flag => exact (lineless_readCondition rest).map_bimap fun c => push (.rule c line)
  | step verb =>
      simp only [construct, readStep_renumber]
      exact Except.map_bimap fun step => push (.inference step)

theorem topLine_renumber (line indent : Nat) (text : List Char) (s : State) :
    topLine (f line) indent text (s.renumber f) =
      (topLine line indent text s).bimap (Cause.renumber f) (State.renumber f) := by
  simp only [topLine]
  split
  · exact construct_renumber line indent _ text _ s
  · split
    · rfl
    · rfl

theorem close_renumber (s : State) : (s.renumber f).close = s.close.renumber f := by
  cases opened : s.block with
  | none => simp [State.close, State.allDefinitions, State.renumber, opened]
  | some block => simp [State.close, State.allDefinitions, State.renumber, opened, Block.renumber]

theorem take_renumber (s : State) (st : Statement) :
    (s.renumber f).take (st.renumber f) =
      (s.take st).bimap (Cause.renumber f) (State.renumber f) := by
  cases opened : s.block with
  | none =>
      have opened' : (s.renumber f).block = none := by simp [State.renumber, opened]
      simp only [State.take, opened, opened']
      exact topLine_renumber st.line st.indent st.text s
  | some block =>
      have opened' : (s.renumber f).block = some (block.renumber f) := by
        simp [State.renumber, opened]
      have deeper : (block.renumber f).indent < (st.renumber f).indent ↔ block.indent < st.indent :=
        Iff.rfl
      simp only [State.take, opened, opened', deeper]
      split
      · simp only [Statement.renumber, readField_renumber]
        refine Except.bimap_bind fun x => ?_
        simp only [Block.renumber, addField_renumber]
        exact Except.bimap_bind fun definition => rfl
      · rw [close_renumber]
        exact topLine_renumber st.line st.indent st.text s.close

/-- Statements under other numbers make the same program, or the same fault, under these. -/
theorem takeAll_renumber (sts : List Statement) (s : State) :
    takeAll (sts.map (Statement.renumber f)) (s.renumber f) =
      (takeAll sts s).bimap (Fault.renumber f) (State.renumber f) := by
  induction sts generalizing s with
  | nil => rfl
  | cons st rest ih =>
      rw [List.map_cons, takeAll, take_renumber, takeAll]
      cases s.take st with
      | error cause => rfl
      | ok s' => exact ih s'

theorem program_renumber (s : State) : (s.renumber f).program = s.program.renumber f := by
  have definitions : (s.renumber f).allDefinitions =
      s.allDefinitions.map (Definition.renumber f) := congrArg State.definitions (close_renumber s)
  rw [State.program, definitions, State.program]
  rfl

end Declaration

end RecordInference
