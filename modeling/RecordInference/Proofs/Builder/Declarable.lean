import RecordInference.Proofs.Builder.Checked
import RecordInference.Proofs.Builder.Listing

/-!
# Built programs that can be declared

A program that comes from calls without settings is listed with its parts on the lines that they are
numbered by (`Pipeline.listed_of_program`). The listing is read as the program exactly if the
program can be declared (`Pipeline.read_text_iff_declarable`). Calls take some things that no
declaration can say, and these are all: values with commas or line breaks in them, or with brackets
that do not hold a list together; a shape inside of another one under the word for a type; a target
that is a keyword; locators and rules that are not one trimmed line; and resources that have no name
that a loader would take.

What calls check and what can be declared make up what a reader asks for
(`Program.Checked.regular_iff`), and for such programs the lists are all that the listing depends on
(`Program.read_text`, `Program.unbroken_of_read_text`).
-/

set_option autoImplicit false

namespace RecordInference

open Text Declaration

/-! ### What can be declared -/

/-- Whether values can stand between commas on one line. -/
def PlainValues (values : List String) : Prop :=
  ∀ value ∈ values, ',' ∉ value.toList ∧ '\n' ∉ value.toList

/-- Whether values can stand in a list, and a reference is not taken for the word for a type. -/
def FieldType.Declarable : FieldType → Prop
  | .oneOf values => PlainValues values
  | .object name => isWord "TEXT" name.toList = false ∧ isWord "MONEY" name.toList = false ∧
      isWord "NUMBER" name.toList = false ∧ isWord "BOOL" name.toList = false
  | _ => True

/-- Whether the target of a step is not taken for a keyword, its categories can stand in a list, and
its resources have names. -/
structure InferenceStep.Declarable (step : InferenceStep) : Prop where
  target : keyword? step.target.toList = none ∧ isWord "INTO" step.target.toList = false
  categories : ∀ values ∈ step.categories, PlainValues values
  prompt : ∀ name ∈ step.prompt, isResourceName name.toList = true
  examples : ∀ name ∈ step.examples, isResourceName name.toList = true

/-- Whether a construct can stand on one line. -/
def Step.Declarable : Step → Prop
  | .source locator _ => OneLine locator.toList
  | .inference step => step.Declarable
  | .rule expression _ => '\n' ∉ expression.toList
  | .output locator _ => OneLine locator.toList
  | .set _ _ => True

/-- Whether a program can be declared as far as calls do not check it. -/
structure Program.Declarable (p : Program) : Prop where
  types : ∀ d ∈ p.definitions, ∀ f ∈ d.fields, f.type.Declarable
  pipeline : ∀ step ∈ p.pipeline, step.Declarable
  unbroken : p.Unbroken

instance (values : List String) : Decidable (PlainValues values) :=
  inferInstanceAs (Decidable (∀ value ∈ values, _ ∧ _))

instance : (type : FieldType) → Decidable type.Declarable
  | .oneOf values => inferInstanceAs (Decidable (PlainValues values))
  | .object _ => inferInstanceAs (Decidable (_ ∧ _ ∧ _ ∧ _))
  | .text | .money | .number | .yesNo | .listOf _ => .isTrue trivial

instance : (type : FieldType) → Decidable type.Unbroken
  | .oneOf _ => inferInstanceAs (Decidable (Declaration.Unbroken 0 _))
  | .text | .money | .number | .yesNo | .listOf _ | .object _ => .isTrue trivial

instance (step : InferenceStep) : Decidable step.Declarable :=
  decidable_of_iff
    ((keyword? step.target.toList = none ∧ isWord "INTO" step.target.toList = false) ∧
      (∀ values ∈ step.categories, PlainValues values) ∧
      (∀ name ∈ step.prompt, isResourceName name.toList = true) ∧
      ∀ name ∈ step.examples, isResourceName name.toList = true)
    ⟨fun ⟨target, categories, prompt, examples⟩ => ⟨target, categories, prompt, examples⟩,
      fun ⟨target, categories, prompt, examples⟩ => ⟨target, categories, prompt, examples⟩⟩

instance (step : InferenceStep) : Decidable step.Unbroken :=
  inferInstanceAs (Decidable (∀ values ∈ step.categories, _ ∧ _))

instance : (step : Step) → Decidable step.Declarable
  | .source _ _ | .output _ _ => inferInstanceAs (Decidable (Trimmed _ ∧ _))
  | .inference step => inferInstanceAs (Decidable step.Declarable)
  | .rule _ _ => inferInstanceAs (Decidable (_ ∉ _))
  | .set _ _ => .isTrue trivial

instance : (step : Step) → Decidable step.Unbroken
  | .inference step => inferInstanceAs (Decidable step.Unbroken)
  | .source _ _ | .rule _ _ | .output _ _ | .set _ _ => .isTrue trivial

instance (p : Program) : Decidable p.Declarable :=
  decidable_of_iff
    ((∀ d ∈ p.definitions, ∀ f ∈ d.fields, f.type.Declarable) ∧
      (∀ step ∈ p.pipeline, step.Declarable) ∧
      (∀ d ∈ p.definitions, ∀ f ∈ d.fields, f.type.Unbroken) ∧ ∀ step ∈ p.pipeline, step.Unbroken)
    ⟨fun ⟨types, pipeline, unbroken⟩ => ⟨types, pipeline, unbroken⟩,
      fun ⟨types, pipeline, unbroken⟩ => ⟨types, pipeline, unbroken⟩⟩

/-! ### What a reader asks for -/

/-- Values that are checked can be chosen from if they can stand in a list. -/
theorem CheckedValues.isChoice_iff {values : List String} (checked : CheckedValues values) :
    IsChoice values ↔ PlainValues values :=
  ⟨fun choice => choice.plain,
    fun plain => ⟨checked.some, checked.distinct, checked.trimmed, plain⟩⟩

theorem FieldType.Checked.regular_iff {type : FieldType} (checked : type.Checked) :
    type.Regular ↔ type.Declarable := by
  cases type with
  | text | money | number | yesNo => exact Iff.rfl
  | oneOf values => exact CheckedValues.isChoice_iff checked
  | listOf name => exact iff_of_true checked trivial
  | object name =>
      have identifier : isIdentifier name.toList = true := checked
      exact and_iff_right identifier

theorem Step.Checked.regular_iff {step : Step} (checked : step.Checked) :
    step.Regular ↔ step.Declarable := by
  cases step with
  | source | output => exact Iff.rfl
  | rule expression line =>
      have trimmed : Trimmed expression.toList := checked
      exact and_iff_right trimmed
  | set => exact checked.elim
  | inference step =>
      obtain ⟨identifier, categories⟩ := checked
      constructor
      · rintro ⟨target, choices, prompt, examples⟩
        exact ⟨target.2, fun values there => (choices values there).2.plain, prompt, examples⟩
      · rintro ⟨target, plain, prompt, examples⟩
        refine ⟨⟨identifier, target⟩, fun values there => ?_, prompt, examples⟩
        obtain ⟨classifies, checked⟩ := categories values there
        exact ⟨classifies, checked.isChoice_iff.2 (plain values there)⟩

namespace Program

variable {p : Program}

theorem Checked.isSet (h : p.Checked) : ∀ step ∈ p.pipeline, step.isSet = false := by
  intro step member
  cases step with
  | source | inference | rule | output => rfl
  | set => exact (h.pipeline _ member).elim

/-- A program that is checked is regular if its types and constructs can be declared. -/
theorem Checked.regular_iff (h : p.Checked) : p.Regular ↔
    (∀ d ∈ p.definitions, ∀ f ∈ d.fields, f.type.Declarable) ∧
      ∀ step ∈ p.pipeline, step.Declarable := by
  constructor
  · intro regular
    refine ⟨fun d defined f declared => ?_, fun step member => ?_⟩
    · have checked := ((h.definitions d defined).fields f declared).type
      exact checked.regular_iff.1 ((regular.definitions d defined).fields f declared).type
    · exact (h.pipeline step member).regular_iff.1 (regular.pipeline step member)
  · rintro ⟨types, steps⟩
    refine ⟨fun d defined => ?_, h.distinct, ?_, fun step member => ?_, fun step first => ?_⟩
    · obtain ⟨name, fields, distinct⟩ := h.definitions d defined
      refine ⟨name, fun f declared => ?_, distinct⟩
      obtain ⟨named, checked⟩ := fields f declared
      exact ⟨named, checked.regular_iff.2 (types d defined f declared)⟩
    · rw [h.settings]
      exact List.forall_mem_nil _
    · exact (h.pipeline step member).regular_iff.2 (steps step member)
    · exact h.isSet step (List.mem_of_mem_head? first)

end Program

/-! ### The numbers of lines -/

namespace Pipeline

/-- Fields that are numbered already are numbered as if they were not. -/
theorem numberFields_numberFields (n m : Nat) (fields : List Field) :
    numberFields n (numberFields m fields) = numberFields n fields := by
  induction fields generalizing n m with
  | nil => rfl
  | cons f rest ih => exact congrArg (_ :: ·) (ih (n + 1) (m + 1))

theorem length_numberFields (n : Nat) (fields : List Field) :
    (numberFields n fields).length = fields.length := by
  induction fields generalizing n with
  | nil => rfl
  | cons f rest ih => exact congrArg (· + 1) (ih (n + 1))

theorem numberDefinitions_numberDefinitions (n : Nat) (ds : List Definition) :
    numberDefinitions n (numberDefinitions n ds) = numberDefinitions n ds := by
  induction ds generalizing n with
  | nil => rfl
  | cons d rest ih =>
      simp only [numberDefinitions, numberFields_numberFields, length_numberFields, ih]

theorem lineCount_numberDefinitions (n : Nat) (ds : List Definition) :
    lineCount (numberDefinitions n ds) = lineCount ds := by
  induction ds generalizing n with
  | nil => rfl
  | cons d rest ih =>
      have count (d : Definition) (ds : List Definition) :
          lineCount (d :: ds) = 1 + d.fields.length + lineCount ds := rfl
      rw [numberDefinitions, count, count, ih, length_numberFields]

/-- Constructs that take their numbers as lines are on the lines that they are numbered by. -/
theorem lines_numberSteps {steps : List (Nat → Step)}
    (own : ∀ step ∈ steps, ∀ line, (step line).line = line) (n : Nat) :
    (numberSteps n steps).map Step.line = List.range' n (numberSteps n steps).length := by
  induction steps generalizing n with
  | nil => rfl
  | cons step rest ih =>
      obtain ⟨here, later⟩ := List.forall_mem_cons.1 own
      rw [numberSteps, List.map_cons, List.length_cons, List.range'_succ, here n, ih later]

theorem Draft.line_of_mem_steps {d : Draft} {step : Nat → Step} (member : step ∈ d.steps)
    (line : Nat) : (step line).line = line := by
  rcases mem_steps member with ⟨_, rfl⟩ | ⟨s, inside, rfl⟩ | ⟨_, -, rfl⟩ | ⟨_, rfl⟩
  · rfl
  · obtain ⟨bare, there, same⟩ := exists_bareStep inside
    obtain ⟨-, -, -, here⟩ := same line
    show (s line).line = line
    rw [here]
    rcases mem_bareSteps there with ⟨primary, -, rfl⟩ | ⟨field, rfl⟩
    · cases primary with
      | extract | classify => rfl
    · rfl
  · rfl
  · rfl

/-- A program that comes from calls is listed with its parts on the lines that they are numbered
by. -/
theorem listed_of_program {calls : List Call} {p : Program} (checked : p.Checked)
    (h : program calls = .ok p) : p.Listed := by
  have constructs := checked.isSet
  have settings := checked.settings
  obtain ⟨-, ds, -, rfl⟩ := Draft.of_program h
  refine ⟨settings, constructs, numberDefinitions_numberDefinitions 1 ds, ?_⟩
  show (numberSteps _ _).map Step.line = _
  rw [lineCount_numberDefinitions, lines_numberSteps]
  intro step member
  exact Draft.line_of_mem_steps member

/-! ### Reading what is listed -/

/-- The listing of a program that comes from calls without settings is read as the program, with the
numbers of its lines, exactly if the program can be declared. -/
theorem read_text_iff_declarable {calls : List Call}
    (shapes : ∀ shape, .extract shape ∈ calls → shape.Built) (unset : ∀ o, .set o ∉ calls)
    {p : Program} (h : program calls = .ok p) {margin : Nat} (pos : 0 < margin) :
    read (p.text margin) = .ok p ↔ p.Declarable := by
  have checked := checked_of_program shapes unset h
  have listed := listed_of_program checked h
  constructor
  · intro taken
    obtain ⟨s, lines, same⟩ := Except.map_eq_ok_iff.1 taken
    have regular : p.Regular := same ▸ (Program.regular_of_readLines lines).1
    obtain ⟨types, steps⟩ := checked.regular_iff.1 regular
    exact ⟨types, steps, Program.unbroken_of_read_text regular listed pos taken⟩
  · rintro ⟨types, steps, unbroken⟩
    have regular := checked.regular_iff.2 ⟨types, steps⟩
    exact Program.read_text regular listed unbroken pos

/-- A shape that another one refers to in two places, a value with brackets in it, and a prompt. -/
theorem read_text_iff_declarable_brackets :
    let person : Shape := ⟨⟨"person", [⟨"name", .text, 0⟩], 0⟩, []⟩
    let claim : Shape := ⟨⟨"claim", [⟨"kind", .oneOf ["car", "home [old]"], 0⟩,
      ⟨"parties", .listOf "person", 0⟩, ⟨"owner", .object "person", 0⟩], 0⟩, person.definitions⟩
    let calls : List Call := [.output "out", .extract claim, .source "in", .prompt "letter",
      .flag " kind IS \"car\" ", .draft "reply"]
    let p : Program := ⟨[⟨"person", [⟨"name", .text, 2⟩], 1⟩,
        ⟨"claim", [⟨"kind", .oneOf ["car", "home [old]"], 4⟩, ⟨"parties", .listOf "person", 5⟩,
          ⟨"owner", .object "person", 6⟩], 3⟩], [],
      [.source "in" 7, .inference ⟨.extract, "claim", none, some "letter", none, 8⟩,
        .inference ⟨.draft, "reply", none, none, none, 9⟩, .rule "kind IS \"car\"" 10,
        .output "out" 11]⟩
    (∀ shape, .extract shape ∈ calls → shape.Built) ∧ (∀ o, .set o ∉ calls) ∧
    program calls = .ok p ∧ p.text 2 =
      "DEFINE person:\n  name TEXT\nDEFINE claim:\n  kind ONE OF [car, home [old]]\n" ++
      "  parties LIST OF person\n  owner person\nFROM in\nEXTRACT claim WITH letter\n" ++
      "DRAFT reply\nFLAG WHEN kind IS \"car\"\nOUTPUT out\n" ∧
      p.Declarable ∧ read (p.text 2) = .ok p := by
  intro person claim calls p
  have first : Shape.build "person" [.text "name"] = .ok person := by rfl
  have second : Shape.build "claim" [.oneOf "kind" [" car", "home [old] "],
      .listOf "parties" person, .object "owner" person] = .ok claim := by rfl
  have built : person.Built := .calls (by simp [Shape.Call.shape?]) first
  have built' : claim.Built := .calls (by simp [Shape.Call.shape?, built]) second
  have shapes : ∀ shape, .extract shape ∈ calls → shape.Built := by
    simp [calls, built']
  have unset : ∀ o, .set o ∉ calls := by
    simp [calls]
  have finished : program calls = .ok p := by
    rfl
  have declarable : p.Declarable := by
    decide +kernel
  refine ⟨shapes, unset, finished, ?_, declarable, ?_⟩
  · decide +kernel
  exact (read_text_iff_declarable shapes unset finished (by decide)).2 declarable

/-- A category with a comma in it is read as two. -/
theorem read_text_ne_of_comma :
    let calls : List Call := [.classify "kind" ["a,b"]]
    ∃ p p', program calls = .ok p ∧
      p.text 2 = "CLASSIFY kind INTO [a,b]\nOUTPUT output.json\n" ∧
      read (p.text 2) = .ok p' ∧ p' ≠ p := by
  intro calls
  refine ⟨⟨[], [], [.inference ⟨.classify, "kind", some ["a,b"], none, none, 1⟩,
      .output "output.json" 2]⟩,
    ⟨[], [], [.inference ⟨.classify, "kind", some ["a", "b"], none, none, 1⟩,
      .output "output.json" 2]⟩, ?_, ?_, ?_, ?_⟩
  · rfl
  · decide +kernel
  · rfl
  · simp

end Pipeline

end RecordInference
