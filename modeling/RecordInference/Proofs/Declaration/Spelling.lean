import RecordInference.Proofs.Declaration.Statement
import RecordInference.Proofs.Declaration.Token

/-!
# The declaration language

Which programs a declaration can say (`Program.WellFormed`), and which lines say them
(`Program.Written`). The lines are given by what they say (`Statement`), so blank lines and comments
may stand anywhere, and a line has its words with any blanks between them. Keywords may be in any
case, numbers in any form that denotes them, and the resources of a step in any order, on the line of
the step or on lines of their own below it.

The fields of a definition stand further to the right than its header, and the line after them does
not. Every construct has the number of its first line.
-/

set_option autoImplicit false

namespace RecordInference

open Text Declaration

/-! ### Programs that can be written -/

/-- Whether a text can stand at the end of a line: no blanks around it and no line end in it. -/
def OneLine (cs : List Char) : Prop := Trimmed cs ∧ '\n' ∉ cs

/-- Whether a field can be written. -/
structure Field.WellFormed (f : Field) : Prop where
  name : isIdentifier f.name.toList = true
  type : IsType f.type

/-- Whether a definition can be written. -/
structure Definition.WellFormed (d : Definition) : Prop where
  name : isIdentifier d.name.toList = true
  fields : ∀ f ∈ d.fields, f.WellFormed
  distinct : (d.fields.map (·.name)).Nodup

/-- Whether the value of an override can be written. Numbers have the size that they are kept in. -/
def Override.Writable : Override → Prop
  | .model name => OneLine name.toList
  | .seed n => n < UInt64.size
  | .maxTokens n => n < UInt32.size
  | .header name value => Solid name.toList ∧ OneLine value.toList
  | _ => True

/-- Whether an override can be written: it is in its range. -/
structure Override.WellFormed (o : Override) : Prop where
  inRange : o.fault? = none
  value : o.Writable

/-- Whether an inference step can be written. -/
structure InferenceStep.WellFormed (step : InferenceStep) : Prop where
  target : isTarget step.target.toList = true
  categories : ∀ values, step.categories = some values → step.verb = .classify ∧ IsList values
  prompt : ∀ name, step.prompt = some name → isResourceName name.toList = true
  examples : ∀ name, step.examples = some name → isResourceName name.toList = true

/-- Whether a construct can be written. -/
def Step.WellFormed : Step → Prop
  | .source locator _ => OneLine locator.toList
  | .inference step => step.WellFormed
  | .rule expression _ => OneLine expression.toList
  | .output locator _ => OneLine locator.toList
  | .set overrides _ => overrides ≠ [] ∧ ∀ o ∈ overrides, o.WellFormed

/-- Whether a construct consists of settings. -/
def Step.isSet : Step → Bool
  | .set _ _ => true
  | _ => false

/-- Whether a program can be written. Settings of the pipeline stand behind another construct, or
they would be taken for settings of all steps or of the construct of settings before them. -/
structure Program.WellFormed (p : Program) : Prop where
  definitions : ∀ d ∈ p.definitions, d.WellFormed
  distinct : (p.definitions.map (·.name)).Nodup
  settings : ∀ o ∈ p.settings, o.WellFormed
  pipeline : ∀ step ∈ p.pipeline, step.WellFormed
  first : ∀ step ∈ p.pipeline.head?, step.isSet = false
  apart : p.pipeline.IsChain fun step next => step.isSet = true → next.isSet = false

namespace Declaration

/-! ### Lines -/

/-- A name as the header of a definition has it: there may be colons behind it. -/
def Titled (name cs : List Char) : Prop :=
  ∃ bs colons, Blanks bs ∧ (∀ c ∈ colons, c = ':') ∧ (colons = [] → bs = []) ∧
    cs = name ++ bs ++ colons

/-- The words behind `SET` that write an override. -/
inductive SettingWords : Override → List (List Char) → Prop where
  | model {w : List Char} {name : String} : isWord "MODEL" w = true →
      SettingWords (.model name) [w, name.toList]
  | temperature {w n : List Char} {t : Float} : isWord "TEMPERATURE" w = true → Solid n →
      Decimal.readFloat? n = some t → SettingWords (.temperature t) [w, n]
  | topP {w n : List Char} {p : Float} : isWord "TOP_P" w = true → Solid n →
      Decimal.readFloat? n = some p → SettingWords (.topP p) [w, n]
  | seed {w n : List Char} {k : Nat} : isWord "SEED" w = true → Solid n →
      Decimal.readNat? (UInt64.size - 1) n = some k → SettingWords (.seed k) [w, n]
  | maxTokens {w n : List Char} {k : Nat} : isWord "MAX_TOKENS" w = true → Solid n →
      Decimal.readNat? (UInt32.size - 1) n = some k → SettingWords (.maxTokens k) [w, n]
  | header {w : List Char} {name value : String} : isWord "HEADER" w = true →
      SettingWords (.header name value) [w, name.toList, value.toList]

/-- Whether a word stands in front of the name of a resource of the kind. -/
def IsResourceWord : ResourceKind → List Char → Prop
  | .prompt, w => isWord "WITH" w = true ∨ isWord "PROMPT" w = true
  | .examples, w => isWord "USE" w = true

/-- The words that name resources, each behind a keyword of its kind. -/
inductive ResourceWords : List (ResourceKind × String) → List (List Char) → Prop where
  | nil : ResourceWords [] []
  | cons {kind : ResourceKind} {w : List Char} {name : String}
      {resources : List (ResourceKind × String)} {words : List (List Char)} :
      IsResourceWord kind w → ResourceWords resources words →
      ResourceWords ((kind, name) :: resources) (w :: name.toList :: words)

/-- The words behind the verb of a step that write its target, and its categories if it has some. -/
inductive TargetWords (step : InferenceStep) : List (List Char) → Prop where
  | alone : step.categories = none → TargetWords step [step.target.toList]
  | into {into list : List Char} {values : List String} : step.categories = some values →
      isWord "INTO" into = true → Listed values list →
      TargetWords step [step.target.toList, into, list]

/-- The resources that a step names. -/
def resources (step : InferenceStep) : List (ResourceKind × String) :=
  step.prompt.toList.map (ResourceKind.prompt, ·) ++
    step.examples.toList.map (ResourceKind.examples, ·)

namespace Statement

/-- The header of a definition. -/
def Opens (st : Statement) (d : Definition) : Prop :=
  st.line = d.line ∧ ∃ w title, isWord "DEFINE" w = true ∧ Titled d.name.toList title ∧
    Spaced [w, title] st.text

/-- The line of a field. -/
def Declares (st : Statement) (f : Field) : Prop :=
  st.line = f.line ∧ ∃ words, TypeWords f.type words ∧ Spaced (f.name.toList :: words) st.text

/-- The line of a setting. -/
def Sets (st : Statement) (o : Override) : Prop :=
  ∃ w words, isWord "SET" w = true ∧ SettingWords o words ∧ Spaced (w :: words) st.text

/-- A line that names resources for the step before it. -/
def Amends (st : Statement) (resources : List (ResourceKind × String)) : Prop :=
  resources ≠ [] ∧ ∃ words, ResourceWords resources words ∧ Spaced words st.text

/-- Whether a line does not stand further to the right than the header of the open definition. -/
def Outside (header : Option Nat) (st : Statement) : Prop := ∀ i ∈ header, st.indent ≤ i

end Statement

end Declaration

/-! ### Programs -/

/-- The lines of definitions, from a line on before which a header stands at `header`, and up to one
before which the last header stands at `header'`. -/
inductive DefinitionsWritten : Option Nat → List Definition → List Statement → Option Nat → Prop where
  | nil (header : Option Nat) : DefinitionsWritten header [] [] header
  | cons {header header' : Option Nat} {d : Definition} {ds : List Definition} {st : Statement}
      {fields sts : List Statement} : st.Outside header → st.Opens d →
      List.Forall₂ (fun (line : Statement) f => line.Declares f ∧ st.indent < line.indent)
        fields d.fields →
      DefinitionsWritten (some st.indent) ds sts header' →
      DefinitionsWritten header (d :: ds) (st :: (fields ++ sts)) header'

/-- The lines of a construct. -/
inductive Step.Written : Step → List Statement → Prop where
  | source {locator : String} {st : Statement} {w : List Char} : isWord "FROM" w = true →
      Spaced [w, locator.toList] st.text → Step.Written (.source locator st.line) [st]
  | output {locator : String} {st : Statement} {w : List Char} : isWord "OUTPUT" w = true →
      Spaced [w, locator.toList] st.text → Step.Written (.output locator st.line) [st]
  | rule {expression : String} {st : Statement} {w w' : List Char} : isWord "FLAG" w = true →
      isWord "WHEN" w' = true → Spaced [w, w', expression.toList] st.text →
      Step.Written (.rule expression st.line) [st]
  | set {overrides : List Override} {st : Statement} {sts : List Statement} :
      List.Forall₂ Statement.Sets (st :: sts) overrides →
      Step.Written (.set overrides st.line) (st :: sts)
  /-- The resources of a step may be on its line or on lines below, in any order. -/
  | inference {step : InferenceStep} {st : Statement} {sts : List Statement} {w : List Char}
      {target words : List (List Char)} {here : List (ResourceKind × String)}
      {below : List (List (ResourceKind × String))} : st.line = step.line →
      isWord step.verb.keyword w = true → TargetWords step target → ResourceWords here words →
      Spaced (w :: (target ++ words)) st.text → List.Forall₂ Statement.Amends sts below →
      (here ++ below.flatten).Perm (resources step) → Step.Written (.inference step) (st :: sts)

/-- The lines of a pipeline. -/
inductive PipelineWritten : List Step → List Statement → Prop where
  | nil : PipelineWritten [] []
  | cons {step : Step} {steps : List Step} {first sts : List Statement} : step.Written first →
      PipelineWritten steps sts → PipelineWritten (step :: steps) (first ++ sts)

/-- The lines of a program: the definitions, then the settings for all steps, then the pipeline. What
follows the definitions is not taken for a field. -/
def Program.Written (p : Program) (sts : List Statement) : Prop :=
  ∃ header definitions settings pipeline, sts = definitions ++ (settings ++ pipeline) ∧
    DefinitionsWritten none p.definitions definitions header ∧
    List.Forall₂ Statement.Sets settings p.settings ∧ PipelineWritten p.pipeline pipeline ∧
    ∀ st ∈ (settings ++ pipeline).head?, st.Outside header

end RecordInference
