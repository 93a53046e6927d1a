import RecordInference.Declaration.Token
import RecordInference.Decimal.Numeral

/-!
# Reading a declaration

A declaration is read line by line, and the first word of a line names its construct.
`DEFINE` opens a block: the lines below it that stand further to the right are its fields.
Blank lines and lines that open with `--` say nothing. Settings in front of the first step
of the pipeline hold for all steps; later ones form a construct of the pipeline, one for
each run of neighbouring `SET` lines.
-/

set_option autoImplicit false

namespace RecordInference.Declaration

open Text

/-- The words that open a construct. -/
inductive Keyword where
  | define
  | set
  | source
  | step (verb : Verb)
  | modifier (kind : ResourceKind)
  | flag
  | output
deriving DecidableEq, Repr

/-- The construct that a word opens. -/
def keyword? (word : List Char) : Option Keyword :=
  if isWord "DEFINE" word then some .define
  else if isWord "SET" word then some .set
  else if isWord "FROM" word then some .source
  else if isWord "EXTRACT" word then some (.step .extract)
  else if isWord "CLASSIFY" word then some (.step .classify)
  else if isWord "DRAFT" word then some (.step .draft)
  else if isWord "WITH" word || isWord "PROMPT" word then some (.modifier .prompt)
  else if isWord "USE" word then some (.modifier .examples)
  else if isWord "FLAG" word then some .flag
  else if isWord "OUTPUT" word then some .output
  else none

/-- The definition under construction: the indentation of its header, and what it has so far. -/
structure Block where
  indent : Nat
  definition : Definition

/-- What has been read. -/
structure State where
  definitions : List Definition := []
  block : Option Block := none
  settings : List Override := []
  pipeline : List Step := []
  /-- The line before was a setting in the pipeline. -/
  inRun : Bool := false

/-- The definitions, the open one last. -/
def State.allDefinitions (s : State) : List Definition :=
  s.definitions ++ (s.block.map (·.definition)).toList

/-- The program read. -/
def State.program (s : State) : Program := ⟨s.allDefinitions, s.settings, s.pipeline⟩

/-- The state with its open definition closed. -/
def State.close (s : State) : State := { s with definitions := s.allDefinitions, block := none }

/-! ### Definitions -/

/-- The text without the colons at its end. -/
def dropColons : List Char → List Char
  | [] => []
  | c :: rest =>
    match dropColons rest with
    | [] => if c = ':' then [] else [c]
    | kept => c :: kept

/-- Opens a definition. -/
def define (line indent : Nat) (rest : List Char) (s : State) : Except Cause State :=
  let name := trim (dropColons (trim rest))
  if !isIdentifier name then .error (.definitionName (String.ofList (trim rest)))
  else
    match s.definitions.find? fun d => d.name = String.ofList name with
    | some d => .error (.duplicateDefinition d.name d.line)
    | none => .ok { s with block := some ⟨indent, ⟨String.ofList name, [], line⟩⟩ }

/-- The field that a line of a block declares, apart from the other fields. -/
def readField (line : Nat) (text : List Char) : Except Cause Field :=
  let (name, rest) := firstWord text
  if !isIdentifier name then .error (.fieldName (String.ofList name))
  else if rest.isEmpty then .error (.fieldTypeMissing (String.ofList name))
  else (readType rest).map fun type => ⟨String.ofList name, type, line⟩

/-- Adds a field to a definition that has none of its name. -/
def addField (d : Definition) (f : Field) : Except Cause Definition :=
  if d.fields.any fun g => g.name = f.name then .error (.duplicateField d.name f.name)
  else .ok { d with fields := d.fields ++ [f] }

/-! ### Settings -/

/-- The override that the rest of a `SET` line gives, before its range is checked. -/
def readValue (parameter value : List Char) : Except Cause Override :=
  let text := String.ofList value
  let orElse := fun (fault : OverrideFault) (o : Option Override) =>
    match o with
    | some o => (.ok o : Except Cause Override)
    | none => .error (.overrideValue fault text)
  if isWord "MODEL" parameter then .ok (.model text)
  else if isWord "TEMPERATURE" parameter then
    orElse .temperature ((Decimal.readFloat? value).map .temperature)
  else if isWord "TOP_P" parameter then orElse .topP ((Decimal.readFloat? value).map .topP)
  else if isWord "SEED" parameter then
    orElse .seed ((Decimal.readNat? (UInt64.size - 1) value).map .seed)
  else if isWord "MAX_TOKENS" parameter then
    orElse .maxTokens ((Decimal.readNat? (UInt32.size - 1) value).map .maxTokens)
  else if isWord "HEADER" parameter then
    let (name, content) := firstWord value
    if (trim content).isEmpty then .error (.headerForm text)
    else .ok (.header (String.ofList name) (String.ofList (trim content)))
  else .error (.unknownParameter (String.ofList parameter))

/-- The override that the rest of a `SET` line gives. -/
def readOverride (rest : List Char) : Except Cause Override :=
  let (parameter, value) := firstWord rest
  let value := trim value
  if value.isEmpty then .error (.overrideValueMissing (String.ofList parameter))
  else do
    let o ← readValue parameter value
    match o.fault? with
    | some fault => .error (.overrideValue fault (String.ofList value))
    | none => .ok o

/-- Joins a setting to the run of settings that ends the pipeline. -/
def joinRun (o : Override) : List Step → Option (List Step)
  | [] => none
  | [.set overrides line] => some [.set (overrides ++ [o]) line]
  | step :: rest => (joinRun o rest).map (step :: ·)

/-- Takes up a setting: for all steps if there is none yet, else in the pipeline. -/
def set (line : Nat) (o : Override) (s : State) : State :=
  if s.pipeline.isEmpty then { s with settings := s.settings ++ [o] }
  else
    -- neighbouring settings are one construct, with the line of the first
    match if s.inRun then joinRun o s.pipeline else none with
    | some pipeline => { s with pipeline }
    | none => { s with pipeline := s.pipeline ++ [.set [o] line], inRun := true }

/-! ### Steps -/

/-- The resource of a kind that a step names. -/
def resourceOf (kind : ResourceKind) (step : InferenceStep) : Option String :=
  match kind with
  | .prompt => step.prompt
  | .examples => step.examples

/-- The step with a resource of a kind. -/
def withResource (kind : ResourceKind) (name : String) (step : InferenceStep) : InferenceStep :=
  match kind with
  | .prompt => { step with prompt := some name }
  | .examples => { step with examples := some name }

/-- Adds to a step the resources that the tokens name, a keyword and a name each. -/
def modify : List (List Char) → InferenceStep → Except Cause InferenceStep
  | [], step => .ok step
  | [token], _ =>
    match keyword? token with
    | some (.modifier _) => .error (.resourceName (String.ofList token) none)
    | _ => .error (.unknownModifier (String.ofList token))
  | token :: name :: rest, step =>
    match keyword? token with
    | some (.modifier kind) =>
      if !isResourceName name then
        .error (.resourceName (String.ofList token) (some (String.ofList name)))
      else
        match resourceOf kind step with
        | some existing => .error (.duplicateModifier kind (String.ofList name) existing)
        | none => modify rest (withResource kind (String.ofList name) step)
    | _ => .error (.unknownModifier (String.ofList token))

/-- Whether a token may be the target of a step. -/
def isTarget (token : List Char) : Bool :=
  isIdentifier token && (keyword? token).isNone && !isWord "INTO" token

/-- The inference step that the rest of its line describes. -/
def readStep (line : Nat) (verb : Verb) (rest : List Char) : Except Cause InferenceStep :=
  match tokens rest with
  | [] => .error (.stepTarget verb none)
  | target :: modifiers =>
    if !isTarget target then .error (.stepTarget verb (some (String.ofList target)))
    else
      let step : InferenceStep := ⟨verb, String.ofList target, none, none, none, line⟩
      match modifiers with
      | into :: more =>
        -- a list of categories comes before the resources, and only in a classification
        if verb = .classify && isWord "INTO" into then
          match more with
          | [] => .error (.listMissing .into)
          | list :: modifiers => do
            let categories ← readList list
            modify modifiers { step with categories := some categories }
        else modify modifiers step
      | [] => .ok step

/-- Changes the last inference step of a pipeline, if there is one. -/
def amendLast (f : InferenceStep → Except Cause InferenceStep) :
    List Step → Except Cause (Option (List Step))
  | [] => .ok none
  | step :: rest => do
    match ← amendLast f rest, step with
    | some rest, step => .ok (some (step :: rest))
    | none, .inference i => do return some (.inference (← f i) :: rest)
    | none, _ => .ok none

/-- A line that only adds resources to the step before it. -/
def modifyLast (text : List Char) (s : State) : Except Cause State := do
  match ← amendLast (modify (tokens text)) s.pipeline with
  | some pipeline => .ok { s with pipeline }
  | none => .error (.modifierWithoutStep (String.ofList text))

/-! ### Lines -/

/-- The text that a keyword takes after it. -/
def required (missing : Cause) (rest : List Char) : Except Cause String :=
  if (trim rest).isEmpty then .error missing else .ok (String.ofList (trim rest))

/-- The condition of a flag. -/
def readCondition (rest : List Char) : Except Cause String :=
  let (opening, condition) := firstWord rest
  if !isWord "WHEN" opening then .error (.whenMissing (String.ofList opening))
  else required .conditionMissing condition

/-- Adds a construct at the end of the pipeline. -/
def State.push (s : State) (step : Step) : State := { s with pipeline := s.pipeline ++ [step] }

/-- Takes up a line that opens with a keyword. `text` is the line, `rest` what follows the
keyword. -/
def construct (line indent : Nat) (keyword : Keyword) (text rest : List Char) (s : State) :
    Except Cause State :=
  let s := if keyword = .set then s else { s with inRun := false }
  match keyword with
  | .define => define line indent rest s
  | .set => (readOverride rest).map fun o => set line o s
  | .source => (required (.locatorMissing true) rest).map fun l => s.push (.source l line)
  | .output => (required (.locatorMissing false) rest).map fun l => s.push (.output l line)
  | .step verb => (readStep line verb rest).map fun step => s.push (.inference step)
  | .modifier _ => modifyLast text s
  | .flag => (readCondition rest).map fun c => s.push (.rule c line)

/-- Takes up a line outside of any block. -/
def topLine (line indent : Nat) (text : List Char) (s : State) : Except Cause State :=
  let (head, rest) := firstWord text
  match keyword? head with
  | some keyword => construct line indent keyword text rest s
  | none =>
    if 0 < indent then .error (.fieldOutsideBlock (String.ofList text))
    else .error (.unknownConstruct (String.ofList head))

/-- Whether a line without the blanks around it says nothing. -/
def isSilent : List Char → Bool
  | [] => true
  | '-' :: '-' :: _ => true
  | _ => false

/-- Takes up one line. -/
def readLine (line : Nat) (raw : List Char) (s : State) : Except Cause State :=
  let text := trim raw
  if isSilent text then .ok s
  else
    match s.block with
    | some block =>
      if block.indent < indent raw then do
        let definition ← addField block.definition (← readField line text)
        return { s with block := some { block with definition } }
      else topLine line (indent raw) text s.close
    | none => topLine line (indent raw) text s

/-- Takes up the lines from line number `line` on. -/
def readLines (line : Nat) : List (List Char) → State → Except Fault State
  | [], s => .ok s
  | raw :: rest, s =>
    match readLine line raw s with
    | .error cause => .error ⟨line, cause⟩
    | .ok s => readLines (line + 1) rest s

/-- The program that a declaration describes. -/
def read (text : String) : Except Fault Program :=
  (readLines 1 (lines text.toList) {}).map State.program

end RecordInference.Declaration
