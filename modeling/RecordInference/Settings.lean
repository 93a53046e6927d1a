import RecordInference.Text.Word
import RecordInference.Yaml.Mapping

/-!
# Run settings

How a run is carried out, apart from what it computes: how many records are under way at
once, how long a call may take, and a label for the run. Settings come from a YAML document
with a flat mapping; what it does not name keeps its default.
-/

set_option autoImplicit false

namespace RecordInference

/-- The settings of a run. -/
structure Settings where
  /-- The number of records that may be under way at once. -/
  concurrency : Nat := 4
  /-- The time that a call may take, in milliseconds. -/
  timeoutMs : Nat := 30000
  /-- The first part of the name of the run. -/
  runLabel : Option String := none
deriving DecidableEq, Repr

/-- What is wrong with settings. -/
inductive SettingsProblem where
  | noConcurrency
  | noTimeout
  | badLabel (label : String)
deriving DecidableEq, Repr

/-- The text of a problem. -/
def SettingsProblem.message : SettingsProblem → String
  | noConcurrency => "concurrency must be at least 1"
  | noTimeout => "timeout_ms must be at least 1"
  | badLabel label => s!"run_label '{label}' must be non-empty without whitespace"

/-- Why a run does not get its settings. -/
inductive SettingsError where
  | unreadable (path reason : String)
  | notSettings
  | problems (found : List SettingsProblem)
deriving DecidableEq, Repr

/-- The text of the error. -/
def SettingsError.message : SettingsError → String
  | unreadable path reason => s!"config error: failed to read {path}: {reason}"
  | notSettings => "config error: YAML parse error"
  | problems found => "config error: " ++ "; ".intercalate (found.map SettingsProblem.message)

namespace Settings

/-- Whether a label names a run: not empty and without blanks. -/
def isLabel (label : String) : Bool := !label.isEmpty && !label.toList.any Text.isBlank

/-- The problems of settings. -/
def problems (s : Settings) : List SettingsProblem :=
  (if s.concurrency = 0 then [.noConcurrency] else []) ++
    (if s.timeoutMs = 0 then [.noTimeout] else []) ++
    match s.runLabel with
    | some label => if isLabel label then [] else [.badLabel label]
    | none => []

/-- The settings, if they have no problems. -/
def checked (s : Settings) : Except SettingsError Settings :=
  if s.problems.isEmpty then .ok s else .error (.problems s.problems)

/-! ### Reading -/

/-- The greatest number of a setting. -/
def numberLimit : Nat := UInt64.size - 1

/-- The value of digits in a base, if there are any and none other. -/
def digitsIn? (base : Nat) (digits : List Char) : Option Nat :=
  if digits.isEmpty then none
  else
    digits.foldl
      (fun value c => do
        let value ← value
        let digit ← Yaml.hexValue? c
        if digit < base then some (base * value + digit) else none)
      (some 0)

/-- The number without a sign that a text denotes: with a base in front, or decimal without
needless zeros. -/
def unsigned? : List Char → Option Nat
  | ['0'] => some 0
  | '0' :: 'x' :: digits => digitsIn? 16 digits
  | '0' :: 'o' :: digits => digitsIn? 8 digits
  | '0' :: 'b' :: digits => digitsIn? 2 digits
  | '0' :: _ => none
  | digits => digitsIn? 10 digits

/-- The tag of integers. -/
def integerTag : List Char := "tag:yaml.org,2002:int".toList

/-- The tag of no value at all. -/
def nullTag : List Char := "tag:yaml.org,2002:null".toList

/-- The number that a value denotes. Other than plain ones, only literal blocks that are tagged
as integers are numbers. -/
def number? (value : Yaml.Scalar) : Option Nat :=
  if value.style = .plain || (value.style = .literal && value.tag = some integerTag) then
    (unsigned? (match value.text with | '+' :: cs => cs | cs => cs)).filter (· ≤ numberLimit)
  else none

/-- The spellings of no value at all. -/
def isNull (text : List Char) : Bool := ["~", "null", "Null", "NULL"].contains (String.ofList text)

/-- The label that a value denotes, if any. What is not plain or has a tag is a text, but the
tag of no value takes only its spellings. -/
def label? (value : Yaml.Scalar) : Option (Option String) :=
  let text := some (some (String.ofList value.text))
  if value.style ≠ .plain then text
  else
    match value.tag with
    | none => if value.text.isEmpty || isNull value.text then some none else text
    | some tag =>
      if tag ≠ nullTag then text else if isNull value.text then some none else none

/-- The settings with one entry of a document. -/
def take (s : Settings) (entry : Yaml.Scalar × Yaml.Scalar) : Option Settings :=
  let (key, value) := entry
  if key.text = "concurrency".toList then
    (number? value).map fun n => { s with concurrency := n }
  else if key.text = "timeout_ms".toList then
    (number? value).map fun n => { s with timeoutMs := n }
  else if key.text = "run_label".toList then
    (label? value).map fun label => { s with runLabel := label }
  else none

/-- The settings that the entries of a document give. No key occurs twice. -/
def ofEntries? (entries : List (Yaml.Scalar × Yaml.Scalar)) : Option Settings :=
  if (entries.map fun e => e.1.text).Nodup then entries.foldlM take {} else none

/-- The settings that a document gives, checked. -/
def read (text : String) : Except SettingsError Settings :=
  match (Yaml.readMapping? text.toList).bind ofEntries? with
  | none => .error .notSettings
  | some s => s.checked

end Settings

end RecordInference
