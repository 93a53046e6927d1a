import RecordInference.Text.Word

/-!
# Parameter settings

An override gives one inference parameter a value. `Override.fault?` says which override
is out of range.
-/

set_option autoImplicit false

namespace RecordInference

/-- A value for one inference parameter. -/
inductive Override where
  | model (name : String)
  | temperature (t : Float)
  | topP (p : Float)
  | seed (n : Nat)
  | maxTokens (n : Nat)
  | header (name value : String)

/-- The parameter for which a value is no good. -/
inductive OverrideFault where
  | model
  | temperature
  | topP
  | seed
  | maxTokens
  | header
deriving DecidableEq, Repr

/-- What was expected of the value. -/
def OverrideFault.expected : OverrideFault → String
  | model => "a model name"
  | temperature => "a temperature between 0 and 2"
  | topP => "a top_p between 0 and 1"
  | seed => "a non-negative integer seed"
  | maxTokens => "a positive max_tokens"
  | header => "a header name"

/-- Whether a text has only blanks. -/
def isBlankText (s : String) : Bool := s.toList.all Text.isBlank

/-- Whether `lo ≤ x ≤ hi`; false if `x` is not a number. -/
def isBetween (lo hi x : Float) : Bool := lo ≤ x && x ≤ hi

/-- The fault of an override: a blank model or header name, a temperature outside 0 to 2,
a `top_p` outside 0 to 1, or no tokens at all. -/
def Override.fault? : Override → Option OverrideFault
  | model name => if isBlankText name then some .model else none
  | temperature t => if isBetween 0 2 t then none else some .temperature
  | topP p => if isBetween 0 1 p then none else some .topP
  | seed _ => none
  | maxTokens n => if n = 0 then some .maxTokens else none
  | header name _ => if isBlankText name then some .header else none

end RecordInference
