import RecordInference.Declaration.Program
import RecordInference.Json.Basic

/-!
# Inference parameters

Every verb has default parameters. Overrides are applied to them in order, so the last
override of a parameter decides; headers are kept by name.
-/

set_option autoImplicit false

namespace RecordInference

/-- The parameters of an inference call. -/
structure Parameters where
  model : Option String
  temperature : Float
  topP : Option Float
  seed : Option Nat
  maxTokens : Option Nat
  headers : Keyed String

namespace Parameters

/-- The parameters of a verb. Extraction and classification are to be reproducible. -/
def default : Verb → Parameters
  | .extract => ⟨none, 0.0, none, some 42, none, []⟩
  | .classify => ⟨none, 0.0, none, some 42, none, []⟩
  | .draft => ⟨none, 0.7, none, none, none, []⟩

/-- The parameters with one override. -/
def override (p : Parameters) : Override → Parameters
  | .model name => { p with model := some name }
  | .temperature t => { p with temperature := t }
  | .topP x => { p with topP := some x }
  | .seed n => { p with seed := some n }
  | .maxTokens n => { p with maxTokens := some n }
  | .header name value => { p with headers := Keyed.insert name value p.headers }

/-- The parameters of a verb under overrides. -/
def merge (verb : Verb) (overrides : List Override) : Parameters :=
  overrides.foldl override (default verb)

/-- The written form of parameters. -/
def toJson (p : Parameters) : Json :=
  .obj [("model", Json.ofOption .str p.model), ("temperature", .float p.temperature),
    ("top_p", Json.ofOption .float p.topP),
    ("seed", Json.ofOption (fun (n : Nat) => .int n) p.seed),
    ("max_tokens", Json.ofOption (fun (n : Nat) => .int n) p.maxTokens),
    ("headers", .obj (p.headers.map fun (name, value) => (name, .str value)))]

end Parameters

/-- The name of a verb in written forms. -/
def Verb.tag : Verb → String
  | extract => "extract"
  | classify => "classify"
  | draft => "draft"

end RecordInference
