import RecordInference.Text.Line
import RecordInference.Text.Word

/-!
# Example sets

An example set is a text of `INPUT:` and `OUTPUT:` sections. A blank line or a further
`INPUT:` ends an example, and a line without a label belongs to the section above it.
-/

set_option autoImplicit false

namespace RecordInference

/-- A worked example. -/
structure Example where
  input : String
  output : String
deriving DecidableEq, Repr

namespace Example

/-- Why a text is no example set. Examples are counted from 1. -/
inductive Fault where
  | noOutput (number : Nat)
  | noInput (number : Nat)
  | twoOutputs (number : Nat)
  | noLabel (text : String)
  | noExample
deriving DecidableEq, Repr

/-- The text of a fault. -/
def Fault.message : Fault → String
  | noOutput n => s!"example {n} has INPUT but no OUTPUT"
  | noInput n => s!"example {n} has OUTPUT but no INPUT"
  | twoOutputs n => s!"example {n} has two OUTPUT sections"
  | noLabel text => s!"text before the first INPUT: '{text}'"
  | noExample => "no INPUT/OUTPUT pair found"

/-- The finished examples and the open sections. -/
structure State where
  done : List Example := []
  input : Option (List Char) := none
  output : Option (List Char) := none

/-- The number of the example under construction. -/
def State.number (s : State) : Nat := s.done.length + 1

/-- Ends the example under construction, if there is one. -/
def State.finish (s : State) : Except Fault State :=
  match s.input, s.output with
  | some i, some o =>
    .ok { done := s.done ++ [⟨String.ofList (Text.trim i), String.ofList (Text.trim o)⟩] }
  | some _, none => .error (.noOutput s.number)
  | none, some _ => .error (.noInput s.number)
  | none, none => .ok s

/-- What follows a label in front of a line, without blanks around it. The label is in upper
case; the line may have any case of ASCII letters. -/
def afterLabel? (label : String) (line : List Char) : Option (List Char) :=
  let n := label.length
  if Text.isWord label (line.take n) then some (Text.trim (line.drop n)) else none

/-- Takes up a line without the blanks around it. -/
def State.line (text : List Char) (s : State) : Except Fault State :=
  if text.isEmpty then s.finish
  else
    match afterLabel? "INPUT:" text with
    | some opened => do
      let s ← if s.input.isSome then s.finish else .ok s
      return { s with input := some opened }
    | none =>
      match afterLabel? "OUTPUT:" text with
      | some opened =>
        if s.output.isSome then .error (.twoOutputs s.number)
        else .ok { s with output := some opened }
      | none =>
        match s.output, s.input with
        | some o, _ => .ok { s with output := some (o ++ '\n' :: text) }
        | none, some i => .ok { s with input := some (i ++ '\n' :: text) }
        | none, none => .error (.noLabel (String.ofList text))

/-- Takes up lines one after the other. -/
def State.lines : List (List Char) → State → Except Fault State
  | [], s => .ok s
  | line :: rest, s => do State.lines rest (← s.line (Text.trim line))

/-- Reads an example set. -/
def read (text : String) : Except Fault (List Example) := do
  let s ← State.lines (Text.lines text.toList) {}
  let s ← s.finish
  if s.done.isEmpty then .error .noExample else return s.done

/-- The examples as a system prompt shows them, numbered from `number` on. -/
def renderFrom (number : Nat) : List Example → String
  | [] => ""
  | e :: rest =>
    s!"\nExample {number}:\nInput: {e.input}\nOutput: {e.output}\n" ++ renderFrom (number + 1) rest

/-- The examples as a system prompt shows them. -/
def render (examples : List Example) : String :=
  "Here are some examples:\n" ++ renderFrom 1 examples ++ "\nNow process the following input."

end Example

end RecordInference
