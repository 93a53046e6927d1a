import RecordInference.Declaration.Fault
import RecordInference.Text.Line
import RecordInference.Text.Word

/-!
# Tokens of a declaration line

Blanks separate tokens, except between brackets, so that a list in brackets is one token.
-/

set_option autoImplicit false

namespace RecordInference.Declaration

open Text

/-- A token in front of the tokens that follow it, unless it is empty. -/
def joinToken (token : List Char) (tokens : List (List Char)) : List (List Char) :=
  if token.isEmpty then tokens else token :: tokens

/-- The characters up to the end of the current token, and the tokens after it, when `depth`
brackets are open. A closing bracket without an opening one changes nothing. -/
def tokensFrom (depth : Nat) : List Char → List Char × List (List Char)
  | [] => ([], [])
  | c :: rest =>
    if isBlank c && depth = 0 then
      let (token, tokens) := tokensFrom 0 rest
      ([], joinToken token tokens)
    else
      let depth := if c = '[' then depth + 1 else if c = ']' then depth - 1 else depth
      let (token, tokens) := tokensFrom depth rest
      (c :: token, tokens)

/-- The tokens of a text. -/
def tokens (cs : List Char) : List (List Char) :=
  let (token, tokens) := tokensFrom 0 cs
  joinToken token tokens

/-- What stands between the bracket that opens a token and the one that closes it. -/
def unbracket? : List Char → Option (List Char)
  | '[' :: inner => if inner.getLast? = some ']' then some inner.dropLast else none
  | _ => none

/-- Values that are not empty and differ from each other and from those in `seen`. -/
def distinctValues (token : List Char) (seen : List String) :
    List (List Char) → Except Cause (List String)
  | [] => .ok seen
  | piece :: pieces =>
    let value := String.ofList (trim piece)
    if value.isEmpty then .error (.emptyListValue (String.ofList token))
    else if value ∈ seen then .error (.duplicateListValue value)
    else distinctValues token (seen ++ [value]) pieces

/-- A list of values between brackets, separated by commas. -/
def readList (token : List Char) : Except Cause (List String) :=
  match unbracket? token with
  | none => .error (.unbracketedList (String.ofList token))
  | some inner => distinctValues token [] (splitOn ',' inner)

/-- The type of a field. -/
def readType (text : List Char) : Except Cause FieldType :=
  let unknown : Except Cause FieldType := .error (.fieldType (String.ofList text))
  match tokens text with
  | [t] =>
    if isWord "TEXT" t then .ok .text
    else if isWord "MONEY" t then .ok .money
    else if isWord "NUMBER" t then .ok .number
    else if isWord "YES/NO" t || isWord "BOOL" t then .ok .yesNo
    else if isIdentifier t then .ok (.object (String.ofList t))
    else unknown
  | [one, of] =>
    if isWord "ONE" one && isWord "OF" of then .error (.listMissing .oneOf) else unknown
  | [first, of, t] =>
    if isWord "ONE" first && isWord "OF" of then (readList t).map .oneOf
    else if isWord "LIST" first && isWord "OF" of && isIdentifier t then
      .ok (.listOf (String.ofList t))
    else unknown
  | _ => unknown

end RecordInference.Declaration
