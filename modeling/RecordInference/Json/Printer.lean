import RecordInference.Json.Basic
import RecordInference.Decimal.Layout

/-!
# JSON texts

`Json.compact` writes a value without blanks and `Json.indented` writes one member or
element a line. In texts only the quote, the backslash and the control characters below
U+0020 are escaped. Numbers that are not finite have no JSON form and are written `null`.
-/

set_option autoImplicit false

namespace RecordInference.Json

/-- A lower-case hexadecimal digit. -/
def hexDigit (n : Nat) : Char := if n < 10 then Char.ofNat (48 + n) else Char.ofNat (87 + n)

/-- A character as it stands inside a quoted text. -/
def escaped (c : Char) : List Char :=
  if c = '"' then ['\\', '"']
  else if c = '\\' then ['\\', '\\']
  else if c = '\n' then ['\\', 'n']
  else if c = '\r' then ['\\', 'r']
  else if c = '\t' then ['\\', 't']
  else if c = '\x08' then ['\\', 'b']
  else if c = '\x0c' then ['\\', 'f']
  else if c.toNat < 0x20 then
    ['\\', 'u', '0', '0', hexDigit (c.toNat / 16), hexDigit (c.toNat % 16)]
  else [c]

/-- A text in quotes. -/
def quoted (s : String) : List Char := '"' :: s.toList.flatMap escaped ++ ['"']

/-- Doubles keep a fraction and are written positionally from `10 ^ -5` to below `10 ^ 16`. -/
def numberLayout : Decimal.Layout where
  positional e := -5 ≤ e && e ≤ 15
  pointZero := true
  tie := .toEven

/-- A double; `null` if it is not finite. -/
def floatChars (x : Float) : List Char :=
  if x.isFinite then numberLayout.write x else "null".toList

/-- An integer in decimal digits. -/
def intChars (i : Int) : List Char :=
  (if i < 0 then ['-'] else []) ++ Nat.toDigits 10 i.natAbs

mutual

/-- The characters of a value without blanks. -/
def chars : Json → List Char
  | .null => "null".toList
  | .bool b => (if b then "true" else "false").toList
  | .int i => intChars i
  | .float x => floatChars x
  | .str s => quoted s
  | .arr items => '[' :: itemChars items
  | .obj members => '{' :: memberChars members

/-- The elements and the closing bracket. -/
def itemChars : List Json → List Char
  | [] => [']']
  | [v] => chars v ++ [']']
  | v :: rest => chars v ++ ',' :: itemChars rest

/-- The members and the closing brace. -/
def memberChars : List (String × Json) → List Char
  | [] => ['}']
  | [(k, v)] => quoted k ++ ':' :: chars v ++ ['}']
  | (k, v) :: rest => quoted k ++ ':' :: chars v ++ ',' :: memberChars rest

end

/-- The value on one line without blanks. -/
def compact (v : Json) : String := String.ofList (chars v)

/-- A new line with two blanks for each level. -/
def newline (depth : Nat) : List Char := '\n' :: List.replicate (2 * depth) ' '

mutual

/-- The characters of a value that stands at nesting depth `depth`. -/
def indentedChars (depth : Nat) : Json → List Char
  | .arr [] => ['[', ']']
  | .arr (v :: rest) => '[' :: newline (depth + 1) ++ indentedItems depth (v :: rest)
  | .obj [] => ['{', '}']
  | .obj (m :: rest) => '{' :: newline (depth + 1) ++ indentedMembers depth (m :: rest)
  | v => chars v

/-- The elements, each on its line, and the closing bracket. -/
def indentedItems (depth : Nat) : List Json → List Char
  | [] => newline depth ++ [']']
  | [v] => indentedChars (depth + 1) v ++ newline depth ++ [']']
  | v :: rest =>
    indentedChars (depth + 1) v ++ ',' :: newline (depth + 1) ++ indentedItems depth rest

/-- The members, each on its line, and the closing brace. -/
def indentedMembers (depth : Nat) : List (String × Json) → List Char
  | [] => newline depth ++ ['}']
  | [(k, v)] =>
    quoted k ++ ':' :: ' ' :: indentedChars (depth + 1) v ++ newline depth ++ ['}']
  | (k, v) :: rest =>
    quoted k ++ ':' :: ' ' :: indentedChars (depth + 1) v ++ ',' :: newline (depth + 1) ++
      indentedMembers depth rest

end

/-- The value over several lines, two blanks a level. -/
def indented (v : Json) : String := String.ofList (indentedChars 0 v)

end RecordInference.Json
