import RecordInference.Yaml.Glyph

/-!
# Scalars

A scalar within lines is plain, or it stands in single or double quotes. In all three styles
it may go on over several lines: a single line break stands for a space, and of several breaks the
first says nothing.
-/

set_option autoImplicit false

namespace RecordInference.Yaml

/-- How a scalar is written. -/
inductive Style where
  /-- As it is. -/
  | plain
  /-- In quotes of either kind. -/
  | quoted
  /-- As a block whose line breaks stand for themselves. -/
  | literal
  /-- As a block whose single line breaks stand for spaces. -/
  | folded
deriving DecidableEq, Repr

/-- The blanks and breaks since the last character of a scalar. -/
inductive Gap where
  /-- Blanks on one line. -/
  | blanks (cs : List Char)
  /-- Line breaks; the first one is missing where a backslash has taken it away. -/
  | breaks (first : Option Char) (more : List Char)
deriving DecidableEq, Repr

namespace Gap

/-- Nothing since the last character. -/
def empty : Gap := blanks []

/-- Whether a line has ended in the gap. -/
def crosses : Gap → Bool
  | blanks _ => false
  | breaks _ _ => true

/-- Whether there is anything in the gap. -/
def isEmpty : Gap → Bool
  | blanks cs => cs.isEmpty
  | breaks _ _ => false

/-- The gap with one more blank or break. After a break, blanks say nothing. -/
def push (c : Char) : Gap → Gap
  | blanks cs => if isBreak c then breaks (some c) [] else blanks (cs ++ [c])
  | breaks first more => if isBreak c then breaks first (more ++ [c]) else breaks first more

/-- What the gap stands for. -/
def text : Gap → List Char
  | blanks cs => cs
  | breaks none more => more
  -- a line feed is folded, and the rarer breaks stand for themselves
  | breaks (some '\n') [] => [' ']
  | breaks (some '\n') more => more
  | breaks (some c) more => c :: more

end Gap

/-! ### Plain scalars -/

/-- The characters that have a meaning of their own between brackets. -/
def isFlowIndicator (c : Char) : Bool := c = ',' || c = '[' || c = ']' || c = '{' || c = '}'

/-- The characters with which no plain scalar starts. -/
def isIndicator (c : Char) : Bool := isFlowIndicator c || "-?:#&*!|>'\"%@`".toList.contains c

/-- Whether a plain scalar starts here. -/
def startsPlain (flow : Bool) : List Glyph → Bool
  | [] => false
  | g :: rest =>
    if g.char = '-' then !atWordEnd rest
    else if g.char = '?' || g.char = ':' then !flow && !atWordEnd rest
    else !isIndicator g.char && !isSpace g.char && !isBreak g.char

/-- Whether a plain scalar is over before the character `g`. -/
def endsPlain (flow : Bool) (least : Nat) (gap : Gap) (g : Glyph) (rest : List Glyph) : Bool :=
  (gap.crosses && !flow && g.column < least) || (!gap.isEmpty && g.char = '#') ||
    (gap.crosses && atMarker (g :: rest)) || (g.char = ':' && atWordEnd rest) ||
    (flow && isFlowIndicator g.char)

/-- Whether a colon between brackets stands right before a character with a meaning of its own. -/
def isStrayColon (flow : Bool) (g : Glyph) : List Glyph → Bool
  | [] => false
  | h :: _ => flow && g.char = ':' && (h.char = '?' || isFlowIndicator h.char)

/-- What the reader of a plain scalar has found. -/
structure PlainEnd where
  text : List Char
  /-- Whether a line ends between the scalar and what follows it. -/
  crosses : Bool
  /-- What follows the scalar and the gap behind it. -/
  rest : List Glyph

/-- The rest of a plain scalar after a gap. Outside of brackets it keeps to the columns from
`least` on, and nowhere may a tab stand in front of them. -/
def plainRest (flow : Bool) (least : Nat) (gap : Gap) : List Glyph → Option PlainEnd
  | [] => some ⟨[], gap.crosses, []⟩
  | g :: rest =>
    if isSpace g.char || isBreak g.char then
      if gap.crosses && g.char = '\t' && g.column < least then none
      else plainRest flow least (gap.push g.char) rest
    else if endsPlain flow least gap g rest then some ⟨[], gap.crosses, g :: rest⟩
    else if isStrayColon flow g rest then none
    else
      (plainRest flow least .empty rest).map fun e =>
        { e with text := gap.text ++ g.char :: e.text }

/-! ### Quoted scalars -/

/-- What the reader of a quoted scalar is in the middle of. -/
inductive Within where
  | text (gap : Gap)
  /-- After a quote that may be the first of two. -/
  | quote
  /-- After a backslash. -/
  | escape
  /-- In the number of a character, with so many digits to come. -/
  | code (digits value : Nat)
deriving DecidableEq, Repr

/-- The rest of a scalar in single quotes, in which a quote is written twice. -/
def singleQuoted : Within → List Glyph → Option (List Char × List Glyph)
  | .quote, [] => some ([], [])
  | .quote, g :: rest =>
    if g.char = '\'' then
      (singleQuoted (.text .empty) rest).map fun (cs, after) => ('\'' :: cs, after)
    else some ([], g :: rest)
  | .text gap, g :: rest =>
    if gap.crosses && atMarker (g :: rest) then none
    else if isSpace g.char || isBreak g.char then singleQuoted (.text (gap.push g.char)) rest
    else if g.char = '\'' then
      (singleQuoted .quote rest).map fun (cs, after) => (gap.text ++ cs, after)
    else
      (singleQuoted (.text .empty) rest).map fun (cs, after) => (gap.text ++ g.char :: cs, after)
  | _, _ => none

/-- The characters that a letter after a backslash stands for. -/
def escapes : List (Char × Char) :=
  [('0', '\x00'), ('a', '\x07'), ('b', '\x08'), ('t', '\t'), ('\t', '\t'), ('n', '\n'),
   ('v', '\x0b'), ('f', '\x0c'), ('r', '\r'), ('e', '\x1b'), (' ', ' '), ('"', '"'),
   ('/', '/'), ('\\', '\\'), ('N', '\u0085'), ('_', '\u00a0'), ('L', '\u2028'), ('P', '\u2029')]

/-- The number of hexadecimal digits after a letter that introduces the number of a character. -/
def codeLength? (c : Char) : Option Nat :=
  if c = 'x' then some 2 else if c = 'u' then some 4 else if c = 'U' then some 8 else none

/-- The rest of a scalar in double quotes, in which a backslash opens an escape. -/
def doubleQuoted : Within → List Glyph → Option (List Char × List Glyph)
  | .text gap, g :: rest =>
    if gap.crosses && atMarker (g :: rest) then none
    else if isSpace g.char || isBreak g.char then doubleQuoted (.text (gap.push g.char)) rest
    else if g.char = '"' then some (gap.text, rest)
    else if g.char = '\\' then
      (doubleQuoted .escape rest).map fun (cs, after) => (gap.text ++ cs, after)
    else
      (doubleQuoted (.text .empty) rest).map fun (cs, after) => (gap.text ++ g.char :: cs, after)
  | .escape, g :: rest =>
    if isBreak g.char then doubleQuoted (.text (.breaks none [])) rest
    else
      match codeLength? g.char, escapes.lookup g.char with
      | some digits, _ => doubleQuoted (.code digits 0) rest
      | none, some c =>
        (doubleQuoted (.text .empty) rest).map fun (cs, after) => (c :: cs, after)
      | none, none => none
  | .code (digits + 1) value, g :: rest =>
    match hexValue? g.char with
    | none => none
    | some d =>
      let value := 16 * value + d
      if digits = 0 then
        if value.isValidChar then
          (doubleQuoted (.text .empty) rest).map fun (cs, after) => (Char.ofNat value :: cs, after)
        else none
      else doubleQuoted (.code digits value) rest
  | _, _ => none

end RecordInference.Yaml
