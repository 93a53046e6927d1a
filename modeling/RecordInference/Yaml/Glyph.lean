/-!
# Characters in their places

A YAML document is read by indentation, so its characters are taken together with the line
and the column in which they stand. All line breaks but two become line feeds on the way;
the line and paragraph separators of Unicode stay themselves.
-/

set_option autoImplicit false

namespace RecordInference.Yaml

/-- A character with its place in the document, counted from zero. -/
structure Glyph where
  line : Nat
  column : Nat
  char : Char
deriving DecidableEq, Repr

/-- The character after which a line is over. -/
def isBreak (c : Char) : Bool := c = '\n' || c = '\u2028' || c = '\u2029'

/-- The characters that separate on a line. -/
def isSpace (c : Char) : Bool := c = ' ' || c = '\t'

/-- Whether a character may stand in a document at all. -/
def isPrintable (c : Char) : Bool :=
  c = '\t' || c = '\n' || c = '\r' || c = '\u0085' || (' ' ≤ c && c ≤ '~') ||
    ('\u00a0' ≤ c && c ≤ '\ufffd') || '\uffff' < c

/-- The text with its line breaks as line feeds. -/
def unifyBreaks : List Char → List Char
  | [] => []
  | '\r' :: '\n' :: rest => '\n' :: unifyBreaks rest
  | c :: rest => (if c = '\r' || c = '\u0085' then '\n' else c) :: unifyBreaks rest

/-- The characters in their places, the first one at a given place. -/
def placeFrom (line column : Nat) : List Char → List Glyph
  | [] => []
  | c :: rest =>
    ⟨line, column, c⟩ ::
      if isBreak c then placeFrom (line + 1) 0 rest else placeFrom line (column + 1) rest

/-- The characters of a document in their places. -/
def glyphs? (text : List Char) : Option (List Glyph) :=
  if text.all isPrintable then some (placeFrom 0 0 (unifyBreaks text)) else none

/-- Whether a word is over here: before a blank, a line break or the end. -/
def atWordEnd : List Glyph → Bool
  | [] => true
  | g :: _ => isSpace g.char || isBreak g.char

/-- What follows a document marker, three times the character `mark` on a new line. -/
def afterMarker? (mark : Char) : List Glyph → Option (List Glyph)
  | a :: b :: c :: rest =>
    if a.column = 0 && a.char = mark && b.char = mark && c.char = mark && atWordEnd rest then some rest
    else none
  | _ => none

/-- Whether a document marker stands here. -/
def atMarker (gs : List Glyph) : Bool := (afterMarker? '-' gs).isSome || (afterMarker? '.' gs).isSome

/-- The value of a hexadecimal digit. -/
def hexValue? (c : Char) : Option Nat :=
  if '0' ≤ c && c ≤ '9' then some (c.toNat - 48)
  else if 'a' ≤ c && c ≤ 'f' then some (c.toNat - 87)
  else if 'A' ≤ c && c ≤ 'F' then some (c.toNat - 55)
  else none

/-- The characters up to the first that does not belong to them, and what follows them. -/
def spanChars (belongs : Char → Bool) (gs : List Glyph) : List Char × List Glyph :=
  ((gs.takeWhile fun g => belongs g.char).map Glyph.char, gs.dropWhile fun g => belongs g.char)

/-- What follows this line, on which only blanks and a comment may stand. -/
def afterLine? (gs : List Glyph) : Option (List Glyph) :=
  match gs.dropWhile fun g => isSpace g.char with
  | [] => some []
  | g :: rest =>
    if isBreak g.char then some rest
    else if g.char = '#' then some ((rest.dropWhile fun g => !isBreak g.char).drop 1)
    else none

/-- Leaves out what stands between tokens: blanks, line breaks, comments, and byte order marks
in front of a line. `fresh` says that a key may start here; then a tab is no blank, unless it
is between brackets, as `flow` says. Outside of brackets a line break makes a place fresh. -/
def skip (flow fresh comment : Bool) : List Glyph → Bool × List Glyph
  | [] => (fresh, [])
  | g :: rest =>
    if isBreak g.char then skip flow (fresh || !flow) false rest
    else if comment || g.char = '#' then skip flow fresh true rest
    else if g.char = ' ' || (g.char = '\t' && (flow || !fresh)) ||
        (g.char = '\ufeff' && g.column = 0) then
      skip flow fresh false rest
    else (fresh, g :: rest)

end RecordInference.Yaml
