import RecordInference.Yaml.Block
import RecordInference.Yaml.Word

/-!
# Tokens

A text as tokens. Two things in them are not written in the text: where a collection without
brackets starts and ends follows from the columns, and that a value was a key shows only at
the colon behind it. So the place where a key may have started is kept until then.
-/

set_option autoImplicit false

namespace RecordInference.Yaml

/-- A token of a YAML text. -/
inductive Token where
  | directive (d : Directive)
  | documentStart
  | documentEnd
  /-- The start of a mapping or a list without brackets. -/
  | mappingStart
  | listStart
  /-- The end of either. -/
  | collectionEnd
  | openBrace
  | closeBrace
  | openBracket
  | closeBracket
  | comma
  /-- The dash before an element of a list. -/
  | element
  /-- The place before a key. -/
  | key
  /-- The colon before a value. -/
  | value
  | alias (name : List Char)
  | anchor (name : List Char)
  | tag (t : Tag)
  | scalar (style : Style) (text : List Char)
deriving DecidableEq, Repr

/-- A place where a key may have started. -/
structure PossibleKey where
  line : Nat
  column : Nat
  /-- The number of tokens in front of it. -/
  position : Nat
  /-- Whether something must be a key there, since it stands in the column of its mapping. -/
  required : Bool
deriving DecidableEq, Repr

/-- Whether the key is over before `g`: it keeps to its line, and to 1024 characters. -/
def PossibleKey.isStale (k : PossibleKey) (g : Glyph) : Bool :=
  k.line < g.line || k.column + 1024 < g.column

/-- What has been read of a text. -/
structure Scan where
  tokens : List Token := []
  /-- The columns of the open collections without brackets, the innermost first. -/
  columns : List Nat := []
  /-- Whether a key may start here. -/
  fresh : Bool := true
  /-- Where a key may have started, in the innermost brackets. -/
  key : Option PossibleKey := none
  /-- The same for the brackets around them, the innermost first. -/
  outer : List (Option PossibleKey) := []
deriving DecidableEq, Repr

namespace Scan

/-- Whether the place is between brackets. -/
def inFlow (s : Scan) : Bool := !s.outer.isEmpty

/-- The least column of what belongs to the innermost collection without brackets. -/
def least (s : Scan) : Nat :=
  match s.columns with
  | [] => 0
  | column :: _ => column + 1

/-- With one more token. -/
def emit (t : Token) (s : Scan) : Scan := { s with tokens := s.tokens ++ [t] }

/-- With one more token, behind the first `position` ones. -/
def emitAt (position : Nat) (t : Token) (s : Scan) : Scan :=
  { s with tokens := s.tokens.take position ++ t :: s.tokens.drop position }

/-- Whether a key may start from here on. -/
def setFresh (fresh : Bool) (s : Scan) : Scan := { s with fresh }

/-! ### Columns -/

/-- Ends the collections whose columns `ends` says so of. Between brackets columns say nothing. -/
def endWhile (ends : Nat → Bool) (s : Scan) : Scan :=
  if s.inFlow then s
  else
    { s with
      columns := s.columns.dropWhile ends
      tokens := s.tokens ++ (s.columns.takeWhile ends).map fun _ => .collectionEnd }

/-- Ends all collections without brackets. -/
def endAll (s : Scan) : Scan := s.endWhile fun _ => true

/-- Starts a collection in a column, with its token behind the first `position` ones, unless one
is open in that column or behind it. -/
def startIn (column position : Nat) (start : Token) (s : Scan) : Scan :=
  if s.inFlow || !s.columns.head?.all (· < column) then s
  else { s.emitAt position start with columns := column :: s.columns }

/-! ### Keys -/

/-- Gives up the keys that are over before `g`. None of them may be required. -/
def dropStale (g : Glyph) (s : Scan) : Option Scan :=
  let keys := (s.key :: s.outer).filterMap id
  if keys.any fun k => k.required && k.isStale g then none
  else
    let live := fun (key : Option PossibleKey) => key.filter fun k => !k.isStale g
    some { s with key := live s.key, outer := s.outer.map live }

/-- Gives up the key of the innermost brackets, which must not be required. -/
def dropKey (s : Scan) : Option Scan :=
  if s.key.any PossibleKey.required then none else some { s with key := none }

/-- Keeps the place of `g` as one where a key may have started, if one may. -/
def keepKey (g : Glyph) (s : Scan) : Option Scan :=
  if s.fresh then
    -- in the column of a mapping there can be nothing but its next key
    let required := !s.inFlow && s.columns.head? = some g.column
    s.dropKey.map fun s => { s with key := some ⟨g.line, g.column, s.tokens.length, required⟩ }
  else some s

/-- A colon. If what is in front of it may be a key, it is one; else the key has been announced,
or is missing. -/
def readColon (g : Glyph) (s : Scan) : Option Scan :=
  match s.key with
  | some k =>
    -- the tokens of the key are there already, and its mark belongs in front of them
    let s := (s.emitAt k.position .key).startIn k.column k.position .mappingStart
    some ({ s with key := none, fresh := false }.emit .value)
  | none =>
    if s.inFlow then some ((s.setFresh false).emit .value)
    else if s.fresh then
      some (((s.startIn g.column s.tokens.length .mappingStart).setFresh true).emit .value)
    else none

/-- A question mark, which announces a key. -/
def readQuestion (g : Glyph) (s : Scan) : Option Scan :=
  if s.inFlow then s.dropKey.map fun s => (s.setFresh false).emit .key
  else if s.fresh then
    (s.startIn g.column s.tokens.length .mappingStart).dropKey.map fun s =>
      (s.setFresh true).emit .key
  else none

/-- A dash, which announces an element. -/
def readDash (g : Glyph) (s : Scan) : Option Scan :=
  if s.inFlow then s.dropKey.map fun s => (s.setFresh true).emit .element
  else if s.fresh then
    (s.startIn g.column s.tokens.length .listStart).dropKey.map fun s =>
      (s.setFresh true).emit .element
  else none

/-! ### Brackets and markers -/

/-- An opening bracket or brace. -/
def enter (g : Glyph) (t : Token) (s : Scan) : Option Scan :=
  (s.keepKey g).map fun s =>
    { s.emit t with fresh := true, key := none, outer := s.key :: s.outer }

/-- A closing bracket or brace. -/
def leave (t : Token) (s : Scan) : Option Scan :=
  s.dropKey.map fun s =>
    match s.outer with
    | [] => (s.setFresh false).emit t
    -- the brackets may themselves be a key, which started where they did
    | key :: outer => { s.emit t with fresh := false, key, outer }

/-- A comma. -/
def readComma (s : Scan) : Option Scan := s.dropKey.map fun s => (s.setFresh true).emit .comma

/-- What stands outside of all collections. -/
def readOutside (t : Token) (s : Scan) : Option Scan :=
  s.endAll.dropKey.map fun s => (s.setFresh false).emit t

/-! ### Values -/

/-- A token with which a key may have started, and what follows it. -/
def readWord {α : Type} (g : Glyph) (token : α → Token) (word : Option (α × List Glyph)) (s : Scan) :
    Option (Scan × List Glyph) := do
  let s ← s.keepKey g
  let (content, rest) ← word
  return ((s.setFresh false).emit (token content), rest)

/-- A plain scalar. The line break behind it, if there is one, makes the place fresh. -/
def readPlain (g : Glyph) (rest : List Glyph) (s : Scan) : Option (Scan × List Glyph) := do
  let s ← s.keepKey g
  let e ← plainRest s.inFlow s.least .empty (g :: rest)
  return ((s.setFresh e.crosses).emit (.scalar .plain e.text), e.rest)

/-- A block scalar after its first character. -/
def readBlock (folded : Bool) (rest : List Glyph) (s : Scan) : Option (Scan × List Glyph) := do
  let s ← s.dropKey
  let (text, rest) ← readBlock? folded s.least rest
  return ((s.setFresh true).emit (.scalar (if folded then .folded else .literal) text), rest)

/-! ### All tokens -/

/-- Reads the token that starts with `g`, in front of `rest`. -/
def read (g : Glyph) (rest : List Glyph) (s : Scan) : Option (Scan × List Glyph) :=
  let before := fun (s : Option Scan) => s.map fun s => (s, rest)
  match afterMarker? '-' (g :: rest), afterMarker? '.' (g :: rest) with
  | some rest, _ => (s.readOutside .documentStart).map fun s => (s, rest)
  | none, some rest => (s.readOutside .documentEnd).map fun s => (s, rest)
  | none, none =>
    if g.column = 0 && g.char = '%' then do
      let (d, rest) ← readDirective? rest
      return (← s.readOutside (.directive d), rest)
    else if g.char = '[' then before (s.enter g .openBracket)
    else if g.char = '{' then before (s.enter g .openBrace)
    else if g.char = ']' then before (s.leave .closeBracket)
    else if g.char = '}' then before (s.leave .closeBrace)
    else if g.char = ',' then before s.readComma
    else if g.char = '-' && atWordEnd rest then before (s.readDash g)
    else if g.char = '?' && (s.inFlow || atWordEnd rest) then before (s.readQuestion g)
    else if g.char = ':' && (s.inFlow || atWordEnd rest) then before (s.readColon g)
    else if g.char = '*' then s.readWord g .alias (anchorName? rest)
    else if g.char = '&' then s.readWord g .anchor (anchorName? rest)
    else if g.char = '!' then s.readWord g .tag (readTag? s.inFlow rest)
    else if g.char = '|' && !s.inFlow then s.readBlock false rest
    else if g.char = '>' && !s.inFlow then s.readBlock true rest
    else if g.char = '\'' then
      s.readWord g (.scalar .quoted) (singleQuoted (.text .empty) rest)
    else if g.char = '"' then
      s.readWord g (.scalar .quoted) (doubleQuoted (.text .empty) rest)
    else if startsPlain s.inFlow (g :: rest) then s.readPlain g rest
    else none

/-- The tokens of a text of which some are read. Every token takes a character at least, so that
`room` for each character and the end is enough. -/
def readAll : (room : Nat) → Scan → List Glyph → Option (List Token)
  | 0, _, _ => none
  | room + 1, s, gs =>
    match skip s.inFlow s.fresh false gs with
    | (_, []) => s.endAll.dropKey.map Scan.tokens
    | (fresh, g :: rest) => do
      let s ← (s.setFresh fresh).dropStale g
      let (s, rest) ← (s.endWhile (g.column < ·)).read g rest
      readAll room s rest

end Scan

/-- The tokens of a text. -/
def tokens? (text : List Char) : Option (List Token) :=
  (glyphs? text).bind fun gs => Scan.readAll (gs.length + 1) {} gs

end RecordInference.Yaml
