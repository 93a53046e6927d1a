import RecordInference.Yaml.Scalar

/-!
# Block scalars

A scalar after a bar or an angle takes up whole lines, all of them indented alike. After a bar
its line breaks stand for themselves, after an angle a single one stands for a space. The
header says what becomes of the breaks behind the last line.
-/

set_option autoImplicit false

namespace RecordInference.Yaml

/-- What becomes of the line breaks behind the last line. -/
inductive Chomping where
  /-- None is kept. -/
  | strip
  /-- The first one is kept. -/
  | clip
  /-- All are kept. -/
  | keep
deriving DecidableEq, Repr

/-- What the header of a block scalar says. -/
structure BlockHeader where
  folded : Bool
  chomping : Chomping := .clip
  /-- The indentation, counted from the column of the mapping around the scalar. -/
  indent : Option Nat := none
deriving DecidableEq, Repr

namespace BlockHeader

/-- The chomping that a sign asks for. -/
def chomping? (c : Char) : Option Chomping :=
  if c = '+' then some .keep else if c = '-' then some .strip else none

/-- The indentation that a digit asks for. -/
def indent? (c : Char) : Option Nat :=
  if '1' ≤ c && c ≤ '9' then some (c.toNat - 48) else none

/-- Reads a sign, if one stands here. -/
def readSign (h : BlockHeader) : List Glyph → BlockHeader × List Glyph
  | [] => (h, [])
  | g :: rest =>
    match chomping? g.char with
    | some chomping => ({ h with chomping }, rest)
    | none => (h, g :: rest)

/-- Reads a digit, if one stands here. -/
def readDigit (h : BlockHeader) : List Glyph → BlockHeader × List Glyph
  | [] => (h, [])
  | g :: rest =>
    match indent? g.char with
    | some n => ({ h with indent := some n }, rest)
    | none => (h, g :: rest)

/-- Reads a sign and a digit, in either order. -/
def readMarks (folded : Bool) (gs : List Glyph) : BlockHeader × List Glyph :=
  match readSign { folded } gs with
  | (h, rest) =>
    match readDigit h rest with
    | (h, rest) => if h.chomping = .clip then h.readSign rest else (h, rest)

/-- The header after its first character, and what follows its line. -/
def read? (folded : Bool) (gs : List Glyph) : Option (BlockHeader × List Glyph) :=
  match readMarks folded gs with
  | (h, rest) => (afterLine? rest).map fun rest => (h, rest)

end BlockHeader

/-- The widest of the empty lines in front of the first line with a character, and the column
of that character. No tab may stand in front of it. -/
def leadingWidth (widest : Nat) : List Glyph → Option Nat
  | [] => some widest
  | g :: rest =>
    if g.char = ' ' then leadingWidth (max widest (g.column + 1)) rest
    else if g.char = '\t' then none
    else if isBreak g.char then leadingWidth widest rest
    else some widest

/-- The column in which the lines of a block scalar start. They may start in column `least`, the
one behind the column of the mapping around the scalar, and not in column zero. -/
def BlockHeader.column? (h : BlockHeader) (least : Nat) (gs : List Glyph) : Option Nat :=
  match h.indent with
  | some n => some (least - 1 + n)
  | none => (leadingWidth 0 gs).map fun widest => max widest (max least 1)

/-- Where the reader of a block scalar is. -/
inductive BlockPlace where
  /-- On a line, which starts with a blank or not. -/
  | line (blank : Bool)
  /-- Before a line: after the break of the last one, which started with a blank or not, and
  after further breaks. -/
  | between (blank : Bool) (first : Option Char) (more : List Char)
deriving DecidableEq, Repr

/-- What the breaks between two lines stand for. Lines that start with a blank are not folded. -/
def joint (folded blank nextBlank : Bool) (first : Option Char) (more : List Char) : List Char :=
  if folded && first = some '\n' && !blank && !nextBlank then
    if more.isEmpty then [' '] else more
  else first.toList ++ more

/-- What the breaks behind the last line stand for. -/
def Chomping.tail (chomping : Chomping) (first : Option Char) (more : List Char) : List Char :=
  match chomping with
  | .strip => []
  | .clip => first.toList
  | .keep => first.toList ++ more

/-- The lines of a block scalar that start in column `column`, and what follows them. -/
def blockLines (folded : Bool) (chomping : Chomping) (column : Nat) :
    BlockPlace → List Glyph → Option (List Char × List Glyph)
  | .line _, [] => some ([], [])
  | .line blank, g :: rest =>
    if isBreak g.char then
      blockLines folded chomping column (.between blank (some g.char) []) rest
    else
      (blockLines folded chomping column (.line blank) rest).map fun (cs, after) =>
        (g.char :: cs, after)
  | .between _ first more, [] => some (chomping.tail first more, [])
  | .between blank first more, g :: rest =>
    if isBreak g.char then
      blockLines folded chomping column (.between blank first (more ++ [g.char])) rest
    else if g.column < column then
      if g.char = ' ' then blockLines folded chomping column (.between blank first more) rest
      else if g.char = '\t' then none
      else some (chomping.tail first more, g :: rest)
    else
      (blockLines folded chomping column (.line (isSpace g.char)) rest).map fun (cs, after) =>
        (joint folded blank (isSpace g.char) first more ++ g.char :: cs, after)

/-- The text of a block scalar after its first character, and what follows its lines. -/
def readBlock? (folded : Bool) (least : Nat) (gs : List Glyph) : Option (List Char × List Glyph) := do
  let (h, gs) ← BlockHeader.read? folded gs
  let column ← h.column? least gs
  blockLines h.folded h.chomping column (.between false none []) gs

end RecordInference.Yaml
