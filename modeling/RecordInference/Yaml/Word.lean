import RecordInference.Yaml.Glyph

/-!
# Anchors, tags and directives

The words of a document that are not part of its values: names that a value is given or that
stand for one, tags, and the lines in front of a document that say how to read it.
-/

set_option autoImplicit false

namespace RecordInference.Yaml

/-- The characters of names: ASCII letters and digits, underscores and hyphens. -/
def isNameChar (c : Char) : Bool := c.isAlphanum || c = '_' || c = '-'

/-- Whether one of `cs` stands here. -/
def startsWithAny (cs : String) : List Glyph → Bool
  | [] => false
  | g :: _ => cs.toList.contains g.char

/-- The name of an anchor or alias after its first character, and what follows it. -/
def anchorName? (gs : List Glyph) : Option (List Char × List Glyph) :=
  match spanChars isNameChar gs with
  | (name, rest) =>
    if name.isEmpty || !(atWordEnd rest || startsWithAny "?:,]\x7d%@`" rest) then none
    else some (name, rest)

/-! ### Tags -/

/-- How many octets follow after `octet` in the code of a character, if it may stand where
`pending` ones are missing. -/
def octetsAfter? (pending octet : Nat) : Option Nat :=
  if pending = 0 then
    if octet < 0x80 then some 0
    else if octet < 0xC0 then none
    else if octet < 0xE0 then some 1
    else if octet < 0xF0 then some 2
    else if octet < 0xF8 then some 3
    else none
  else if 0x80 ≤ octet && octet < 0xC0 then some (pending - 1)
  else none

/-- The characters of a tag. Between angles there may be flow indicators too. -/
def isTagChar (angles : Bool) (c : Char) : Bool :=
  isNameChar c || ";/?:@&=+$.!~*'()".toList.contains c || (angles && ",[]".toList.contains c)

/-- The characters of a tag from here on, and what follows them. A percent sign and two digits
are an octet of the code of a character, of which `pending` octets are missing. -/
def tagText (angles : Bool) : (pending : Nat) → List Glyph → Option (List Char × List Glyph)
  | 0, [] => some ([], [])
  | _ + 1, [] => none
  | pending, g :: rest =>
    if g.char = '%' then
      match rest with
      | a :: b :: rest => do
        let octet := 16 * (← hexValue? a.char) + (← hexValue? b.char)
        let (cs, after) ← tagText angles (← octetsAfter? pending octet) rest
        return (Char.ofNat octet :: cs, after)
      | _ => none
    else if pending = 0 then
      if isTagChar angles g.char then
        (tagText angles 0 rest).map fun (cs, after) => (g.char :: cs, after)
      else some ([], g :: rest)
    else none

/-- The same, with at least one character. -/
def someTagText (angles : Bool) (gs : List Glyph) : Option (List Char × List Glyph) :=
  (tagText angles 0 gs).filter fun t => !t.1.isEmpty

/-- A tag as it is written: the handle of what stands in front of it, and the rest. -/
structure Tag where
  handle : List Char
  suffix : List Char
deriving DecidableEq, Repr

/-- The tag after its first character, apart from what may follow it. -/
def tagBody? (gs : List Glyph) : Option (Tag × List Glyph) :=
  match gs with
  | [] => some (⟨[], ['!']⟩, [])
  | g :: rest =>
    if g.char = '<' then do
      let (suffix, after) ← someTagText true rest
      match after with
      | [] => none
      | h :: after => if h.char = '>' then some (⟨[], suffix⟩, after) else none
    else
      let (name, rest) := spanChars isNameChar (g :: rest)
      if startsWithAny "!" rest then
        (someTagText false (rest.drop 1)).map fun (suffix, after) =>
          (⟨'!' :: name ++ ['!'], suffix⟩, after)
      else
        (tagText false 0 rest).map fun (more, after) =>
          (if (name ++ more).isEmpty then ⟨[], ['!']⟩ else ⟨['!'], name ++ more⟩, after)

/-- The tag after its first character, and what follows it: a blank, or a comma between brackets. -/
def readTag? (flow : Bool) (gs : List Glyph) : Option (Tag × List Glyph) :=
  (tagBody? gs).filter fun t => atWordEnd t.2 || (flow && startsWithAny "," t.2)

/-! ### Directives -/

/-- A line that says how to read the document after it. -/
inductive Directive where
  | version (major minor : Nat)
  /-- What the handle of a tag stands for. -/
  | tagPrefix (handle text : List Char)
deriving DecidableEq, Repr

/-- A number of one to nine digits, and what follows it. -/
def shortNumber? (gs : List Glyph) : Option (Nat × List Glyph) :=
  match spanChars Char.isDigit gs with
  | (digits, rest) =>
    if digits.isEmpty || 9 < digits.length then none
    else some (digits.foldl (fun n d => 10 * n + (d.toNat - 48)) 0, rest)

/-- The two numbers of a version, and what follows them. -/
def version? (gs : List Glyph) : Option (Directive × List Glyph) := do
  let (major, rest) ← shortNumber? gs
  if startsWithAny "." rest then
    let (minor, rest) ← shortNumber? (rest.drop 1)
    return (.version major minor, rest)
  else none

/-- The handle of a tag between exclamation marks, of which the second is optional if nothing
stands between them, and what follows it. -/
def handle? (gs : List Glyph) : Option (List Char × List Glyph) :=
  if startsWithAny "!" gs then
    match spanChars isNameChar (gs.drop 1) with
    | (name, rest) =>
      if startsWithAny "!" rest then some ('!' :: name ++ ['!'], rest.drop 1)
      else if name.isEmpty then some (['!'], rest)
      else none
  else none

/-- What follows the blanks here. -/
def afterSpaces (gs : List Glyph) : List Glyph := gs.dropWhile fun g => isSpace g.char

/-- A handle and what it stands for, and what follows them. -/
def tagPrefix? (gs : List Glyph) : Option (Directive × List Glyph) := do
  let (handle, rest) ← handle? gs
  if startsWithAny " \t" rest then
    let (text, rest) ← someTagText true (afterSpaces rest)
    if atWordEnd rest then return (.tagPrefix handle text, rest) else none
  else none

/-- The directive after its first character, and what follows its line. -/
def readDirective? (gs : List Glyph) : Option (Directive × List Glyph) := do
  let (name, rest) := spanChars isNameChar gs
  if !atWordEnd rest then none
  else
    let (directive, rest) ←
      if name = "YAML".toList then version? (afterSpaces rest)
      else if name = "TAG".toList then tagPrefix? (afterSpaces rest)
      else none
    return (directive, ← afterLine? rest)

end RecordInference.Yaml
