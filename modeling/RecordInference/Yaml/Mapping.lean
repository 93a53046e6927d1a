import RecordInference.Yaml.Token

/-!
# Flat mappings

A text that holds one document, and in it one mapping of scalars to scalars. A scalar may have
a tag, and an anchor by which aliases repeat it. A document without content is the mapping
without entries. Anything else, such as a value that is not a scalar, is refused.
-/

set_option autoImplicit false

namespace RecordInference.Yaml

/-- A text value with its tag. -/
structure Scalar where
  style : Style
  tag : Option (List Char)
  text : List Char
deriving DecidableEq, Repr

/-- The value that is written as nothing. -/
def nothing : Scalar := ⟨.plain, none, []⟩

/-- What stands for a key or a value. -/
inductive Node where
  | scalar (anchor : Option (List Char)) (s : Scalar)
  | alias (name : List Char)
deriving DecidableEq, Repr

/-- A flat mapping as it is written. -/
structure Mapping where
  anchor : Option (List Char)
  entries : List (Node × Node)
deriving DecidableEq, Repr

/-! ### Tags -/

/-- What the handles of tags stand for. -/
abbrev Handles := List (List Char × List Char)

/-- What they stand for unless a directive says otherwise. -/
def defaultHandles : Handles :=
  [("!".toList, "!".toList), ("!!".toList, "tag:yaml.org,2002:".toList)]

/-- The full text of a tag, if its handle stands for anything. -/
def Tag.full? (handles : Handles) (t : Tag) : Option (List Char) :=
  if t.handle.isEmpty then some t.suffix else (handles.lookup t.handle).map (· ++ t.suffix)

/-- The handles that directives give, ahead of others. Every version is 1.1 or 1.2 and stands
there once, and so does every handle. -/
def readHandles (versioned : Bool) (handles : Handles) : List Directive → Option Handles
  | [] => some handles
  | .version major minor :: rest =>
    if versioned || major ≠ 1 || !(minor = 1 || minor = 2) then none
    else readHandles true handles rest
  | .tagPrefix handle text :: rest =>
    if (handles.lookup handle).isSome then none
    else readHandles versioned (handles ++ [(handle, text)]) rest

/-! ### Nodes -/

/-- What stands in front of a value. -/
structure Properties where
  anchor : Option (List Char) := none
  tag : Option (List Char) := none

/-- The properties that start here, an anchor and a tag at most, and what follows them. -/
def readProperties (handles : Handles) : List Token → Option (Properties × List Token)
  | .anchor name :: .tag t :: rest =>
    (t.full? handles).map fun tag => (⟨some name, some tag⟩, rest)
  | .tag t :: .anchor name :: rest =>
    (t.full? handles).map fun tag => (⟨some name, some tag⟩, rest)
  | .anchor name :: rest => some (⟨some name, none⟩, rest)
  | .tag t :: rest => (t.full? handles).map fun tag => (⟨none, some tag⟩, rest)
  | rest => some ({}, rest)

/-- The key or value that starts here, and what follows it. Properties alone are those of
nothing. -/
def readNode (handles : Handles) (ts : List Token) : Option (Node × List Token) :=
  match ts with
  | .alias name :: rest => some (.alias name, rest)
  | _ => do
    let (p, after) ← readProperties handles ts
    match after with
    | .scalar style text :: rest => return (.scalar p.anchor ⟨style, p.tag, text⟩, rest)
    | _ =>
      if p.anchor.isNone && p.tag.isNone then none
      else return (.scalar p.anchor ⟨.plain, p.tag, []⟩, after)

/-- The key or value that starts here, or nothing in front of one of the tokens `ends`. -/
def readNodeOr (ends : List Token) (handles : Handles) (ts : List Token) :
    Option (Node × List Token) :=
  match ts.head? with
  | some t => if ends.contains t then some (.scalar none nothing, ts) else readNode handles ts
  | none => none

/-- The value after the colon here, if there is one, else nothing. -/
def readValue (ends : List Token) (handles : Handles) : List Token → Option (Node × List Token)
  | .value :: rest => readNodeOr ends handles rest
  | ts => some (.scalar none nothing, ts)

/-! ### Entries -/

/-- The entries of a mapping without brackets, and what follows its end. Every entry has a token
at least, so that `room` for each is enough. -/
def entriesByColumn (handles : Handles) : (room : Nat) → List Token →
    Option (List (Node × Node) × List Token)
  | room + 1, .key :: rest => do
    let (key, rest) ← readNodeOr [.key, .value, .collectionEnd] handles rest
    let (value, rest) ← readValue [.key, .value, .collectionEnd] handles rest
    let (entries, rest) ← entriesByColumn handles room rest
    return ((key, value) :: entries, rest)
  | _, .collectionEnd :: rest => some ([], rest)
  | _, _ => none

/-- The entry between braces that starts here, and what follows it. Without a mark in front of
the key it is a key alone. -/
def readEntry (handles : Handles) : List Token → Option ((Node × Node) × List Token)
  | .key :: rest => do
    let (key, rest) ← readNodeOr [.value, .comma, .closeBrace] handles rest
    let (value, rest) ← readValue [.comma, .closeBrace] handles rest
    return ((key, value), rest)
  | ts => (readNode handles ts).map fun (key, rest) => ((key, .scalar none nothing), rest)

/-- The entries up to a closing brace, and what follows it. -/
def entriesInBraces (handles : Handles) : (room : Nat) → List Token →
    Option (List (Node × Node) × List Token)
  | 0, _ => none
  | _ + 1, .closeBrace :: rest => some ([], rest)
  | room + 1, ts => do
    let (entry, rest) ← readEntry handles ts
    match rest with
    | .closeBrace :: rest => return ([entry], rest)
    | .comma :: rest =>
      let (entries, rest) ← entriesInBraces handles room rest
      return (entry :: entries, rest)
    | _ => none

/-! ### Documents -/

/-- The mapping that starts here, and what follows it. -/
def readRoot (handles : Handles) (ts : List Token) : Option (Mapping × List Token) := do
  let (p, after) ← readProperties handles ts
  match after with
  | .mappingStart :: rest =>
    let (entries, rest) ← entriesByColumn handles rest.length rest
    return (⟨p.anchor, entries⟩, rest)
  | .openBrace :: rest =>
    let (entries, rest) ← entriesInBraces handles rest.length rest
    return (⟨p.anchor, entries⟩, rest)
  | _ => if p.anchor.isNone && p.tag.isNone then none else return (⟨p.anchor, []⟩, after)

/-- Whether a token stands outside of the content of a document. -/
def Token.isOutside : Token → Bool
  | .directive _ | .documentStart | .documentEnd => true
  | _ => false

/-- The directives in front, and what follows them. -/
def spanDirectives : List Token → List Directive × List Token
  | .directive d :: rest =>
    let (ds, after) := spanDirectives rest
    (d :: ds, after)
  | ts => ([], ts)

/-- The mapping of a document whose directives are read, and what follows its content. -/
def readDocument (directives : List Directive) : List Token → Option (Mapping × List Token)
  | .documentStart :: rest => do
    let handles ← readHandles false [] directives
    if rest.head?.all Token.isOutside then return (⟨none, []⟩, rest)
    else readRoot (handles ++ defaultHandles) rest
  | ts => if directives.isEmpty then readRoot defaultHandles ts else none

/-- The mapping in the only document of a text. Behind the document only markers of its end may
stand. -/
def readStream : List Token → Option Mapping
  | [] => some ⟨none, []⟩
  | ts => do
    let (directives, rest) := spanDirectives ts
    let (mapping, rest) ← readDocument directives rest
    if rest.all (· == .documentEnd) then return mapping else none

/-! ### Anchors -/

/-- The anchors of a document so far. An anchor gets the number of the names before it, and an
alias stands for the last value with the number of its name. The mapping itself, which is no
scalar, has `none` here. -/
structure Anchors where
  numbers : List (List Char × Nat) := []
  values : List (Nat × Option Scalar) := []
deriving DecidableEq, Repr

/-- Gives a value an anchor, if there is one. -/
def Anchors.add (value : Option Scalar) (a : Anchors) : Option (List Char) → Anchors
  | none => a
  | some name =>
    let number := a.numbers.length
    -- an anchor hides an older one of its name, whose value stays under its own number
    { numbers := (name, number) :: a.numbers.filter (·.1 ≠ name)
      values := (number, value) :: a.values }

/-- A scalar, or the number of the one that is repeated. -/
abbrev Numbered := Except Nat Scalar

/-- The node with the number for its name. -/
def Anchors.number (a : Anchors) : Node → Option (Numbered × Anchors)
  | .scalar anchor s => some (.ok s, a.add (some s) anchor)
  | .alias name => (a.numbers.lookup name).map fun number => (.error number, a)

/-- The entries with numbers for the names, and the anchors after them. -/
def Anchors.numberAll (a : Anchors) : List (Node × Node) → Option (List (Numbered × Numbered) × Anchors)
  | [] => some ([], a)
  | (key, value) :: rest => do
    let (key, a) ← a.number key
    let (value, a) ← a.number value
    let (entries, a) ← a.numberAll rest
    return ((key, value) :: entries, a)

/-- The scalar of a node. -/
def Anchors.scalar? (a : Anchors) : Numbered → Option Scalar
  | .ok s => some s
  | .error number => (a.values.lookup number).join

/-- The entries of a mapping with the scalars that its aliases stand for. -/
def Mapping.scalars? (m : Mapping) : Option (List (Scalar × Scalar)) := do
  let (entries, a) ← (Anchors.add none {} m.anchor).numberAll m.entries
  entries.mapM fun (key, value) => do return (← a.scalar? key, ← a.scalar? value)

/-- The entries of the flat mapping that a text holds. -/
def readMapping? (text : List Char) : Option (List (Scalar × Scalar)) := do
  (← readStream (← tokens? text)).scalars?

end RecordInference.Yaml
