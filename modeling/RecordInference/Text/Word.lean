/-!
# Blanks, words and names

The Unicode property `White_Space`, and the operations that stop at blanks: trimming and taking
the first word. Words are compared without regard to case, and some of them are identifiers or
names of resources; all of this knows ASCII letters only. Texts are lists of characters here.
-/

set_option autoImplicit false

namespace RecordInference.Text

/-- The characters of `White_Space`, as closed ranges of code points, ascending. -/
def blankRanges : List (Nat × Nat) :=
  [(0x09, 0x0D), (0x20, 0x20), (0x85, 0x85), (0xA0, 0xA0), (0x1680, 0x1680), (0x2000, 0x200A),
   (0x2028, 0x2029), (0x202F, 0x202F), (0x205F, 0x205F), (0x3000, 0x3000)]

/-- The property has 25 characters. -/
example : blankRanges.foldr (fun r count => r.2 + 1 - r.1 + count) 0 = 25 := by decide

/-- Whether a character is white space. -/
def isBlank (c : Char) : Bool :=
  blankRanges.any fun r => r.1 ≤ c.toNat && c.toNat ≤ r.2

/-- The text without the blanks in front. -/
def trimStart (cs : List Char) : List Char := cs.dropWhile isBlank

/-- The text without the blanks at its end. -/
def trimEnd : List Char → List Char
  | [] => []
  | c :: rest =>
    match trimEnd rest with
    | [] => if isBlank c then [] else [c]
    | kept => c :: kept

/-- The text without the blanks around it. -/
def trim (cs : List Char) : List Char := trimEnd (trimStart cs)

/-- The first run of characters without blanks, and what follows the blanks after it. -/
def firstWord (cs : List Char) : List Char × List Char :=
  let cs := trimStart cs
  (cs.takeWhile (fun c => !isBlank c), trimStart (cs.dropWhile (fun c => !isBlank c)))

/-- The text of a string without the blanks around it. -/
def trimmed (s : String) : String := String.ofList (trim s.toList)

/-! ### Names -/

/-- The word with its ASCII letters in upper case. -/
def upper (cs : List Char) : List Char := cs.map Char.toUpper

/-- Whether the word is `keyword`, given in upper case, in any case of ASCII letters. -/
def isWord (keyword : String) (cs : List Char) : Bool := upper cs == keyword.toList

/-- Whether a character may open an identifier: an ASCII letter or an underscore. -/
def opensIdentifier (c : Char) : Bool := c.isAlpha || c == '_'

/-- Whether a character may follow in an identifier: also an ASCII digit. -/
def continuesIdentifier (c : Char) : Bool := c.isAlphanum || c == '_'

/-- Identifiers: an ASCII letter or underscore, then letters, digits and underscores. -/
def isIdentifier : List Char → Bool
  | [] => false
  | c :: rest => opensIdentifier c && rest.all continuesIdentifier

/-- Names of text resources: ASCII letters, digits, `_`, `-` and `.`, at least one. -/
def isResourceName (cs : List Char) : Bool :=
  !cs.isEmpty && cs.all fun c => c.isAlphanum || c == '_' || c == '-' || c == '.'

end RecordInference.Text
