import RecordInference.Json.Reader
import RecordInference.Proofs.Decimal.Distinct

/-!
# The grammar of JSON texts

Which characters spell a value is told here by the form of the text alone, without a reader and
without a printer. Lists and objects are rows of what they hold, with commas in between and blanks
anywhere around (`Enclosed`). A text in quotes spells its characters one by one, as they are or
behind a backslash (`Quoted`), and a numeral spells a decimal (`Numeral`).

`Spells` relates a value and its spellings. An integer is spelled exactly, a double by any decimal
that rounds to it, and a double that is not finite has lost its value. `Form` asks for the grammar
only: its numerals may be out of range, and its texts may hold halves of characters, so that what it
admits need not be a value.
-/

set_option autoImplicit false

namespace RecordInference.Json

open Decimal

/-- Whether there are blanks only. -/
def Spaces (cs : List Char) : Prop := ∀ c ∈ cs, isSpace c = true

theorem spaces_nil : Spaces [] := List.forall_mem_nil _

/-! ### Texts in quotes -/

/-- How a character is spelled in a text in quotes. -/
inductive Letter : Char → List Char → Prop
  /-- As it is, unless it is a quote, a backslash or a control character. -/
  | plain {c : Char} (quote : c ≠ '"') (backslash : c ≠ '\\') (printable : ¬ c.toNat < 0x20) :
      Letter c [c]
  | letter {l c : Char} (stands : letter? l = some c) : Letter c ['\\', l]
  | digits {n : Nat} {a b c d : Char} (value : hexFour? a b c d = some n)
      (whole : n < 0xD800 ∨ 0xDFFF < n) : Letter (Char.ofNat n) ['\\', 'u', a, b, c, d]
  /-- A character beyond U+FFFF by its two halves. -/
  | halves {high low : Nat} {a b c d a' b' c' d' : Char} (value : hexFour? a b c d = some high)
      (first : 0xD800 ≤ high ∧ high ≤ 0xDBFF) (value' : hexFour? a' b' c' d' = some low)
      (second : 0xDC00 ≤ low ∧ low ≤ 0xDFFF) :
      Letter (Char.ofNat (0x10000 + (high - 0xD800) * 0x400 + (low - 0xDC00)))
        ['\\', 'u', a, b, c, d, '\\', 'u', a', b', c', d']

/-- How characters are spelled in a text in quotes. -/
inductive Letters : List Char → List Char → Prop
  | nil : Letters [] []
  | cons {c : Char} {cs w ws : List Char} (first : Letter c w) (rest : Letters cs ws) :
      Letters (c :: cs) (w ++ ws)

/-- The spellings of a text. -/
inductive Quoted : String → List Char → Prop
  | quotes {s : String} {w : List Char} (letters : Letters s.toList w) :
      Quoted s ('"' :: (w ++ ['"']))

/-! ### Numerals -/

/-- One digit or more. -/
def IsDigits (ds : List Char) : Prop := ds ≠ [] ∧ ∀ c ∈ ds, c.isDigit = true

/-- A whole number has no zero in front. -/
inductive Whole : List Char → Prop
  | zero : Whole ['0']
  | digits {c : Char} {cs : List Char} (first : c.isDigit = true) (leading : c ≠ '0')
      (others : ∀ d ∈ cs, d.isDigit = true) : Whole (c :: cs)

/-- The digits of a fraction, if there is one. -/
inductive Fraction : List Char → List Char → Prop
  | none : Fraction [] []
  | digits {ds : List Char} (digits : IsDigits ds) : Fraction ds ('.' :: ds)

/-- The value of an exponent, if there is one. -/
inductive Exponent : Int → List Char → Prop
  | none : Exponent 0 []
  | up {e : Char} {sign ds : List Char} (mark : e = 'e' ∨ e = 'E')
      (plus : sign = [] ∨ sign = ['+']) (digits : IsDigits ds) :
      Exponent (digitsValue ds) (e :: (sign ++ ds))
  | down {e : Char} {ds : List Char} (mark : e = 'e' ∨ e = 'E') (digits : IsDigits ds) :
      Exponent (-(digitsValue ds : Int)) (e :: '-' :: ds)

/-- The decimal that a numeral without a sign spells. -/
inductive Numeral : Digits → List Char → Prop
  | parts {whole ds fraction exponent : List Char} {e : Int} (first : Whole whole)
      (second : Fraction ds fraction) (third : Exponent e exponent) :
      Numeral ⟨digitsValue (whole ++ ds), e - ds.length⟩ (whole ++ (fraction ++ exponent))

/-- Whether a decimal rounds to the magnitude of a finite double. -/
def Rounds (x : Float) (d : Digits) : Prop :=
  if (Binary.ofBits (magnitudeBits x)).m = 0 then d.value = 0
  else (Binary.ofBits (magnitudeBits x)).Covers d.value

/-! ### Lists and objects -/

section

variable {ι κ α : Type}

/-- A row of one thing or more, with commas in between. -/
inductive Row (item : ι → List Char → Prop) : List ι → List Char → Prop
  | last {i : ι} {w after : List Char} (spelled : item i w) (blank : Spaces after) :
      Row item [i] (w ++ after)
  | more {i : ι} {is : List ι} {w ws after before : List Char} (spelled : item i w)
      (blank : Spaces after) (blank' : Spaces before) (rest : Row item is ws) :
      Row item (i :: is) (w ++ after ++ ',' :: (before ++ ws))

/-- What stands behind an opening bracket: a row or nothing, and the closing bracket. -/
inductive Enclosed (closing : Char) (item : ι → List Char → Prop) : List ι → List Char → Prop
  | none {before : List Char} (blank : Spaces before) :
      Enclosed closing item [] (before ++ [closing])
  | some {is : List ι} {before ws : List Char} (blank : Spaces before) (row : Row item is ws) :
      Enclosed closing item is (before ++ (ws ++ [closing]))

/-- A member of an object: a name, a colon, and what stands under the name. -/
inductive Pair (name : κ → List Char → Prop) (item : α → List Char → Prop) :
    κ × α → List Char → Prop
  | colon {k : κ} {a : α} {w w' after before : List Char} (named : name k w) (blank : Spaces after)
      (blank' : Spaces before) (spelled : item a w') :
      Pair name item (k, a) (w ++ (after ++ ':' :: (before ++ w')))

end

/-! ### Values -/

/-- The spellings of a value. -/
inductive Spells : Json → List Char → Prop
  | null : Spells .null "null".toList
  | yes : Spells (.bool true) "true".toList
  | no : Spells (.bool false) "false".toList
  | nat {w : List Char} (whole : Whole w) : Spells (.int (digitsValue w)) w
  | negative {w : List Char} (whole : Whole w) (nonzero : digitsValue w ≠ 0) :
      Spells (.int (-(digitsValue w : Int))) ('-' :: w)
  /-- A double has a fraction or an exponent. -/
  | float {x : Float} {d : Digits} {w : List Char} (finite : x.isFinite = true)
      (numeral : Numeral d w) (fraction : ¬ Whole w) (rounds : Rounds x d) :
      Spells (.float x) ((if Layout.signed x then ['-'] else []) ++ w)
  | lost {x : Float} (infinite : x.isFinite = false) : Spells (.float x) "null".toList
  | str {s : String} {w : List Char} (quoted : Quoted s w) : Spells (.str s) w
  | arr {items : List Json} {w : List Char} (enclosed : Enclosed ']' Spells items w) :
      Spells (.arr items) ('[' :: w)
  | obj {members : List (String × Json)} {w : List Char}
      (enclosed : Enclosed '}' (Pair Quoted Spells) members w) : Spells (.obj members) ('{' :: w)

/-! ### Forms -/

/-- A character of a text in quotes, or half of one. -/
inductive Mark : List Char → Prop
  | plain {c : Char} (quote : c ≠ '"') (backslash : c ≠ '\\') (printable : ¬ c.toNat < 0x20) :
      Mark [c]
  | letter {l c : Char} (stands : letter? l = some c) : Mark ['\\', l]
  | digits {n : Nat} {a b c d : Char} (value : hexFour? a b c d = some n) :
      Mark ['\\', 'u', a, b, c, d]

/-- Characters and halves of them. -/
inductive Marks : List Char → Prop
  | nil : Marks []
  | cons {w ws : List Char} (first : Mark w) (rest : Marks ws) : Marks (w ++ ws)

/-- A text in quotes. -/
inductive QuotedForm : Unit → List Char → Prop
  | quotes {w : List Char} (marks : Marks w) : QuotedForm () ('"' :: (w ++ ['"']))

/-- A word, a number or a text. -/
inductive ScalarForm : List Char → Prop
  | null : ScalarForm "null".toList
  | yes : ScalarForm "true".toList
  | no : ScalarForm "false".toList
  | positive {d : Digits} {w : List Char} (numeral : Numeral d w) : ScalarForm w
  | negative {d : Digits} {w : List Char} (numeral : Numeral d w) : ScalarForm ('-' :: w)
  | text {w : List Char} (quoted : QuotedForm () w) : ScalarForm w

/-- What has the form of a value, with brackets and braces open at most `depth` deep. -/
def Form : Nat → Unit → List Char → Prop
  | 0, _, w => ScalarForm w
  | depth + 1, _, w =>
    ScalarForm w ∨
      (∃ units ws, w = '[' :: ws ∧ Enclosed ']' (Form depth) units ws) ∨
      ∃ units ws, w = '{' :: ws ∧ Enclosed '}' (Pair QuotedForm (Form depth)) units ws

theorem form_list {depth : Nat} {units : List Unit} {ws : List Char}
    (enclosed : Enclosed ']' (Form depth) units ws) : Form (depth + 1) () ('[' :: ws) :=
  Or.inr (Or.inl ⟨units, ws, rfl, enclosed⟩)

end RecordInference.Json
