import RecordInference.Json.Basic
import RecordInference.Text.Line

/-!
# Reading JSON texts

`Json.read` accepts exactly the JSON grammar, with brackets open at most a given number
deep. Members of objects come out in the order of the text, repeated names included.
A text that is refused yields the first fault and the place where it was noticed.

Integers that fit 64 bits stay integers. Any other number is a double: its digits are
gathered as long as they fit 64 bits, and the number so found is scaled once by a power
of ten.
-/

set_option autoImplicit false

namespace RecordInference.Json

/-- What is wrong with a text. -/
inductive Cause where
  | endInValue
  | expectedValue
  | expectedWord
  | invalidNumber
  | numberOutOfRange
  | endInString
  | controlCharacter
  | invalidEscape
  | loneSurrogate
  | endOfHexEscape
  | endInList
  | expectedListEnd
  | trailingComma
  | endInObject
  | keyNotString
  | expectedColon
  | expectedObjectEnd
  | tooDeep
  | trailingCharacters
deriving DecidableEq, Repr

/-- The wording of a cause. -/
def Cause.message : Cause → String
  | endInValue => "EOF while parsing a value"
  | expectedValue => "expected value"
  | expectedWord => "expected ident"
  | invalidNumber => "invalid number"
  | numberOutOfRange => "number out of range"
  | endInString => "EOF while parsing a string"
  | controlCharacter => "control character (\\u0000-\\u001F) found while parsing a string"
  | invalidEscape => "invalid escape"
  | loneSurrogate => "lone leading surrogate in hex escape"
  | endOfHexEscape => "unexpected end of hex escape"
  | endInList => "EOF while parsing a list"
  | expectedListEnd => "expected `,` or `]`"
  | trailingComma => "trailing comma"
  | endInObject => "EOF while parsing an object"
  | keyNotString => "key must be a string"
  | expectedColon => "expected `:`"
  | expectedObjectEnd => "expected `,` or `\x7d`"
  | tooDeep => "recursion limit exceeded"
  | trailingCharacters => "trailing characters"

/-- A fault: its cause, the unread text where it was noticed, and how many bytes of that
text had been looked at. -/
structure Fault where
  cause : Cause
  rest : List Char
  past : Nat := 0

/-- What was read from the front of `cs`, and the rest, which is shorter. -/
structure Taken (α : Type) (cs : List Char) where
  value : α
  rest : List Char
  shorter : rest.length < cs.length

/-- Reads from the front of a text. -/
abbrev Reader (α : Type) := (cs : List Char) → Except Fault (Taken α cs)

theorem length_lt_cons (c : Char) (cs : List Char) : cs.length < (c :: cs).length :=
  Nat.lt_succ_self _

theorem length_le_cons (c : Char) (cs : List Char) : cs.length ≤ (c :: cs).length :=
  Nat.le_succ _

theorem Taken.shorter_cons {α : Type} {cs : List Char} (t : Taken α cs) :
    t.rest.length < cs.length + 1 :=
  Nat.lt_succ_of_lt t.shorter

/-- What is left of a longer text is shorter than it. -/
def Taken.weaken {α : Type} {cs ds : List Char} (t : Taken α cs) (h : cs.length ≤ ds.length) :
    Taken α ds :=
  ⟨t.value, t.rest, Nat.lt_of_lt_of_le t.shorter h⟩

/-- The same rest with another value. -/
def Taken.map {α β : Type} {cs : List Char} (f : α → β) (t : Taken α cs) : Taken β cs :=
  ⟨f t.value, t.rest, t.shorter⟩

/-- The blanks of JSON. -/
def isSpace (c : Char) : Bool := c = ' ' || c = '\t' || c = '\n' || c = '\r'

/-- The text after the blanks in front. -/
def skip (cs : List Char) : List Char := cs.dropWhile isSpace

theorem length_skip_le (cs : List Char) : (skip cs).length ≤ cs.length :=
  (List.dropWhile_suffix isSpace).length_le

theorem length_skip {c : Char} {cs rest : List Char} (h : skip cs = c :: rest) :
    (c :: rest).length ≤ cs.length :=
  h ▸ length_skip_le cs

theorem length_after_skip {c : Char} {cs rest : List Char} (h : skip cs = c :: rest) :
    rest.length < cs.length :=
  length_skip h

/-! ### Words -/

/-- Takes `word` off the front of the text. -/
def word (value : Json) : List Char → (cs : List Char) → Except Fault (Json × List Char)
  | [], cs => .ok (value, cs)
  | _ :: _, [] => .error ⟨.endInValue, [], 0⟩
  | e :: es, c :: cs => if c = e then word value es cs else .error ⟨.expectedWord, c :: cs, 1⟩

theorem length_word {value v : Json} {es cs rest : List Char}
    (h : word value es cs = .ok (v, rest)) : rest.length ≤ cs.length := by
  induction es generalizing cs with
  | nil =>
      simp only [word, Except.ok.injEq, Prod.mk.injEq] at h
      simp [h.2]
  | cons e es ih =>
      cases cs with
      | nil => simp [word] at h
      | cons c cs =>
          simp only [word] at h
          split at h
          · exact Nat.le_succ_of_le (ih h)
          · simp at h

/-! ### Numbers -/

/-- The value of a digit. -/
def digitValue (c : Char) : Nat := c.toNat - '0'.toNat

/-- Gathers digits after `s` while the number fits 64 bits: the number, how many digits
were gathered, how many did not fit, and the rest. -/
def gather (s : Nat) : List Char → Nat × Nat × Nat × List Char
  | [] => (s, 0, 0, [])
  | c :: rest =>
    if c.isDigit then
      if 10 * s + digitValue c < UInt64.size then
        let (s, taken, left, rest) := gather (10 * s + digitValue c) rest
        (s, taken + 1, left, rest)
      -- from the first digit that does not fit, digits are only counted
      else (s, 0, (rest.takeWhile Char.isDigit).length + 1, rest.dropWhile Char.isDigit)
    else (s, 0, 0, c :: rest)

theorem length_gather (s : Nat) (cs : List Char) : (gather s cs).2.2.2.length ≤ cs.length := by
  induction cs generalizing s with
  | nil => simp [gather]
  | cons c rest ih =>
      simp only [gather]
      split
      · split
        · exact Nat.le_succ_of_le (ih _)
        · exact Nat.le_succ_of_le (List.dropWhile_suffix Char.isDigit).length_le
      · exact Nat.le_refl _

/-- `x * 10 ^ e` in doubles, or nothing if that is infinite. Powers beyond `10 ^ 308` are
applied in portions. -/
def scale (x : Float) (e : Int) : Option Float :=
  if e.natAbs ≤ 308 then
    let power := Float.ofScientific 1 false e.natAbs
    if 0 ≤ e then
      if (x * power).isInf then none else some (x * power)
    else some (x / power)
  else if x == 0 then some x
  else if 0 ≤ e then none
  else scale (x / Float.ofScientific 1 false 308) (e + 308)
termination_by e.natAbs

/-- The double `± s * 10 ^ e` before `rest`. -/
def double (negative : Bool) (s : Nat) (e : Int) (rest : List Char) :
    Except Fault (Json × List Char) :=
  match scale (Float.ofNat s) e with
  | none => .error ⟨.numberOutOfRange, rest, 0⟩
  | some x => .ok (.float (if negative then -x else x), rest)

/-- The digits of an exponent as long as its value fits 31 bits; `none` with the rest if
it does not. -/
def exponentDigits (e : Nat) : List Char → Option Nat × List Char
  | [] => (some e, [])
  | c :: rest =>
    if c.isDigit then
      if 10 * e + digitValue c < UInt32.size / 2 then exponentDigits (10 * e + digitValue c) rest
      else (none, rest)
    else (some e, c :: rest)

theorem length_exponentDigits (e : Nat) (cs : List Char) :
    (exponentDigits e cs).2.length ≤ cs.length := by
  induction cs generalizing e with
  | nil => simp [exponentDigits]
  | cons c rest ih =>
      simp only [exponentDigits]
      split
      · split
        · exact Nat.le_succ_of_le (ih _)
        · exact Nat.le_succ _
      · exact Nat.le_refl _

/-- The rest of a double after the `e`: the digits of the exponent behind its sign. -/
def afterSign (negative up : Bool) (s : Nat) (e : Int) (cs : List Char) :
    Except Fault (Json × List Char) :=
  match cs with
  | [] => .error ⟨.endInValue, [], 0⟩
  | c :: rest =>
    if c.isDigit then
      match exponentDigits (digitValue c) rest with
      | (some n, rest) => double negative s (if up then e + n else e - n) rest
      -- an exponent beyond 31 bits gives an infinity or a zero
      | (none, rest) =>
        if s ≠ 0 && up then .error ⟨.numberOutOfRange, rest, 0⟩
        else .ok (.float (if negative then -0.0 else 0.0), rest.dropWhile Char.isDigit)
    else .error ⟨.invalidNumber, c :: rest, 1⟩

/-- The rest of a double after the `e`. -/
def afterExponentMark (negative : Bool) (s : Nat) (e : Int) :
    List Char → Except Fault (Json × List Char)
  | '+' :: cs => afterSign negative true s e cs
  | '-' :: cs => afterSign negative false s e cs
  | cs => afterSign negative true s e cs

/-- A double whose digits are read, up to its exponent. -/
def afterDigits (negative : Bool) (s : Nat) (e : Int) (cs : List Char) :
    Except Fault (Json × List Char) :=
  match cs with
  | c :: rest =>
    if c = 'e' || c = 'E' then afterExponentMark negative s e rest else double negative s e cs
  | [] => double negative s e []

/-- The rest of a double after the point. -/
def afterPoint (negative : Bool) (s : Nat) (e : Int) (cs : List Char) :
    Except Fault (Json × List Char) :=
  match cs with
  | [] => .error ⟨.endInValue, [], 0⟩
  | c :: _ =>
    if c.isDigit then
      let (s, taken, _, rest) := gather s cs
      afterDigits negative s (e - taken) rest
    else .error ⟨.invalidNumber, cs, 1⟩

/-- A whole number `± s`; as a double where it is `-0` or below the range of 64 bits. -/
def whole (negative : Bool) (s : Nat) : Json :=
  if negative then
    if s = 0 || s > UInt64.size / 2 then .float (-Float.ofNat s) else .int (-(s : Int))
  else .int s

/-- The rest of a number after its whole part `s * 10 ^ left`. -/
def afterWhole (negative : Bool) (s left : Nat) (cs : List Char) :
    Except Fault (Json × List Char) :=
  match cs with
  | '.' :: rest => afterPoint negative s left rest
  | _ =>
    if left = 0 && !(cs.head? = some 'e' || cs.head? = some 'E') then .ok (whole negative s, cs)
    else afterDigits negative s left cs

/-- A number after its sign. -/
def unsigned (negative : Bool) (cs : List Char) : Except Fault (Json × List Char) :=
  match cs with
  | [] => .error ⟨.endInValue, [], 0⟩
  | c :: rest =>
    if c = '0' then
      if rest.head?.any Char.isDigit then .error ⟨.invalidNumber, rest, 1⟩
      else afterWhole negative 0 0 rest
    else if c.isDigit then
      let (s, _, left, rest) := gather (digitValue c) rest
      afterWhole negative s left rest
    else .error ⟨.invalidNumber, cs, 1⟩

theorem length_double {negative : Bool} {s : Nat} {e : Int} {cs rest : List Char} {v : Json}
    (h : double negative s e cs = .ok (v, rest)) : rest.length ≤ cs.length := by
  simp only [double] at h
  split at h
  · simp at h
  · simp only [Except.ok.injEq, Prod.mk.injEq] at h
    simp [h.2]

theorem length_afterSign {negative up : Bool} {s : Nat} {e : Int} {cs rest : List Char} {v : Json}
    (h : afterSign negative up s e cs = .ok (v, rest)) : rest.length ≤ cs.length := by
  cases cs with
  | nil => simp [afterSign] at h
  | cons c tail =>
      simp only [afterSign] at h
      split at h
      · have bound := length_exponentDigits (digitValue c) tail
        split at h
        · next n r heq =>
          rw [heq] at bound
          exact Nat.le_succ_of_le (Nat.le_trans (length_double h) bound)
        · next r heq =>
          rw [heq] at bound
          split at h
          · simp at h
          · simp only [Except.ok.injEq, Prod.mk.injEq] at h
            rw [← h.2]
            exact Nat.le_succ_of_le
              (Nat.le_trans (List.dropWhile_suffix Char.isDigit).length_le bound)
      · simp at h

theorem length_afterExponentMark {negative : Bool} {s : Nat} {e : Int} {cs rest : List Char}
    {v : Json} (h : afterExponentMark negative s e cs = .ok (v, rest)) :
    rest.length ≤ cs.length := by
  unfold afterExponentMark at h
  split at h
  · exact Nat.le_succ_of_le (length_afterSign h)
  · exact Nat.le_succ_of_le (length_afterSign h)
  · exact length_afterSign h

theorem length_afterDigits {negative : Bool} {s : Nat} {e : Int} {cs rest : List Char} {v : Json}
    (h : afterDigits negative s e cs = .ok (v, rest)) : rest.length ≤ cs.length := by
  cases cs with
  | nil => exact length_double h
  | cons c tail =>
      simp only [afterDigits] at h
      split at h
      · exact Nat.le_succ_of_le (length_afterExponentMark h)
      · exact length_double h

theorem length_afterPoint {negative : Bool} {s : Nat} {e : Int} {cs rest : List Char} {v : Json}
    (h : afterPoint negative s e cs = .ok (v, rest)) : rest.length ≤ cs.length := by
  cases cs with
  | nil => simp [afterPoint] at h
  | cons c tail =>
      simp only [afterPoint] at h
      split at h
      · exact Nat.le_trans (length_afterDigits h) (length_gather s (c :: tail))
      · simp at h

theorem length_afterWhole {negative : Bool} {s left : Nat} {cs rest : List Char} {v : Json}
    (h : afterWhole negative s left cs = .ok (v, rest)) : rest.length ≤ cs.length := by
  unfold afterWhole at h
  split at h
  · exact Nat.le_succ_of_le (length_afterPoint h)
  · split at h
    · simp only [Except.ok.injEq, Prod.mk.injEq] at h
      simp [h.2]
    · exact length_afterDigits h

theorem length_unsigned {negative : Bool} {cs rest : List Char} {v : Json}
    (h : unsigned negative cs = .ok (v, rest)) : rest.length < cs.length := by
  cases cs with
  | nil => simp [unsigned] at h
  | cons c tail =>
      simp only [unsigned] at h
      split at h
      · split at h
        · simp at h
        · exact Nat.lt_succ_of_le (length_afterWhole h)
      · split at h
        · exact Nat.lt_succ_of_le
            (Nat.le_trans (length_afterWhole h) (length_gather (digitValue c) tail))
        · simp at h

/-! ### Strings -/

/-- The value of a hexadecimal digit. -/
def hexValue? (c : Char) : Option Nat :=
  if c.isDigit then some (c.toNat - 48)
  else if 'a' ≤ c && c ≤ 'f' then some (c.toNat - 87)
  else if 'A' ≤ c && c ≤ 'F' then some (c.toNat - 55)
  else none

/-- The value of four hexadecimal digits. -/
def hexFour? (a b c d : Char) : Option Nat := do
  let a ← hexValue? a
  let b ← hexValue? b
  let c ← hexValue? c
  let d ← hexValue? d
  return ((a * 16 + b) * 16 + c) * 16 + d

/-- Four hexadecimal digits. They take four bytes, whatever these hold. -/
def hexDigits : Reader Nat
  | a :: b :: c :: d :: rest =>
    match hexFour? a b c d with
    | some n => .ok ⟨n, rest, by simp; omega⟩
    | none => .error ⟨.invalidEscape, a :: b :: c :: d :: rest, 4⟩
  | cs => if Text.width cs < 4 then .error ⟨.endInString, [], 0⟩ else .error ⟨.invalidEscape, cs, 4⟩

/-- The second half of a character beyond U+FFFF, whose first half is `high`. -/
def lowSurrogate (high : Nat) : Reader Char
  | '\\' :: 'u' :: cs =>
    match hexDigits cs with
    | .error fault => .error fault
    | .ok taken =>
      if 0xDC00 ≤ taken.value && taken.value ≤ 0xDFFF then
        .ok ⟨Char.ofNat (0x10000 + (high - 0xD800) * 0x400 + (taken.value - 0xDC00)), taken.rest,
          by have := taken.shorter; simp; omega⟩
      else .error ⟨.loneSurrogate, taken.rest, 0⟩
  | '\\' :: [] => .error ⟨.endInString, [], 0⟩
  | '\\' :: c :: cs => .error ⟨.endOfHexEscape, c :: cs, 1⟩
  | [] => .error ⟨.endInString, [], 0⟩
  | c :: cs => .error ⟨.endOfHexEscape, c :: cs, 1⟩

/-- The character that a letter after a backslash stands for. -/
def letter? : Char → Option Char
  | '"' => some '"'
  | '\\' => some '\\'
  | '/' => some '/'
  | 'b' => some '\x08'
  | 'f' => some '\x0c'
  | 'n' => some '\n'
  | 'r' => some '\r'
  | 't' => some '\t'
  | _ => none

/-- What follows a backslash. -/
def escape : Reader Char
  | [] => .error ⟨.endInString, [], 0⟩
  | 'u' :: cs =>
    match hexDigits cs with
    | .error fault => .error fault
    | .ok taken =>
      if 0xDC00 ≤ taken.value && taken.value ≤ 0xDFFF then .error ⟨.loneSurrogate, taken.rest, 0⟩
      else if 0xD800 ≤ taken.value && taken.value ≤ 0xDBFF then
        match lowSurrogate taken.value taken.rest with
        | .error fault => .error fault
        | .ok low => .ok (low.weaken (by have := taken.shorter; simp; omega))
      else .ok ⟨Char.ofNat taken.value, taken.rest, by have := taken.shorter; simp; omega⟩
  | c :: cs =>
    match letter? c with
    | some d => .ok ⟨d, cs, by simp⟩
    | none => .error ⟨.invalidEscape, c :: cs, 1⟩

/-- A text after its opening quote, up to and with the closing one. -/
def stringBody : Reader (List Char)
  | [] => .error ⟨.endInString, [], 0⟩
  | c :: cs =>
    if c = '"' then .ok ⟨[], cs, by simp⟩
    else if c = '\\' then
      match escape cs with
      | .error fault => .error fault
      | .ok taken =>
        have := taken.shorter
        match stringBody taken.rest with
        | .error fault => .error fault
        | .ok tail => .ok ⟨taken.value :: tail.value, tail.rest,
            by have := tail.shorter; simp; omega⟩
    else if c.toNat < 0x20 then .error ⟨.controlCharacter, c :: cs, 1⟩
    else
      match stringBody cs with
      | .error fault => .error fault
      | .ok tail => .ok ⟨c :: tail.value, tail.rest, by have := tail.shorter; simp; omega⟩
termination_by cs => cs.length
decreasing_by
  · simp; omega
  · simp

/-! ### Lists and objects -/

/-- The elements of a list from the first one on, up to and with the closing bracket. -/
def elements {α : Type} (item : Reader α) (cs : List Char) : Except Fault (Taken (List α) cs) :=
  match item cs with
  | .error fault => .error fault
  | .ok first =>
    have bound := length_skip_le first.rest
    match h : skip first.rest with
    | [] => .error ⟨.endInList, [], 0⟩
    | c :: rest =>
      have short : rest.length < cs.length := by
        have := first.shorter; rw [h] at bound; simp at bound; omega
      if c = ']' then .ok ⟨[first.value], rest, short⟩
      else if c = ',' then
        have bound' := length_skip_le rest
        match h' : skip rest with
        | [] => .error ⟨.endInValue, [], 0⟩
        | d :: rest' =>
          if d = ']' then .error ⟨.trailingComma, d :: rest', 1⟩
          else
            match elements item (d :: rest') with
            | .error fault => .error fault
            | .ok more => .ok ⟨first.value :: more.value, more.rest, by
                have := more.shorter; rw [h'] at bound'; omega⟩
      else .error ⟨.expectedListEnd, c :: rest, 1⟩
termination_by cs.length
decreasing_by rw [h'] at bound'; omega

/-- A list after its opening bracket. -/
def list {α : Type} (item : Reader α) : Reader (List α) := fun cs =>
  match h : skip cs with
  | [] => .error ⟨.endInList, [], 0⟩
  | c :: rest =>
    if c = ']' then .ok ⟨[], rest, length_after_skip h⟩
    else
      match elements item (c :: rest) with
      | .error fault => .error fault
      | .ok taken => .ok (taken.weaken (length_skip h))

/-- A member from its opening quote on, with a reader of names and one of values for each name. -/
def member {κ α : Type} (name : Reader κ) (item : κ → Reader α) : Reader (κ × α)
  | [] => .error ⟨.endInValue, [], 0⟩
  | c :: cs =>
    if c = '"' then
      match name cs with
      | .error fault => .error fault
      | .ok key =>
        have bound := length_skip_le key.rest
        match h : skip key.rest with
        | [] => .error ⟨.endInObject, [], 0⟩
        | d :: rest =>
          if d = ':' then
            match item key.value rest with
            | .error fault => .error fault
            | .ok taken => .ok ⟨(key.value, taken.value), taken.rest, by
                have := key.shorter; have := taken.shorter
                rw [h] at bound; simp at bound ⊢; omega⟩
          else .error ⟨.expectedColon, d :: rest, 1⟩
    else .error ⟨.keyNotString, c :: cs, 1⟩

/-- The members of an object from the first one on, up to and with the closing brace. -/
def members {κ α : Type} (name : Reader κ) (item : κ → Reader α) (cs : List Char) :
    Except Fault (Taken (List (κ × α)) cs) :=
  match member name item cs with
  | .error fault => .error fault
  | .ok first =>
    have bound := length_skip_le first.rest
    match h : skip first.rest with
    | [] => .error ⟨.endInObject, [], 0⟩
    | c :: rest =>
      have short : rest.length < cs.length := by
        have := first.shorter; rw [h] at bound; simp at bound; omega
      if c = '}' then .ok ⟨[first.value], rest, short⟩
      else if c = ',' then
        have bound' := length_skip_le rest
        match h' : skip rest with
        | [] => .error ⟨.endInValue, [], 0⟩
        | d :: rest' =>
          if d = '}' then .error ⟨.trailingComma, d :: rest', 1⟩
          else
            match members name item (d :: rest') with
            | .error fault => .error fault
            | .ok more => .ok ⟨first.value :: more.value, more.rest, by
                have := more.shorter; rw [h'] at bound'; omega⟩
      else .error ⟨.expectedObjectEnd, c :: rest, 1⟩
termination_by cs.length
decreasing_by rw [h'] at bound'; omega

/-- An object after its opening brace. -/
def object {κ α : Type} (name : Reader κ) (item : κ → Reader α) : Reader (List (κ × α)) := fun cs =>
  match h : skip cs with
  | [] => .error ⟨.endInObject, [], 0⟩
  | c :: rest =>
    if c = '}' then .ok ⟨[], rest, length_after_skip h⟩
    else
      match members name item (c :: rest) with
      | .error fault => .error fault
      | .ok taken => .ok (taken.weaken (length_skip h))

/-! ### Values -/

/-- A word, number or text that starts with `c`; `cs` follows it. -/
def scalar (c : Char) (cs : List Char) : Except Fault (Taken Json (c :: cs)) :=
  let named := fun (v : Json) (letters : String) =>
    match h : word v letters.toList cs with
    | .error fault => .error fault
    | .ok (v, rest) => .ok ⟨v, rest, Nat.lt_succ_of_le (length_word h)⟩
  if c = 'n' then named .null "ull"
  else if c = 't' then named (.bool true) "rue"
  else if c = 'f' then named (.bool false) "alse"
  else if c = '"' then
    match stringBody cs with
    | .error fault => .error fault
    | .ok taken => .ok ⟨.str (String.ofList taken.value), taken.rest, taken.shorter_cons⟩
  else if c = '-' then
    match h : unsigned true cs with
    | .error fault => .error fault
    | .ok (v, rest) => .ok ⟨v, rest, Nat.lt_succ_of_lt (length_unsigned h)⟩
  else if c.isDigit then
    match h : unsigned false (c :: cs) with
    | .error fault => .error fault
    | .ok (v, rest) => .ok ⟨v, rest, length_unsigned h⟩
  else .error ⟨.expectedValue, c :: cs, 1⟩

/-- A value after blanks, with given readers for words, numbers and texts, and for what follows
an opening bracket or brace. -/
def valueWith {α : Type} (scalar : (c : Char) → (cs : List Char) → Except Fault (Taken α (c :: cs)))
    (items entries : Reader α) : Reader α := fun cs =>
  match h : skip cs with
  | [] => .error ⟨.endInValue, [], 0⟩
  | c :: rest =>
    have shorter := length_after_skip h
    if c = '[' then
      match items rest with
      | .error fault => .error fault
      | .ok taken => .ok (taken.weaken (Nat.le_of_lt shorter))
    else if c = '{' then
      match entries rest with
      | .error fault => .error fault
      | .ok taken => .ok (taken.weaken (Nat.le_of_lt shorter))
    else
      match scalar c rest with
      | .error fault => .error fault
      | .ok taken => .ok (taken.weaken shorter)

/-- A text in quotes after the opening one. -/
def text : Reader String := fun cs => (stringBody cs).map (Taken.map String.ofList)

/-- A list whose elements are values after its opening bracket. -/
def array (item : Reader Json) : Reader Json := fun cs => (list item cs).map (Taken.map .arr)

/-- An object after its opening brace, with a reader of values for each name. -/
def record (item : String → Reader Json) : Reader Json := fun cs =>
  (object text item cs).map (Taken.map .obj)

/-- A bracket or brace more than may be open. -/
def tooDeep {α : Type} : Reader α := fun cs => .error ⟨.tooDeep, cs, 0⟩

/-- A value with at most `depth` brackets and braces open at once. -/
def value : Nat → Reader Json
  | 0 => valueWith scalar tooDeep tooDeep
  | depth + 1 => valueWith scalar (array (value depth)) (record fun _ => value depth)

/-- What a reader finds in a whole text with blanks around it. -/
def readWith {α : Type} (reader : Reader α) (cs : List Char) : Except Fault α :=
  match reader cs with
  | .error fault => .error fault
  | .ok taken =>
    match skip taken.rest with
    | [] => .ok taken.value
    | rest => .error ⟨.trailingCharacters, rest, 1⟩

/-- Reads a whole text as one value with blanks around it. -/
def read (depth : Nat) (cs : List Char) : Except Fault Json := readWith (value depth) cs

/-- A place in a text: its line and the number of bytes before it on that line. -/
structure Place where
  line : Nat
  column : Nat
deriving DecidableEq, Repr

/-- The place `bytes` bytes into the text. A line end belongs to the line that it ends. -/
def placeAfter (bytes : Nat) : List Char → Place → Place
  | [], place => { place with column := place.column + bytes }
  | c :: rest, place =>
    if bytes < c.utf8Size then { place with column := place.column + bytes }
    else if c = '\n' then placeAfter (bytes - 1) rest ⟨place.line + 1, 0⟩
    else placeAfter (bytes - c.utf8Size) rest { place with column := place.column + c.utf8Size }

/-- Where a fault in the text was noticed. -/
def Fault.place (fault : Fault) (text : List Char) : Place :=
  let total := Text.width text
  placeAfter (min total (total - Text.width fault.rest + fault.past)) text ⟨1, 0⟩

/-- A fault with its place. -/
def Fault.message (fault : Fault) (text : List Char) : String :=
  let place := fault.place text
  s!"{fault.cause.message} at line {place.line} column {place.column}"

end RecordInference.Json
