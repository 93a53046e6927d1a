import RecordInference.Json.Reader

/-!
# Outlines of values

A value that nobody asks for is read for its form alone: its numbers may be out of range, and
its texts may hold halves of characters. `Json.readMembers` reads an object so that all members
but the wanted ones are outlines.
-/

set_option autoImplicit false

namespace RecordInference.Json

/-- A text without what is read of it. -/
abbrev Outline := Reader Unit

/-- What follows a backslash. Four digits need not name a character. -/
def escapeOutline : Outline
  | [] => .error ⟨.endInString, [], 0⟩
  | 'u' :: cs =>
    match hexDigits cs with
    | .error fault => .error fault
    | .ok taken => .ok ⟨(), taken.rest, taken.shorter_cons⟩
  | c :: cs =>
    if (letter? c).isSome then .ok ⟨(), cs, length_lt_cons c cs⟩
    else .error ⟨.invalidEscape, c :: cs, 1⟩

/-- A text after its opening quote, up to and with the closing one. -/
def textOutline : Outline
  | [] => .error ⟨.endInString, [], 0⟩
  | c :: cs =>
    if c = '"' then .ok ⟨(), cs, length_lt_cons c cs⟩
    else if c = '\\' then
      match escapeOutline cs with
      | .error fault => .error fault
      | .ok taken =>
        have shorter := taken.shorter_cons
        match textOutline taken.rest with
        | .error fault => .error fault
        | .ok tail => .ok (tail.weaken (Nat.le_of_lt shorter))
    else if c.toNat < 0x20 then .error ⟨.controlCharacter, c :: cs, 1⟩
    else
      match textOutline cs with
      | .error fault => .error fault
      | .ok tail => .ok (tail.weaken (length_le_cons c cs))
termination_by cs => cs.length
decreasing_by
  · exact shorter
  · exact length_lt_cons c cs

/-! ### Numbers -/

/-- The text after one digit or more. -/
def afterSomeDigits (cs : List Char) : Except Fault (List Char) :=
  match cs with
  | [] => .error ⟨.endInValue, [], 0⟩
  | c :: rest =>
    if c.isDigit then .ok (rest.dropWhile Char.isDigit) else .error ⟨.invalidNumber, c :: rest, 1⟩

/-- The text after an exponent, if there is one. -/
def afterExponent (cs : List Char) : Except Fault (List Char) :=
  match cs with
  | [] => .ok []
  | c :: rest =>
    if c = 'e' || c = 'E' then
      match rest with
      | '+' :: digits => afterSomeDigits digits
      | '-' :: digits => afterSomeDigits digits
      | digits => afterSomeDigits digits
    else .ok (c :: rest)

/-- The text after a fraction, if there is one, and an exponent. -/
def afterFraction (cs : List Char) : Except Fault (List Char) :=
  match cs with
  | '.' :: digits =>
    match afterSomeDigits digits with
    | .error fault => .error fault
    | .ok rest => afterExponent rest
  | _ => afterExponent cs

/-- The text after a number that starts with the digit `c`. -/
def afterNumber (c : Char) (cs : List Char) : Except Fault (List Char) :=
  if c = '0' then
    if cs.head?.any Char.isDigit then .error ⟨.invalidNumber, cs, 1⟩ else afterFraction cs
  else afterFraction (cs.dropWhile Char.isDigit)

theorem length_afterSomeDigits {cs rest : List Char} (h : afterSomeDigits cs = .ok rest) :
    rest.length ≤ cs.length := by
  cases cs with
  | nil => simp [afterSomeDigits] at h
  | cons c tail =>
      simp only [afterSomeDigits] at h
      split at h
      · simp only [Except.ok.injEq] at h
        rw [← h]
        exact Nat.le_succ_of_le (List.dropWhile_suffix Char.isDigit).length_le
      · simp at h

theorem length_afterExponent {cs rest : List Char} (h : afterExponent cs = .ok rest) :
    rest.length ≤ cs.length := by
  cases cs with
  | nil =>
      simp only [afterExponent, Except.ok.injEq] at h
      simp [← h]
  | cons c tail =>
      simp only [afterExponent] at h
      split at h
      · split at h
        · exact Nat.le_succ_of_le (Nat.le_succ_of_le (length_afterSomeDigits h))
        · exact Nat.le_succ_of_le (Nat.le_succ_of_le (length_afterSomeDigits h))
        · exact Nat.le_succ_of_le (length_afterSomeDigits h)
      · simp only [Except.ok.injEq] at h
        simp [← h]

theorem length_afterFraction {cs rest : List Char} (h : afterFraction cs = .ok rest) :
    rest.length ≤ cs.length := by
  unfold afterFraction at h
  split at h
  · split at h
    · simp at h
    · next digits more heq =>
      exact Nat.le_succ_of_le (Nat.le_trans (length_afterExponent h) (length_afterSomeDigits heq))
  · exact length_afterExponent h

theorem length_afterNumber {c : Char} {cs rest : List Char} (h : afterNumber c cs = .ok rest) :
    rest.length ≤ cs.length := by
  unfold afterNumber at h
  split at h
  · split at h
    · simp at h
    · exact length_afterFraction h
  · exact Nat.le_trans (length_afterFraction h) (List.dropWhile_suffix Char.isDigit).length_le

/-! ### Values -/

/-- A word, number or text that starts with `c`; `cs` follows it. -/
def scalarOutline (c : Char) (cs : List Char) : Except Fault (Taken Unit (c :: cs)) :=
  if c = '"' then
    match textOutline cs with
    | .error fault => .error fault
    | .ok taken => .ok (taken.weaken (by simp))
  else if c = '-' then
    match cs with
    | [] => .error ⟨.endInValue, [], 0⟩
    | d :: digits =>
      if d.isDigit then
        match h : afterNumber d digits with
        | .error fault => .error fault
        | .ok rest => .ok ⟨(), rest, by have := length_afterNumber h; simp; omega⟩
      else .error ⟨.invalidNumber, d :: digits, 1⟩
  else if c.isDigit then
    match h : afterNumber c cs with
    | .error fault => .error fault
    | .ok rest => .ok ⟨(), rest, by have := length_afterNumber h; simp; omega⟩
  else
    match scalar c cs with
    | .error fault => .error fault
    | .ok taken => .ok (taken.map fun _ => ())

/-- A value with at most `depth` brackets and braces open at once. -/
def outline : Nat → Outline
  | 0 => valueWith scalarOutline tooDeep tooDeep
  | depth + 1 =>
    valueWith scalarOutline
      (fun cs => (list (outline depth) cs).map (Taken.map fun _ => ()))
      (fun cs => (object textOutline (fun _ => outline depth) cs).map (Taken.map fun _ => ()))

/-- A value of which only the form is looked at; it comes out as `null`. -/
def ignored (depth : Nat) : Reader Json := fun cs =>
  (outline depth cs).map (Taken.map fun _ => .null)

/-- Reads a whole text as one value. If it is an object, its members are ignored unless they are
`wanted`. -/
def readMembers (wanted : String → Bool) (depth : Nat) (cs : List Char) : Except Fault Json :=
  readWith
    (valueWith scalar (array (value depth))
      (record fun name => if wanted name then value depth else ignored depth))
    cs

end RecordInference.Json
