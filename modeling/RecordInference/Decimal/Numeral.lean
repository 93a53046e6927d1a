/-!
# Reading numbers

`readFloat?` reads a decimal number: an optional sign, digits with at most one point and
at least one digit, an optional exponent; or `inf`, `infinity`, `nan` in any case. The
result is the double nearest to the value written. `readNat?` reads a natural number of
bounded size. Neither accepts blanks.
-/

set_option autoImplicit false

namespace RecordInference.Decimal

/-- The value of a run of decimal digits. -/
def digitsValue (ds : List Char) : Nat :=
  ds.foldl (fun n c => 10 * n + (c.toNat - '0'.toNat)) 0

/-- The double nearest to `m * 10 ^ e`. Beyond the range of doubles it is zero or infinite,
which the number of digits of `m` shows without computing the power. -/
def nearest (m : Nat) (e : Int) : Float :=
  if m = 0 then 0
  else
    let size := e + (Nat.toDigits 10 m).length
    if size > 400 then 1 / 0
    else if size < -400 then 0
    else Float.ofScientific m (e < 0) e.natAbs

/-- The exponent after `e`: an optional sign and at least one digit, and nothing else. -/
def readExponent? : List Char → Option Int
  | '-' :: ds => if !ds.isEmpty && ds.all Char.isDigit then some (-(digitsValue ds : Int)) else none
  | '+' :: ds => if !ds.isEmpty && ds.all Char.isDigit then some (digitsValue ds) else none
  | ds => if !ds.isEmpty && ds.all Char.isDigit then some (digitsValue ds) else none

/-- An unsigned decimal number: digits around an optional point, then an optional exponent. -/
def readMagnitude? (cs : List Char) : Option Float :=
  let whole := cs.takeWhile Char.isDigit
  let afterWhole := cs.dropWhile Char.isDigit
  let (fraction, rest) :=
    match afterWhole with
    | '.' :: tail => (tail.takeWhile Char.isDigit, tail.dropWhile Char.isDigit)
    | _ => ([], afterWhole)
  let digits := whole ++ fraction
  if digits.isEmpty then none
  else
    match rest with
    | [] => some (nearest (digitsValue digits) (-(fraction.length : Int)))
    | c :: tail =>
      if c = 'e' || c = 'E' then
        (readExponent? tail).map fun e => nearest (digitsValue digits) (e - fraction.length)
      else none

/-- The words for the values that are no decimal numbers. -/
def readSpecial? (cs : List Char) : Option Float :=
  let word := cs.map Char.toLower
  if word = "inf".toList || word = "infinity".toList then some (1 / 0)
  else if word = "nan".toList then some (0 / 0)
  else none

/-- An unsigned number or a special value. -/
def readUnsigned? (cs : List Char) : Option Float :=
  match readMagnitude? cs with
  | some x => some x
  | none => readSpecial? cs

/-- The double that the text denotes. -/
def readFloat? : List Char → Option Float
  | '-' :: cs => (readUnsigned? cs).map fun x => -x
  | '+' :: cs => readUnsigned? cs
  | cs => readUnsigned? cs

/-- The natural number that the text denotes, if it is at most `bound`. -/
def readNat? (bound : Nat) (cs : List Char) : Option Nat :=
  let ds := match cs with
    | '+' :: ds => ds
    | ds => ds
  if !ds.isEmpty && ds.all Char.isDigit && digitsValue ds ≤ bound then some (digitsValue ds)
  else none

end RecordInference.Decimal
