import RecordInference.Decimal.Shortest

/-!
# How a number is written

A layout fixes the decisions that remain once the digits are chosen: which exponents
are written positionally, whether a whole number keeps a `.0`, and where exact ties go.
-/

set_option autoImplicit false

namespace RecordInference.Decimal

/-- The decisions of a number format. -/
structure Layout where
  /-- Whether a number whose leading digit has this exponent is written without one. -/
  positional : Int → Bool
  /-- Whether a whole number ends in `.0`. -/
  pointZero : Bool
  tie : Tie

namespace Layout

/-- `n` zeros. -/
def zeros (n : Nat) : List Char := List.replicate n '0'

/-- The digits with the point set; the leading digit stands for `10 ^ e`. -/
def plain (l : Layout) (digits : List Char) (e : Int) : List Char :=
  if e < 0 then ['0', '.'] ++ zeros (-e - 1).toNat ++ digits
  else
    let whole := e.toNat + 1
    if digits.length ≤ whole then
      digits ++ zeros (whole - digits.length) ++ (if l.pointZero then ['.', '0'] else [])
    else digits.take whole ++ '.' :: digits.drop whole

/-- One digit before the point and the exponent `e` with its sign after the digits. -/
def scientific (digits : List Char) (e : Int) : List Char :=
  let mantissa :=
    match digits with
    | [] => []
    | [d] => [d]
    | d :: rest => d :: '.' :: rest
  mantissa ++ 'e' :: (if e < 0 then '-' else '+') :: Nat.toDigits 10 e.natAbs

/-- The decimal written in this layout. -/
def magnitude (l : Layout) (d : Digits) : List Char :=
  let digits := Nat.toDigits 10 d.digits
  let e := d.exponent + digits.length - 1
  if l.positional e then l.plain digits e else scientific digits e

/-- Whether the sign bit is set. -/
def signed (x : Float) : Bool := x.toBits >>> 63 = 1

/-- The text of a double in this layout. -/
def write (l : Layout) (x : Float) : List Char :=
  if x.isNaN then "NaN".toList
  else
    let sign := if signed x then ['-'] else []
    if x.isInf then sign ++ "inf".toList
    else
      let binary := Binary.ofBits (x.toBits &&& 0x7FFFFFFFFFFFFFFF)
      let digits := if binary.m = 0 then ⟨0, 0⟩ else binary.shortest l.tie
      sign ++ l.magnitude digits

end Layout

end RecordInference.Decimal
