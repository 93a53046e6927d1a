/-!
# The fewest digits that identify a double

A finite positive double is `m * 2 ^ q`. The reals that round to it form an interval,
whose ends belong to it exactly when `m` is even. `Binary.shortest` finds a decimal in
that interval with as few digits as possible and, of those, nearest to the value.
All arithmetic is exact.
-/

set_option autoImplicit false

namespace RecordInference.Decimal

/-- A finite non-negative double, `m * 2 ^ q`. -/
structure Binary where
  m : Nat
  q : Int
  /-- The gap to the double below is half the gap to the double above. -/
  narrowBelow : Bool

/-- The double with these bits. The bits are those of a finite value, its sign apart. -/
def Binary.ofBits (bits : UInt64) : Binary :=
  let exponent := ((bits >>> 52) &&& 0x7FF).toNat
  let fraction := (bits &&& 0xFFFFFFFFFFFFF).toNat
  if exponent = 0 then ⟨fraction, -1074, false⟩
  -- the first bit of a normal double is not stored
  else ⟨0x10000000000000 + fraction, (exponent : Int) - 1075, fraction = 0 && exponent > 1⟩

/-- A non-negative decimal, `digits * 10 ^ exponent`. -/
structure Digits where
  digits : Nat
  exponent : Int
deriving DecidableEq, Repr

/-- What is chosen when two decimals are equally near. -/
inductive Tie where
  | toEven
  | up
deriving DecidableEq, Repr

/-- Compares `a * 10 ^ i` with `n * 2 ^ j`. -/
def compareScaled (a : Nat) (i : Int) (n : Nat) (j : Int) : Ordering :=
  compare ((a * Nat.pow 10 i.toNat) <<< (-j).toNat) ((n * Nat.pow 10 (-i).toNat) <<< j.toNat)

/-- Whether the decimal lies among the reals that round to `x`. -/
def Binary.readsBack (x : Binary) (d : Digits) : Bool :=
  -- the ends of the interval, halfway to the neighbours, in quarters of the last bit
  let low := if x.narrowBelow then 4 * x.m - 1 else 4 * x.m - 2
  let high := 4 * x.m + 2
  let closed := x.m % 2 = 0
  let fromLow := compareScaled d.digits d.exponent low (x.q - 2)
  let fromHigh := compareScaled d.digits d.exponent high (x.q - 2)
  (fromLow = .gt || (closed && fromLow = .eq)) && (fromHigh = .lt || (closed && fromHigh = .eq))

/-- The least `k` with `x < 10 ^ k`, for a positive `x`: an estimate from the binary
exponent, put right by comparisons. -/
def Binary.scale (x : Binary) : Int :=
  let estimate := ((x.q + x.m.log2) * 30103).fdiv 100000
  let above := fun (k : Int) => compareScaled 1 k x.m x.q = .gt
  (([estimate, estimate + 1, estimate + 2].find? above).getD (estimate + 3))

/-- The greatest multiple of `10 ^ g` that is at most `x`, as a count of `10 ^ g`. -/
def Binary.below (x : Binary) (g : Int) : Nat :=
  ((x.m * Nat.pow 10 (-g).toNat) <<< x.q.toNat) / (Nat.pow 10 g.toNat <<< (-x.q).toNat)

/-- The nearer of `d` and `d + 1`, in units of `10 ^ g`. -/
def Binary.nearer (x : Binary) (tie : Tie) (d : Nat) (g : Int) : Nat :=
  match compareScaled (2 * d + 1) g x.m (x.q + 1), tie with
  | .gt, _ => d
  | .lt, _ => d + 1
  | .eq, .up => d + 1
  | .eq, .toEven => if d % 2 = 0 then d else d + 1

/-- The neighbour of `x` among the multiples of `10 ^ g` that reads back as `x`, if one does. -/
def Binary.onGrid? (x : Binary) (tie : Tie) (g : Int) : Option Digits :=
  let d := x.below g
  match x.readsBack ⟨d, g⟩, x.readsBack ⟨d + 1, g⟩ with
  | true, true => some ⟨x.nearer tie d g, g⟩
  | true, false => some ⟨d, g⟩
  | false, true => some ⟨d + 1, g⟩
  | false, false => none

/-- The exact value as a decimal. -/
def Binary.exact (x : Binary) : Digits :=
  if 0 ≤ x.q then ⟨x.m <<< x.q.toNat, 0⟩ else ⟨x.m * Nat.pow 5 (-x.q).toNat, x.q⟩

/-- The same decimal without zeros at the end of its digits. -/
def Digits.strip (d : Digits) : Digits :=
  if _h : d.digits ≠ 0 ∧ d.digits % 10 = 0 then
    Digits.strip ⟨d.digits / 10, d.exponent + 1⟩
  else d
termination_by d.digits
decreasing_by omega

/-- A decimal with the fewest digits that reads back as the positive double `x`. -/
def Binary.shortest (x : Binary) (tie : Tie) : Digits :=
  let k := x.scale
  -- 17 digits identify every double
  let found := (List.range 17).findSome? fun (n : Nat) => x.onGrid? tie (k - (n + 1))
  (found.getD x.exact).strip

end RecordInference.Decimal
