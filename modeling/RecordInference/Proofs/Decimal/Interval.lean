import Mathlib.Algebra.Order.Field.Power
import Mathlib.Data.Rat.Cast.Order
import Mathlib.Tactic.Positivity
import Mathlib.Tactic.Ring
import Mathlib.Tactic.Linarith
import RecordInference.Decimal.Shortest

/-!
# The numbers that round to a double

The numbers that round to a positive double form an interval around it (`Binary.Covers`), whose ends
belong to it where the mantissa is even. The digits that are chosen for a double denote one of them
(`covers_shortest`), and no number rounds to two doubles (`eq_of_covers`): where the interval of a
double ends that of the next one begins, and one of the two has an odd mantissa.
-/

set_option autoImplicit false

namespace RecordInference.Decimal

/-- The number that a decimal denotes. -/
def Digits.value (d : Digits) : ℚ := d.digits * 10 ^ d.exponent

/-- The integers that are compared are the numbers times a common positive factor. -/
theorem exists_scale (a : Nat) (i : Int) (n : Nat) (j : Int) : ∃ k : ℚ, 0 < k ∧
    (((a * Nat.pow 10 i.toNat) <<< (-j).toNat : Nat) : ℚ) = a * 10 ^ i * k ∧
    (((n * Nat.pow 10 (-i).toNat) <<< j.toNat : Nat) : ℚ) = n * 2 ^ j * k := by
  have ten : (10 : ℚ) ^ i * 10 ^ (-i).toNat = 10 ^ i.toNat := by
    rw [← zpow_natCast, ← zpow_natCast, ← zpow_add₀ (by norm_num)]
    congr 1
    omega
  have two : (2 : ℚ) ^ j * 2 ^ (-j).toNat = 2 ^ j.toNat := by
    rw [← zpow_natCast, ← zpow_natCast, ← zpow_add₀ (by norm_num)]
    congr 1
    omega
  refine ⟨10 ^ (-i).toNat * 2 ^ (-j).toNat, by positivity, ?_, ?_⟩
  · rw [Nat.shiftLeft_eq, Nat.pow_eq]
    push_cast
    rw [← ten]
    ring
  · rw [Nat.shiftLeft_eq, Nat.pow_eq]
    push_cast
    rw [← two]
    ring

theorem compareScaled_eq_lt_iff (a : Nat) (i : Int) (n : Nat) (j : Int) :
    compareScaled a i n j = .lt ↔ (a : ℚ) * 10 ^ i < n * 2 ^ j := by
  obtain ⟨k, pos, left, right⟩ := exists_scale a i n j
  rw [compareScaled, Nat.compare_eq_lt, ← Nat.cast_lt (α := ℚ), left, right,
    mul_lt_mul_iff_left₀ pos]

theorem compareScaled_eq_eq_iff (a : Nat) (i : Int) (n : Nat) (j : Int) :
    compareScaled a i n j = .eq ↔ (a : ℚ) * 10 ^ i = n * 2 ^ j := by
  obtain ⟨k, pos, left, right⟩ := exists_scale a i n j
  rw [compareScaled, Nat.compare_eq_eq, ← Nat.cast_inj (R := ℚ), left, right,
    mul_left_inj' (ne_of_gt pos)]

theorem compareScaled_eq_gt_iff (a : Nat) (i : Int) (n : Nat) (j : Int) :
    compareScaled a i n j = .gt ↔ (n : ℚ) * 2 ^ j < a * 10 ^ i := by
  obtain ⟨k, pos, left, right⟩ := exists_scale a i n j
  rw [compareScaled, Nat.compare_eq_gt, ← Nat.cast_lt (α := ℚ), left, right,
    mul_lt_mul_iff_left₀ pos]

/-! ### The interval of a double -/

namespace Binary

variable {x y : Binary} {v : ℚ}

/-- The number that a double is. -/
def value (x : Binary) : ℚ := x.m * 2 ^ x.q

/-- The lower end of the reals that round to a double, in quarters of its last bit. -/
def low (x : Binary) : Nat := if x.narrowBelow then 4 * x.m - 1 else 4 * x.m - 2

/-- The upper end of the reals that round to a double, in quarters of its last bit. -/
def high (x : Binary) : Nat := 4 * x.m + 2

/-- Whether a number rounds to a double. It may be an end of the interval if the mantissa is
even. -/
structure Covers (x : Binary) (v : ℚ) : Prop where
  above : (x.low : ℚ) * 2 ^ (x.q - 2) < v ∨ x.m % 2 = 0 ∧ v = x.low * 2 ^ (x.q - 2)
  below : v < (x.high : ℚ) * 2 ^ (x.q - 2) ∨ x.m % 2 = 0 ∧ v = x.high * 2 ^ (x.q - 2)

theorem readsBack_iff (x : Binary) (d : Digits) : x.readsBack d = true ↔ x.Covers d.value := by
  have parts : x.Covers d.value ↔
      ((x.low : ℚ) * 2 ^ (x.q - 2) < d.value ∨ x.m % 2 = 0 ∧ d.value = x.low * 2 ^ (x.q - 2)) ∧
      (d.value < (x.high : ℚ) * 2 ^ (x.q - 2) ∨ x.m % 2 = 0 ∧ d.value = x.high * 2 ^ (x.q - 2)) :=
    ⟨fun h => ⟨h.1, h.2⟩, fun h => ⟨h.1, h.2⟩⟩
  rw [parts, Digits.value, ← compareScaled_eq_gt_iff, ← compareScaled_eq_eq_iff,
    ← compareScaled_eq_lt_iff, ← compareScaled_eq_eq_iff]
  simp only [readsBack, low, high, Bool.and_eq_true, Bool.or_eq_true, decide_eq_true_eq]

/-- A positive double rounds to itself. -/
theorem covers_value (pos : 0 < x.m) : x.Covers x.value := by
  have unit : (0 : ℚ) < 2 ^ (x.q - 2) := by positivity
  have quarters : x.value = (4 * x.m : Nat) * 2 ^ (x.q - 2) := by
    rw [value, zpow_sub₀ (by norm_num)]
    push_cast
    ring
  constructor
  · refine Or.inl ?_
    rw [quarters, mul_lt_mul_iff_left₀ unit, Nat.cast_lt, low]
    split <;> omega
  · refine Or.inl ?_
    rw [quarters, mul_lt_mul_iff_left₀ unit, Nat.cast_lt, high]
    omega

/-- What rounds to a positive double is positive. -/
theorem Covers.pos (h : x.Covers v) (pos : 0 < x.m) : 0 < v := by
  have unit : (0 : ℚ) < 2 ^ (x.q - 2) := by positivity
  have least : 0 < x.low := by
    rw [low]
    split <;> omega
  have some : (0 : ℚ) < x.low * 2 ^ (x.q - 2) := mul_pos (Nat.cast_pos.2 least) unit
  rcases h.above with above | ⟨-, above⟩
  · exact some.trans above
  · rwa [above]

/-! ### The digits that are chosen -/

theorem value_exact (x : Binary) : x.exact.value = x.value := by
  rw [exact]
  split
  · next whole =>
    rw [Digits.value, value, Nat.shiftLeft_eq]
    push_cast
    rw [mul_one, ← zpow_natCast, Int.toNat_of_nonneg whole]
  · next below =>
    have power : ((5 : ℚ) ^ (-x.q).toNat) * 10 ^ x.q = 2 ^ x.q := by
      rw [← zpow_natCast, Int.toNat_of_nonneg (by omega), zpow_neg, show (10 : ℚ) = 5 * 2 by norm_num,
        mul_zpow, ← mul_assoc, inv_mul_cancel₀ (by positivity), one_mul]
    rw [Digits.value, value, Nat.pow_eq]
    push_cast
    rw [mul_assoc, power]

theorem value_strip (d : Digits) : d.strip.value = d.value := by
  induction d using Digits.strip.induct with
  | case1 d zeros ih =>
      rw [Digits.strip, dif_pos zeros, ih, Digits.value, Digits.value, zpow_add₀ (by norm_num)]
      have whole : d.digits = d.digits / 10 * 10 := by omega
      conv_rhs => rw [whole]
      push_cast
      ring
  | case2 d other => rw [Digits.strip, dif_neg other]

/-- The nearer of two neighbours is one of them. -/
theorem nearer_eq (x : Binary) (tie : Tie) (d : Nat) (g : Int) :
    x.nearer tie d g = d ∨ x.nearer tie d g = d + 1 := by
  unfold nearer
  split
  · exact Or.inl rfl
  · exact Or.inr rfl
  · exact Or.inr rfl
  · split
    · exact Or.inl rfl
    · exact Or.inr rfl

theorem readsBack_of_onGrid? {tie : Tie} {g : Int} {d : Digits} (h : x.onGrid? tie g = some d) :
    x.readsBack d = true := by
  rw [onGrid?] at h
  split at h
  · next first second =>
    cases h
    rcases nearer_eq x tie (x.below g) g with same | next
    · rwa [same]
    · rwa [next]
  · next first second =>
    cases h
    exact first
  · next first second =>
    cases h
    exact second
  · cases h

/-- The digits that are chosen for a positive double denote a number that rounds to it. -/
theorem covers_shortest (pos : 0 < x.m) (tie : Tie) : x.Covers (x.shortest tie).value := by
  rw [shortest, value_strip]
  cases found : (List.range 17).findSome? fun (n : Nat) => x.onGrid? tie (x.scale - (n + 1)) with
  | none =>
      rw [Option.getD_none, value_exact]
      exact covers_value pos
  | some d =>
      obtain ⟨n, -, grid⟩ := List.exists_of_findSome?_eq_some found
      rw [Option.getD_some, ← readsBack_iff]
      exact readsBack_of_onGrid? grid

/-! ### Different doubles have different numbers -/

/-- Whether a mantissa and an exponent are those of a double. -/
structure IsDouble (x : Binary) : Prop where
  few : x.m < 2 ^ 53
  least : -1074 ≤ x.q
  normal : x.m < 2 ^ 52 → x.q = -1074
  narrow : x.narrowBelow = true ↔ x.m = 2 ^ 52 ∧ -1074 < x.q

/-- The interval of a double ends where that of a greater one begins, and then it is not closed on
both sides. -/
theorem high_le_low (hx : x.IsDouble) (hy : y.IsDouble) {k : Nat} (exponent : y.q = x.q + k)
    (less : 0 < k ∨ x.m < y.m) : x.high ≤ y.low * 2 ^ k ∧
      (x.high = y.low * 2 ^ k → ¬ (x.m % 2 = 0 ∧ y.m % 2 = 0)) := by
  obtain ⟨few, least, normal, narrow⟩ := hx
  obtain ⟨few', least', normal', narrow'⟩ := hy
  have low : y.low = if y.m = 2 ^ 52 ∧ -1074 < y.q then 4 * y.m - 1 else 4 * y.m - 2 := by
    rw [Binary.low]
    exact if_congr narrow' rfl rfl
  rcases Nat.eq_zero_or_pos k with rfl | some
  · -- with one exponent the mantissas differ by one at least
    have same : y.q = x.q := by omega
    rw [Nat.pow_zero, Nat.mul_one, low, high]
    split
    · omega
    · omega
  · -- the greater exponent is that of a normal double
    have many : 2 ^ 52 ≤ y.m := by
      by_contra few
      have := normal' (by omega)
      omega
    have bound : 2 ^ 54 - 1 ≤ y.low := by
      rw [low]
      split <;> omega
    have double : (2 ^ 54 - 1) * 2 ≤ y.low * 2 ^ k :=
      Nat.mul_le_mul bound (Nat.le_self_pow (Nat.ne_of_gt some) 2)
    rw [high]
    omega

theorem lt_of_covers (hx : x.IsDouble) (hy : y.IsDouble) {k : Nat} (exponent : y.q = x.q + k)
    (less : 0 < k ∨ x.m < y.m) (covers : x.Covers v) : ¬ y.Covers v := by
  intro covers'
  obtain ⟨apart, open_⟩ := high_le_low hx hy exponent less
  have unit : (0 : ℚ) < 2 ^ (x.q - 2) := by positivity
  have scaled : (y.low : ℚ) * 2 ^ (y.q - 2) = (y.low * 2 ^ k : Nat) * 2 ^ (x.q - 2) := by
    rw [exponent, show x.q + k - 2 = (x.q - 2) + k by ring, zpow_add₀ (by norm_num), zpow_natCast]
    push_cast
    ring
  have order : (x.high : ℚ) * 2 ^ (x.q - 2) ≤ y.low * 2 ^ (y.q - 2) := by
    rw [scaled, mul_le_mul_iff_left₀ unit, Nat.cast_le]
    exact apart
  -- the number could only be the common end of the two intervals
  rcases covers.below with below | ⟨even, below⟩
  · rcases covers'.above with above | ⟨-, above⟩
    · exact absurd (below.trans_le order) (not_lt.2 above.le)
    · rw [above] at below
      exact absurd below (not_lt.2 order)
  · rcases covers'.above with above | ⟨even', above⟩
    · rw [below] at above
      exact absurd above (not_lt.2 order)
    · refine open_ ?_ ⟨even, even'⟩
      rw [below, scaled, mul_left_inj' (ne_of_gt unit), Nat.cast_inj] at above
      exact above

/-- No number rounds to two doubles. -/
theorem eq_of_covers (hx : x.IsDouble) (hy : y.IsDouble) (covers : x.Covers v)
    (covers' : y.Covers v) : x.m = y.m ∧ x.q = y.q := by
  by_contra different
  rcases le_total x.q y.q with le | le
  · obtain ⟨k, exponent⟩ := Int.le.dest le
    by_cases less : 0 < k ∨ x.m < y.m
    · exact lt_of_covers hx hy exponent.symm less covers covers'
    · refine lt_of_covers hy hx (k := 0) (by omega) (Or.inr ?_) covers' covers
      omega
  · obtain ⟨k, exponent⟩ := Int.le.dest le
    by_cases less : 0 < k ∨ y.m < x.m
    · exact lt_of_covers hy hx exponent.symm less covers' covers
    · refine lt_of_covers hx hy (k := 0) (by omega) (Or.inr ?_) covers covers'
      omega

end Binary

end RecordInference.Decimal
