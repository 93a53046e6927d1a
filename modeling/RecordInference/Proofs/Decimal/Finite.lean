import RecordInference.Proofs.Decimal.Rounding

/-!
# Doubles that stay finite

Whole numbers of 64 bits are finite doubles (`isFinite_ofNat`), so are the powers of ten up to
`10 ^ 308` (`normal_power`), a product of finite doubles is finite or infinite (`isFinite_mul`), and
a finite double divided by a power of ten stays finite (`isFinite_div_power`).
-/

set_option autoImplicit false

namespace RecordInference.Decimal

open Float.Model Float.Model.UnpackedFloat

theorem isFinite_iff {x : Float} : x.isFinite = true ↔ InRange x.toModel.unpack :=
  ⟨inRange_unpack, isFinite_of_inRange⟩

theorem InRange.neg {u : UnpackedFloat} (h : InRange u) : InRange u.neg := by
  cases h with
  | zero s => exact .zero _
  | finite s pos few small => exact .finite _ pos few small

theorem isFinite_neg {x : Float} (h : x.isFinite = true) : (-x).isFinite = true :=
  isFinite_unpack_pack (isFinite_iff.1 h).neg

theorem isFinite_mul {x y : Float} (h : x.isFinite = true) (h' : y.isFinite = true)
    (notInf : (x * y).isInf = false) : (x * y).isFinite = true :=
  isFinite_unpack_pack_of_isInf (isNaN_mul (isFinite_iff.1 h) (isFinite_iff.1 h')) notInf

/-- The powers of ten in the table, from `10 ^ 1` on. -/
theorem normal_table : ∀ n : Fin 22, Normal (-49) 22
    (getElem Float.exactlyRepresentablePowersOfTen (n.val + 1)
      (Nat.succ_lt_succ n.isLt)).toModel.unpack := by
  decide +kernel

theorem normal_one :
    Normal (-52) (-52) Float.exactlyRepresentablePowersOfTen[0].toModel.unpack := by
  decide +kernel

theorem log2_shiftLeft {m : Nat} (pos : 0 < m) (n : Nat) : (m <<< n).log2 = m.log2 + n := by
  have nonzero : m ≠ 0 := Nat.ne_of_gt pos
  have shifted : m <<< n ≠ 0 := by
    rw [Nat.shiftLeft_eq]
    exact Nat.ne_of_gt (Nat.mul_pos pos (Nat.two_pow_pos n))
  rw [Nat.log2_eq_iff shifted, Nat.shiftLeft_eq, Nat.pow_add, Nat.add_right_comm, Nat.pow_add]
  exact ⟨Nat.mul_le_mul_right _ (Nat.log2_self_le nonzero),
    Nat.mul_lt_mul_of_pos_right Nat.lt_log2_self (Nat.two_pow_pos n)⟩

theorem normal_round {m : Nat} (pos : 0 < m) (small : m < 2 ^ 53) :
    Normal (-52) 1 (UnpackedFloat.round Format.binary64 .positive m 0) := by
  have bits : m.log2 < 53 := (Nat.log2_lt (Nat.ne_of_gt pos)).2 small
  generalize count : (0 - Format.binary64.targetExponent (totalExponent m 0)).toNat = n
  have shift : n = 52 - m.log2 := by
    simp only [targetExponent_eq, totalExponent] at count
    omega
  have log := log2_shiftLeft pos n
  show Normal (-52) 1 (roundWithAccuracy Format.binary64 .positive
    (m <<< (0 - Format.binary64.targetExponent (totalExponent m 0)).toNat)
    (0 - (0 - Format.binary64.targetExponent (totalExponent m 0)).toNat) .exact)
  rw [count]
  exact (normal_roundWithAccuracy (by omega) (by omega)).mono (by omega) (by omega)

theorem normal_toFloat {n : Nat} (pos : 0 < n) (small : n < 2 ^ 53) :
    Normal (-52) 1 n.toUInt64.toFloat.toModel.unpack := by
  have whole : n.toUInt64.toNat = n := by
    show n % 2 ^ 64 = n
    omega
  have rounded : UnpackedFloat.ofUInt64 Format.binary64 n.toUInt64 =
      UnpackedFloat.round Format.binary64 .positive n 0 := by
    have order : compare (n : Int) 0 = .gt := by
      rw [Int.compare_eq_gt]
      omega
    show UnpackedFloat.normalize Format.binary64 (n.toUInt64.toNat : Int) 0 .positive = _
    rw [whole, UnpackedFloat.normalize, order]
    rfl
  have normal := normal_round pos small
  show Normal (-52) 1 (UnpackedFloat.unpack Format.binary64
    (UnpackedFloat.pack Format.binary64 (UnpackedFloat.ofUInt64 Format.binary64 n.toUInt64)))
  rw [rounded, unpack_pack_normal normal (by decide) (by decide)]
  exact normal

theorem normal_shifted {m : Nat} (pos : 0 < m) (accuracy : Accuracy) :
    Normal (m.log2 - 52) (m.log2 - 51)
      (roundWithAccuracy Format.binary64 .positive (m <<< 53) (-53) accuracy) := by
  have log := log2_shiftLeft pos 53
  generalize m <<< 53 = shifted at log ⊢
  exact (normal_roundWithAccuracy (by omega) (by omega)).mono (by omega) (by omega)

theorem unpacked_ofScientific {m e : Nat} (pos : 0 < m) (few : e ≤ 2 ^ 11) :
    UnpackedFloat.ofScientific Format.binary64 m e =
      roundWithAccuracy Format.binary64 .positive ((m * 10 ^ e) <<< 53) (-53) .exact := by
  have shifted : m <<< 53 * 10 ^ e = (m * 10 ^ e) <<< 53 := by
    rw [Nat.shiftLeft_eq, Nat.shiftLeft_eq, Nat.mul_right_comm]
  have top : ¬ (e : Int) > 2 ^ 11 := by omega
  have bottom : ¬ (e : Int) < -(2 ^ 11 + (m.log2 : Int)) := by omega
  rw [← shifted, UnpackedFloat.ofScientific, dif_neg (Nat.ne_of_gt pos)]
  refine (if_neg top).trans ((if_neg bottom).trans ?_)
  rw [if_pos (Int.natCast_nonneg e)]
  rfl

/-- A mantissa times a power of ten that is not in the table. -/
theorem normal_ofScientific {m e : Nat} (pos : 0 < m) (bits : (m * 10 ^ e).log2 ≤ 1022)
    (few : e ≤ 2 ^ 11) (long : ¬ (m < 2 ^ 53 ∧ e ≤ 22)) :
    Normal ((m * 10 ^ e).log2 - 52) ((m * 10 ^ e).log2 - 51)
      (Float.ofScientific m false e).toModel.unpack := by
  have product : 0 < m * 10 ^ e := Nat.mul_pos pos (Nat.pow_pos (by decide))
  have normal := normal_shifted product .exact
  rw [← unpacked_ofScientific pos few] at normal
  have packed : (Float.ofScientific m false e).toModel.unpack =
      UnpackedFloat.unpack Format.binary64 (UnpackedFloat.pack Format.binary64
        (UnpackedFloat.ofScientific Format.binary64 m e)) := by
    rw [Float.ofScientific, dif_neg long]
    rfl
  generalize (m * 10 ^ e).log2 = log at *
  rw [packed, unpack_pack_normal normal (by omega) (by omega)]
  exact normal

/-- A short mantissa times a power of ten in the table. -/
theorem normal_ofScientific_short {m e : Nat} {low high : Int} (pos : 0 < m) (short : m < 2 ^ 53)
    (few : e < 23) (table : Normal low high
      (getElem Float.exactlyRepresentablePowersOfTen e few).toModel.unpack)
    (bottom : -1074 ≤ low) (top : high ≤ 916) :
    Normal low (high + 55) (Float.ofScientific m false e).toModel.unpack := by
  have parts : m < 2 ^ 53 ∧ e ≤ 22 := ⟨short, Nat.le_of_lt_succ few⟩
  have product := normal_mul (normal_toFloat pos short) table (by omega)
  have packed : (Float.ofScientific m false e).toModel.unpack =
      UnpackedFloat.unpack Format.binary64 (UnpackedFloat.pack Format.binary64
        (UnpackedFloat.mul Format.binary64 m.toUInt64.toFloat.toModel.unpack
          (getElem Float.exactlyRepresentablePowersOfTen e few).toModel.unpack)) := by
    rw [Float.ofScientific, dif_pos parts]
    rfl
  rw [packed, unpack_pack_normal product (by omega) (by omega)]
  exact product.mono (by omega) (by omega)

theorem isFinite_ofNat {n : Nat} (small : n < 2 ^ 64) : (Float.ofNat n).isFinite = true := by
  rcases Nat.eq_zero_or_pos n with zero | pos
  · rw [zero]
    decide +kernel
  rw [isFinite_iff]
  show InRange (Float.ofScientific n false 0).toModel.unpack
  -- a double is made by a product where the mantissa has at most 53 bits, by rounding elsewhere
  by_cases short : n < 2 ^ 53
  · exact (normal_ofScientific_short pos short (by decide) normal_one (by decide)
      (by decide)).inRange (by decide)
  · have bits : (n * 10 ^ 0).log2 < 64 := by
      rw [Nat.pow_zero, Nat.mul_one]
      exact (Nat.log2_lt (Nat.ne_of_gt pos)).2 small
    have long : ¬ (n < 2 ^ 53 ∧ 0 ≤ 22) := fun parts => short parts.1
    exact (normal_ofScientific pos (by omega) (by decide) long).inRange (by omega)

theorem isFinite_ofInt {i : Int} (low : -2 ^ 63 ≤ i) (high : i < 2 ^ 64) :
    (Float.ofInt i).isFinite = true := by
  -- a negative number is made from the one without sign
  cases i with
  | ofNat n => exact isFinite_ofNat (Int.ofNat_lt.1 high)
  | negSucc n => exact isFinite_neg (isFinite_ofNat (by omega))

theorem normal_power {n : Nat} (pos : 0 < n) (small : n ≤ 308) :
    Normal (-50) 971 (Float.ofScientific 1 false n).toModel.unpack := by
  by_cases short : n < 23
  · obtain ⟨k, rfl⟩ := Nat.exists_eq_succ_of_ne_zero (Nat.ne_of_gt pos)
    have table := normal_table ⟨k, by omega⟩
    exact (normal_ofScientific_short (by decide) (by decide) short table (by decide)
      (by decide)).mono (by decide) (by decide)
  -- the bound on the bits of a power is too coarse for the last one
  by_cases last : n = 308
  · rw [last]
    decide +kernel
  have nonzero : 1 * 10 ^ n ≠ 0 := by
    rw [Nat.one_mul]
    exact Nat.ne_of_gt (Nat.pow_pos (by decide))
  have least : 3 ≤ (1 * 10 ^ n).log2 := by
    rw [Nat.le_log2 nonzero, Nat.one_mul]
    exact Nat.le_trans (by decide) (Nat.pow_le_pow_right (by decide) pos)
  have most : (1 * 10 ^ n).log2 < 1021 := by
    rw [Nat.log2_lt nonzero, Nat.one_mul]
    exact Nat.lt_of_le_of_lt (Nat.pow_le_pow_right (by decide) (show n ≤ 307 by omega))
      (by decide +kernel)
  have long : ¬ (1 < 2 ^ 53 ∧ n ≤ 22) := fun parts => short (Nat.lt_succ_of_le parts.2)
  exact (normal_ofScientific (by decide) (by omega) (by omega) long).mono (by omega) (by omega)

theorem isFinite_power {n : Nat} (small : n ≤ 308) :
    (Float.ofScientific 1 false n).isFinite = true := by
  rcases Nat.eq_zero_or_pos n with zero | pos
  · rw [zero]
    decide +kernel
  · exact isFinite_iff.2 ((normal_power pos small).inRange (by decide))

theorem isFinite_div_power {x : Float} {n : Nat} (h : x.isFinite = true) (pos : 0 < n)
    (small : n ≤ 308) : (x / Float.ofScientific 1 false n).isFinite = true :=
  isFinite_unpack_pack (inRange_div (isFinite_iff.1 h) (normal_power pos small))

end RecordInference.Decimal
