import RecordInference.Decimal.Numeral
import RecordInference.Declaration.Override
import RecordInference.Proofs.Decimal.Finite
import RecordInference.Proofs.Text.Word

/-!
# Doubles that are written exactly

Every double from 0 to 2 has a numeral (`exists_readFloat?`). It is `m * 2 ^ (-k)` for a mantissa of
at most 53 bits, which is `m * 5 ^ k * 10 ^ (-k)`. Reading this numeral leaves a quotient that has no
remainder and needs no rounding (`ofScientific_exact`), and packing it gives back the bits of the
double (`pack_unpack`).
-/

set_option autoImplicit false

namespace RecordInference.Decimal

open Float.Model Float.Model.UnpackedFloat

/-! ### Rounding what fits -/

/-- Whether a mantissa has the bits that rounding leaves it. -/
def Canonical (m : Nat) (e : Int) : Prop :=
  Format.binary64.targetExponent (totalExponent m e) = e

theorem Canonical.bounds {m : Nat} {e : Int} (h : Canonical m e) : m.log2 ≤ 52 ∧ -1074 ≤ e := by
  simp only [Canonical, targetExponent_eq, totalExponent] at h
  omega

theorem log2_mul_two_pow {m : Nat} (pos : 0 < m) (n : Nat) : (m * 2 ^ n).log2 = m.log2 + n := by
  rw [← Nat.shiftLeft_eq, log2_shiftLeft pos]

theorem shiftRight_exact (m n : Nat) :
    ExtendedMantissa.mk (m * 2 ^ n) false false >>> n = ⟨m, false, false⟩ := by
  show Nat.repeat ExtendedMantissa.shiftRightOne n _ = _
  induction n generalizing m with
  | zero => simp [Nat.repeat]
  | succ n ih =>
      show ExtendedMantissa.shiftRightOne (Nat.repeat ExtendedMantissa.shiftRightOne n _) = _
      rw [Nat.pow_succ', ← Nat.mul_assoc, ih]
      simp [ExtendedMantissa.shiftRightOne]

theorem shiftToTargetExponent_exact {m : Nat} {e : Int} (pos : 0 < m) (canonical : Canonical m e)
    (d : Nat) : shiftToTargetExponent Format.binary64 (m * 2 ^ d) (e - d) .exact =
      (⟨m, false, false⟩, e) := by
  have same : totalExponent (m * 2 ^ d) (e - d) = totalExponent m e := by
    simp only [totalExponent, log2_mul_two_pow pos]
    omega
  have shift : (e - (e - d)).toNat = d := by omega
  have back : e - d + d = e := by omega
  rw [shiftToTargetExponent, same, canonical]
  show (ExtendedMantissa.mk (m * 2 ^ d) false false >>> (e - (e - d)).toNat,
    e - d + (e - (e - d)).toNat) = _
  rw [shift, shiftRight_exact, back]

/-- Zeros at the end of a mantissa are cut off. -/
theorem roundWithAccuracy_exact (s : Sign) {m : Nat} {e : Int} (pos : 0 < m)
    (canonical : Canonical m e) (d : Nat) :
    roundWithAccuracy Format.binary64 s (m * 2 ^ d) (e - d) .exact = .finite s m e pos := by
  have first := shiftToTargetExponent_exact pos canonical d
  have again := shiftToTargetExponent_exact pos canonical 0
  rw [Nat.pow_zero, Nat.mul_one, Int.natCast_zero, Int.sub_zero] at again
  have rounded : (ExtendedMantissa.mk m false false).roundedMantissa = m := rfl
  rw [roundWithAccuracy, first]
  dsimp only
  rw [rounded, again]
  exact dif_neg (Nat.ne_of_gt pos)

/-! ### Quotients without a remainder -/

theorem log2_five_pow_mul (m k : Nat) : (m * 5 ^ k).log2 ≤ m.log2 + (5 ^ k).log2 + 1 := by
  by_cases zero : m * 5 ^ k = 0
  · rw [zero]
    exact Nat.zero_le _
  · have bound : m * 5 ^ k < 2 ^ (m.log2 + (5 ^ k).log2 + 1 + 1) :=
      calc m * 5 ^ k < 2 ^ (m.log2 + 1) * 2 ^ ((5 ^ k).log2 + 1) :=
            Nat.mul_lt_mul'' Nat.lt_log2_self Nat.lt_log2_self
        _ = 2 ^ (m.log2 + (5 ^ k).log2 + 1 + 1) := by
            rw [← Nat.pow_add]
            congr 1
            omega
    exact Nat.le_of_lt_succ ((Nat.log2_lt zero).2 bound)

/-- A quotient of finite doubles is the quotient of their mantissas, rounded. -/
theorem div_finite {s₁ s₂ : Sign} {m₁ m₂ m : Nat} {e₁ e₂ e : Int} {accuracy : Accuracy}
    (pos₁ : 0 < m₁) (pos₂ : 0 < m₂)
    (quotient : divCore Format.binary64 m₁ e₁ m₂ e₂ = (m, e, accuracy)) :
    UnpackedFloat.div Format.binary64 (.finite s₁ m₁ e₁ pos₁) (.finite s₂ m₂ e₂ pos₂) =
      roundWithAccuracy Format.binary64 (s₁ / s₂) m e accuracy := by
  unfold UnpackedFloat.div
  dsimp only
  rw [quotient]

/-- The decimal `m * 5 ^ k * 10 ^ (-k)` is `m * 2 ^ (-k)`. -/
theorem ofScientific_exact {m k : Nat} (pos : 0 < m) (some : 0 < k) (canonical : Canonical m (-k)) :
    UnpackedFloat.ofScientific Format.binary64 (m * 5 ^ k) (-k) =
      .finite .positive m (-k) pos := by
  obtain ⟨bits, low⟩ := canonical.bounds
  have nonzero : m * 5 ^ k ≠ 0 :=
    Nat.ne_of_gt (Nat.mul_pos pos (Nat.pow_pos (by decide)))
  have top : ¬ (-(k : Int)) > 2 ^ 11 := by omega
  have bottom : ¬ (-(k : Int)) < -(2 ^ 11 + ((m * 5 ^ k).log2 : Int)) := by omega
  have negative : ¬ 0 ≤ (-(k : Int)) := by omega
  have ten : 10 ^ k = 5 ^ k * 2 ^ k := by rw [← Nat.mul_pow]
  have power : (10 ^ k).log2 = (5 ^ k).log2 + k := by
    rw [ten, log2_mul_two_pow (Nat.pow_pos (by decide))]
  have product := log2_five_pow_mul m k
  -- the exponent of the quotient leaves room for all bits of the mantissa
  generalize target : min (0 - 0 : Int) (Format.binary64.targetExponent
    (totalExponent (m * 5 ^ k) 0 - totalExponent (10 ^ k) 0)) = t
  have room : t ≤ -k := by
    simp only [targetExponent_eq, totalExponent, power] at target
    omega
  obtain ⟨d, rfl⟩ : ∃ d : Nat, t = -(k : Int) - d := ⟨(-(k : Int) - t).toNat, by omega⟩
  have shift : (0 - 0 - (-(k : Int) - d)).toNat = k + d := by omega
  have whole : (m * 5 ^ k) <<< (k + d) = m * 2 ^ d * 10 ^ k := by
    rw [Nat.shiftLeft_eq, ten, Nat.pow_add, Nat.mul_assoc m, Nat.mul_assoc m]
    congr 1
    rw [← Nat.mul_assoc, Nat.mul_comm (5 ^ k * 2 ^ k)]
  have divided : divCore Format.binary64 (m * 5 ^ k) 0 (10 ^ k) 0 =
      (m * 2 ^ d, -(k : Int) - d, .exact) := by
    have ten_pos : 0 < 10 ^ k := Nat.pow_pos (by decide)
    simp only [divCore, target, shift, whole, Nat.mul_div_cancel _ ten_pos, Nat.mul_mod_left]
    rfl
  have back : (-(-(k : Int))).toNat = k := by omega
  rw [UnpackedFloat.ofScientific, dif_neg nonzero, if_neg top, if_neg bottom, if_neg negative]
  exact (div_finite _ _ (back.symm ▸ divided)).trans (roundWithAccuracy_exact _ pos canonical d)

/-! ### Packing what was unpacked -/

theorem canonical_unpack {b : BitVec 64} {s : Sign} {m : Nat} {e : Int} {pos : 0 < m}
    (h : UnpackedFloat.unpack Format.binary64 b = .finite s m e pos) : Canonical m e := by
  rw [unpack_eq_ofParts, ofParts] at h
  have short : (@unpackMantissa Format.binary64 b).toNat < 2 ^ 52 :=
    (@unpackMantissa Format.binary64 b).isLt
  generalize (@unpackMantissa Format.binary64 b).toNat = m' at h short
  by_cases top : @unpackExponent Format.binary64 b = -1#11
  · rw [if_pos top] at h
    by_cases infinite : @unpackMantissa Format.binary64 b = 0#52
    · rw [if_pos infinite] at h
      cases h
    · rw [if_neg infinite] at h
      cases h
  rw [if_neg top] at h
  by_cases least : @unpackExponent Format.binary64 b = 0#11
  · -- below the normal doubles there are fewer bits, and the exponent is the least
    rw [if_pos least] at h
    rcases Nat.eq_zero_or_pos m' with rfl | pos'
    · cases h
    rw [ofMantissa_of_pos _ _ pos'] at h
    cases h
    have log := (Nat.log2_lt (Nat.ne_of_gt pos')).2 short
    simp only [Canonical, targetExponent_eq, totalExponent]
    omega
  · rw [if_neg least, ofMantissa_of_pos _ _ (Nat.add_pos_left (by decide) m')] at h
    cases h
    have some : (@unpackExponent Format.binary64 b).toNat ≠ 0 := fun zero =>
      least (BitVec.eq_of_toNat_eq zero)
    have log := log2_eq_of_bits (Nat.le_add_right (2 ^ 52) m') (by omega)
    simp only [Canonical, targetExponent_eq, totalExponent, log]
    omega

theorem packComponents_unpack (b : BitVec 64) :
    packComponents Format.binary64 (Sign.ofBitVec (@unpackSign Format.binary64 b))
      (@unpackExponent Format.binary64 b) (@unpackMantissa Format.binary64 b) = b := by
  have sign : ∀ v : BitVec 1, (Sign.ofBitVec v).toBitVec = v := by decide
  rw [packComponents, sign]
  show b.extractLsb' 63 1 ++ b.extractLsb' 52 11 ++ b.extractLsb' 0 52 = b
  rw [BitVec.extractLsb'_append_extractLsb'_eq_extractLsb' (show 63 = 52 + 11 from rfl),
    BitVec.extractLsb'_append_extractLsb'_eq_extractLsb' (show 52 = 0 + 52 from rfl)]
  exact BitVec.extractLsb'_eq_self

theorem pack_finite (s : Sign) {m : Nat} (e : Int) (pos : 0 < m) :
    UnpackedFloat.pack Format.binary64 (.finite s m e pos) =
      if 2047 ≤ biased e then packComponents Format.binary64 s (-1#11) 0#52
      else if m.log2 = 52 then
        packComponents Format.binary64 s (BitVec.ofNat 11 (biased e)) (BitVec.ofNat 52 m)
      else packComponents Format.binary64 s 0#11 (BitVec.ofNat 52 m) := by
  have top : 2 ^ 11 ≤ biased e + 1 ↔ 2047 ≤ biased e := by omega
  have bits : m.log2 + 1 = 53 ↔ m.log2 = 52 := by omega
  exact if_congr top rfl (if_congr bits rfl rfl)

theorem pack_ofParts (s : Sign) {exponent : BitVec 11} (m : BitVec 52) (finite : exponent ≠ -1#11) :
    UnpackedFloat.pack Format.binary64 (ofParts s exponent m) =
      packComponents Format.binary64 s exponent m := by
  have short : m.toNat < 2 ^ 52 := m.isLt
  rw [ofParts, if_neg finite]
  split
  · next zero =>
    subst zero
    rcases Nat.eq_zero_or_pos m.toNat with none | pos
    · obtain rfl : m = 0#52 := BitVec.eq_of_toNat_eq none
      rfl
    · have log := (Nat.log2_lt (Nat.ne_of_gt pos)).2 short
      rw [ofMantissa_of_pos _ _ pos, pack_finite, if_neg (by decide),
        if_neg (Nat.ne_of_lt log), BitVec.ofNat_toNat, BitVec.setWidth_eq]
  · next nonzero =>
    have least : exponent.toNat ≠ 0 := fun zero => nonzero (BitVec.eq_of_toNat_eq zero)
    have most : exponent.toNat ≠ 2047 := fun top => finite (BitVec.eq_of_toNat_eq top)
    have bound := exponent.isLt
    have back : biased (exponent.toNat - 1075) = exponent.toNat := by
      unfold biased
      omega
    have small : ¬ 2047 ≤ biased (exponent.toNat - 1075) := by omega
    have rest : BitVec.ofNat 52 (2 ^ 52 + m.toNat) = m := by
      refine BitVec.eq_of_toNat_eq ?_
      rw [BitVec.toNat_ofNat]
      omega
    rw [ofMantissa_of_pos _ _ (Nat.add_pos_left (by decide) m.toNat), pack_finite, if_neg small,
      if_pos (log2_eq_of_bits (Nat.le_add_right (2 ^ 52) m.toNat) (by omega)), back, rest,
      BitVec.ofNat_toNat, BitVec.setWidth_eq]

theorem isFinite_of_unpack {x : Float} {u : UnpackedFloat} (unpacked : x.toModel.unpack = u)
    (finite : u.isFinite = true) : x.isFinite = true := by
  show x.toModel.unpack.isFinite = true
  rw [unpacked, finite]

/-- Packing gives back the bits of a finite double. -/
theorem pack_unpack {x : Float} (finite : x.isFinite = true) :
    Float.ofModel (Float.Model.pack x.toModel.unpack) = x := by
  obtain ⟨⟨bits, valid⟩⟩ := x
  have inside : @unpackExponent Format.binary64 bits.toBitVec ≠ -1#11 := by
    intro top
    have : (UnpackedFloat.unpack Format.binary64 bits.toBitVec).isFinite = true := finite
    rw [unpack_eq_ofParts, ofParts, if_pos top] at this
    split at this
    · cases this
    · cases this
  have same : UnpackedFloat.pack Format.binary64
      (UnpackedFloat.unpack Format.binary64 bits.toBitVec) = bits.toBitVec := by
    rw [unpack_eq_ofParts, pack_ofParts _ _ inside, packComponents_unpack]
  have ofBits : ∀ {a b : Float.Model}, a.toBits = b.toBits → a = b := by
    rintro ⟨_, _⟩ ⟨_, _⟩ rfl
    rfl
  exact congrArg Float.ofModel (ofBits (UInt64.toBitVec_inj.1 same))

/-! ### Numerals -/

theorem digitsValue_toDigits (n : Nat) : digitsValue (Nat.toDigits 10 n) = n := by
  rw [digitsValue, ← Nat.ofDigitChars_eq_foldl]
  exact Nat.ofDigitChars_ten_toDigits

theorem isDigit_toDigits (n : Nat) : ∀ c ∈ Nat.toDigits 10 n, c.isDigit = true :=
  fun _ member => Nat.isDigit_of_mem_toDigits (by decide) (by decide) member

/-- The digits of a number open with a digit, and so without a sign. -/
theorem exists_toDigits_eq_cons (n : Nat) :
    ∃ c cs, Nat.toDigits 10 n = c :: cs ∧ c ≠ '+' ∧ c ≠ '-' := by
  obtain ⟨c, cs, eq⟩ := List.exists_cons_of_ne_nil (@Nat.toDigits_ne_nil n 10)
  have digit := isDigit_toDigits n c (eq ▸ List.mem_cons_self)
  refine ⟨c, cs, eq, ?_, ?_⟩
  · rintro rfl
    cases digit
  · rintro rfl
    cases digit

theorem solid_toDigits (n : Nat) : Text.Solid (Nat.toDigits 10 n) :=
  ⟨Nat.toDigits_ne_nil, fun c member => Text.isBlank_of_isNameChar
    (by simp [Text.isNameChar, Char.isAlphanum, isDigit_toDigits n c member])⟩

theorem readNat?_toDigits {bound n : Nat} (small : n ≤ bound) :
    readNat? bound (Nat.toDigits 10 n) = some n := by
  obtain ⟨c, cs, eq, plus, -⟩ := exists_toDigits_eq_cons n
  have all := List.all_eq_true.2 (isDigit_toDigits n)
  have value := digitsValue_toDigits n
  rw [eq] at all value ⊢
  rw [readNat?]
  · simp only [all, value, List.isEmpty_cons, Bool.not_false, Bool.true_and, decide_eq_true small,
      if_true]
  · exact fun _ same => plus (List.cons.inj same).1

theorem readFloat?_of_toDigits (n : Nat) (cs : List Char) :
    readFloat? (Nat.toDigits 10 n ++ cs) = readUnsigned? (Nat.toDigits 10 n ++ cs) := by
  obtain ⟨c, rest, eq, plus, minus⟩ := exists_toDigits_eq_cons n
  rw [eq, List.cons_append, readFloat?]
  · exact fun _ same => minus (List.cons.inj same).1
  · exact fun _ same => plus (List.cons.inj same).1

/-- Digits with a negative exponent are read as the nearest double. -/
theorem readFloat?_scientific (m k : Nat) :
    readFloat? (Nat.toDigits 10 m ++ 'e' :: '-' :: Nat.toDigits 10 k) = some (nearest m (-k)) := by
  have digit : ∀ c ∈ Nat.toDigits 10 m, c.isDigit = true := isDigit_toDigits m
  have whole : (Nat.toDigits 10 m ++ 'e' :: '-' :: Nat.toDigits 10 k).takeWhile Char.isDigit =
      Nat.toDigits 10 m := by
    rw [List.takeWhile_append_of_pos digit, List.takeWhile_cons_of_neg (by decide), List.append_nil]
  have rest : (Nat.toDigits 10 m ++ 'e' :: '-' :: Nat.toDigits 10 k).dropWhile Char.isDigit =
      'e' :: '-' :: Nat.toDigits 10 k := by
    rw [List.dropWhile_append_of_pos digit, List.dropWhile_cons_of_neg (by decide)]
  have some : (Nat.toDigits 10 m).isEmpty = false := List.isEmpty_eq_false_iff.2 Nat.toDigits_ne_nil
  have exponent : readExponent? ('-' :: Nat.toDigits 10 k) = .some (-(k : Int)) := by
    have some : (Nat.toDigits 10 k).isEmpty = false :=
      List.isEmpty_eq_false_iff.2 Nat.toDigits_ne_nil
    rw [readExponent?, some, List.all_eq_true.2 (isDigit_toDigits k), digitsValue_toDigits]
    rfl
  have magnitude : readMagnitude? (Nat.toDigits 10 m ++ 'e' :: '-' :: Nat.toDigits 10 k) =
      .some (nearest m (-k)) := by
    simp [readMagnitude?, whole, rest, exponent, digitsValue_toDigits]
  rw [readFloat?_of_toDigits, readUnsigned?, magnitude]

theorem length_toDigits_bounds {m k : Nat} (pos : 0 < m) (bits : m < 2 ^ 53) (few : k ≤ 1074) :
    (Nat.toDigits 10 (m * 5 ^ k)).length ≤ k + 400 ∧
      k ≤ (Nat.toDigits 10 (m * 5 ^ k)).length + 400 := by
  have some := @Nat.length_toDigits_pos 10 (m * 5 ^ k)
  refine ⟨?_, ?_⟩
  · rw [Nat.length_toDigits_le_iff (by decide) (by omega)]
    calc m * 5 ^ k < 10 ^ 400 * 10 ^ k :=
          Nat.mul_lt_mul_of_lt_of_le (Nat.lt_trans bits (by decide +kernel))
            (Nat.pow_le_pow_left (by decide) k) (Nat.pow_pos (by decide))
      _ = 10 ^ (k + 400) := by rw [← Nat.pow_add, Nat.add_comm]
  · -- with so few digits the power of ten would exceed the power of five
    by_contra short
    have most : m * 5 ^ k < 10 ^ (k - 401) := by
      rw [← Nat.length_toDigits_le_iff (by decide) (by omega)]
      omega
    have least : 10 ^ (k - 401) ≤ 5 ^ k :=
      calc 10 ^ (k - 401) = 2 ^ (k - 401) * 5 ^ (k - 401) := by rw [← Nat.mul_pow]
        _ ≤ 5 ^ 401 * 5 ^ (k - 401) := by
            refine Nat.mul_le_mul_right _ ?_
            exact Nat.le_trans (Nat.pow_le_pow_right (by decide) (show k - 401 ≤ 673 by omega))
              (by decide +kernel)
        _ = 5 ^ k := by rw [← Nat.pow_add, Nat.add_sub_cancel' (show 401 ≤ k by omega)]
    exact Nat.not_lt.2 (Nat.le_trans least (Nat.le_mul_of_pos_left _ pos)) most

/-- The double `m * 2 ^ (-k)` is the nearest to the decimal of this value. -/
theorem nearest_exact {x : Float} {m k : Nat} {pos : 0 < m} (long : 22 < k)
    (unpacked : x.toModel.unpack = .finite .positive m (-k) pos) :
    nearest (m * 5 ^ k) (-k) = x := by
  have canonical := canonical_unpack unpacked
  obtain ⟨bits, low⟩ := canonical.bounds
  have few : m < 2 ^ 53 := (Nat.log2_lt (Nat.ne_of_gt pos)).1 (by omega)
  obtain ⟨most, least⟩ := length_toDigits_bounds pos few (k := k) (by omega)
  -- the numeral is in the range where the reader converts, and too long for its fast path
  have nonzero : m * 5 ^ k ≠ 0 :=
    Nat.ne_of_gt (Nat.mul_pos pos (Nat.pow_pos (by decide)))
  have large : ¬ (-(k : Int) + (Nat.toDigits 10 (m * 5 ^ k)).length > 400) := by omega
  have small : ¬ (-(k : Int) + (Nat.toDigits 10 (m * 5 ^ k)).length < -400) := by omega
  have negative : decide (-(k : Int) < 0) = true := decide_eq_true (by omega)
  have slow : ¬ (m * 5 ^ k < 2 ^ 53 ∧ k ≤ 22) := fun parts => Nat.not_le.2 long parts.2
  have finite := isFinite_of_unpack unpacked rfl
  have exponent : Int.negOfNat k = -(k : Int) := Int.negOfNat_eq
  simp only [nearest, if_neg nonzero, if_neg large, if_neg small, negative, Int.natAbs_neg,
    Int.natAbs_natCast]
  rw [Float.ofScientific, dif_neg slow, if_pos rfl, exponent]
  show Float.ofModel (Float.Model.pack
    (UnpackedFloat.ofScientific Format.binary64 (m * 5 ^ k) (-k))) = x
  rw [ofScientific_exact pos (by omega) canonical, ← unpacked, pack_unpack finite]

/-- A double between zero and a number is a zero, or it has no greater exponent. -/
theorem unpack_of_isBetween {x hi : Float} {low high : Int} (h : isBetween 0 hi x = true)
    (normal : Normal low high hi.toModel.unpack) :
    (∃ s, x.toModel.unpack = .zero s) ∨
      ∃ m e pos, x.toModel.unpack = .finite .positive m e pos ∧ e ≤ high := by
  simp only [isBetween, Bool.and_eq_true, decide_eq_true_eq] at h
  obtain ⟨above, below⟩ := h
  have above : (UnpackedFloat.zero .positive).le x.toModel.unpack = true := of_decide_eq_true above
  have below : x.toModel.unpack.le hi.toModel.unpack = true := of_decide_eq_true below
  generalize x.toModel.unpack = u at above below ⊢
  generalize hi.toModel.unpack = v at below normal
  cases normal with
  | @mk s' m' e' pos' many few least most =>
      cases u with
      | notANumber => cases above
      | zero s => exact Or.inl ⟨s, rfl⟩
      | infinity s =>
          cases s with
          | positive =>
              cases s' with
              | positive | negative => cases below
          | negative => cases above
      | finite s m e pos =>
          cases s with
          | negative => cases above
          | positive =>
              refine Or.inr ⟨m, e, pos, rfl, ?_⟩
              cases s' with
              | negative => cases below
              | positive =>
                  -- doubles of one sign are ordered by the exponent first
                  have order : ((compare e e').then (compare m m')).isLE = true := below
                  by_contra large
                  have greater : compare e e' = .gt := Int.compare_eq_gt.2 (by omega)
                  rw [greater] at order
                  cases order

theorem isFinite_of_isBetween {x hi : Float} {low high : Int} (h : isBetween 0 hi x = true)
    (normal : Normal low high hi.toModel.unpack) : x.isFinite = true := by
  rcases unpack_of_isBetween h normal with ⟨s, unpacked⟩ | ⟨m, e, pos, unpacked, -⟩
  · exact isFinite_of_unpack unpacked rfl
  · exact isFinite_of_unpack unpacked rfl

theorem normal_two : Normal (-51) (-51) (2 : Float).toModel.unpack := by decide +kernel

theorem normal_unit : Normal (-52) (-52) (1 : Float).toModel.unpack := by decide +kernel

/-- Every double between zero and a number of the size of 2 has a numeral. -/
theorem exists_readFloat? {x hi : Float} {low high : Int} (h : isBetween 0 hi x = true)
    (normal : Normal low high hi.toModel.unpack) (small : high ≤ -23) :
    ∃ cs, Text.Solid cs ∧ readFloat? cs = some x := by
  rcases unpack_of_isBetween h normal with ⟨s, unpacked⟩ | ⟨m, e, pos, unpacked, most⟩
  · rw [← pack_unpack (isFinite_of_unpack unpacked rfl), unpacked]
    cases s with
    | positive => exact ⟨['0'], by decide, rfl⟩
    | negative => exact ⟨['-', '0'], by decide, rfl⟩
  · obtain ⟨k, rfl⟩ : ∃ k : Nat, e = -(k : Int) := ⟨(-e).toNat, by omega⟩
    refine ⟨Nat.toDigits 10 (m * 5 ^ k) ++ 'e' :: '-' :: Nat.toDigits 10 k, ?_, ?_⟩
    · refine ⟨List.append_ne_nil_of_left_ne_nil Nat.toDigits_ne_nil _, ?_⟩
      refine List.forall_mem_append.2 ⟨(solid_toDigits _).2, ?_⟩
      exact List.forall_mem_cons.2
        ⟨by decide, List.forall_mem_cons.2 ⟨by decide, (solid_toDigits k).2⟩⟩
    · rw [readFloat?_scientific, nearest_exact (by omega) unpacked]

end RecordInference.Decimal
