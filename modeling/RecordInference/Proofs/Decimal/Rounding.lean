import Mathlib.Algebra.Group.Int.Defs
import Mathlib.Algebra.Group.Nat.Defs

/-!
# Rounding of doubles

Arithmetic on doubles unpacks them to a mantissa and an exponent, computes, rounds and packs
again. Rounding gives a mantissa next to the exact one (`roundWithAccuracy_cases`). `InRange` says
of an unpacked double that packing does not lose it (`isFinite_unpack_pack`), `Normal` that it has
all of its 53 bits and is packed as it is (`unpack_pack_normal`).

A product of numbers is a number (`isNaN_mul`), and a quotient by a normal number that is at least
4 stays in range (`inRange_div`).
-/

set_option autoImplicit false

namespace RecordInference.Decimal

open Float.Model Float.Model.UnpackedFloat

/-! ### Rounding -/

theorem mantissa_shiftRight (em : ExtendedMantissa) (n : Nat) :
    (em >>> n).mantissa = em.mantissa / 2 ^ n := by
  show (Nat.repeat ExtendedMantissa.shiftRightOne n em).mantissa = _
  induction n with
  | zero => simp [Nat.repeat]
  | succ n ih =>
      show (Nat.repeat ExtendedMantissa.shiftRightOne n em).mantissa / 2 = _
      rw [ih, Nat.div_div_eq_div_mul, Nat.pow_succ]

theorem roundedMantissa_bounds (em : ExtendedMantissa) :
    em.mantissa ≤ em.roundedMantissa ∧ em.roundedMantissa ≤ em.mantissa + 1 := by
  rcases em with ⟨m, round, sticky⟩
  -- a tie, which has its first bit alone, is rounded to the even mantissa
  cases round with
  | false =>
      cases sticky with
      | false => exact ⟨Nat.le_refl m, Nat.le_succ m⟩
      | true => exact ⟨Nat.le_refl m, Nat.le_succ m⟩
  | true =>
      cases sticky with
      | false =>
          show m ≤ m + m % 2 ∧ m + m % 2 ≤ m + 1
          omega
      | true => exact ⟨Nat.le_succ m, Nat.le_refl (m + 1)⟩

theorem targetExponent_eq (e : Int) : Format.binary64.targetExponent e = max (e - 53) (-1074) := rfl

/-- How many bits of a mantissa are rounded off. -/
def surplus (m : Nat) (e : Int) : Nat :=
  (Format.binary64.targetExponent (totalExponent m e) - e).toNat

theorem surplus_eq (m : Nat) (e : Int) :
    (surplus m e : Int) = max (max ((m.log2 : Int) - 52) (-1074 - e)) 0 := by
  simp only [surplus, targetExponent_eq, totalExponent]
  omega

theorem shiftToTargetExponent_eq (m : Nat) (e : Int) (accuracy : Accuracy) :
    (shiftToTargetExponent Format.binary64 m e accuracy).1.mantissa = m / 2 ^ surplus m e ∧
      (shiftToTargetExponent Format.binary64 m e accuracy).2 = e + surplus m e := by
  refine ⟨?_, rfl⟩
  show (ExtendedMantissa.ofMantissaAndAccuracy m accuracy >>> surplus m e).mantissa = _
  rw [mantissa_shiftRight]
  cases accuracy with
  | exact => rfl
  | inexact o =>
      cases o with
      | lt => rfl
      | eq => rfl
      | gt => rfl

theorem div_surplus_lt (m : Nat) (e : Int) : m / 2 ^ surplus m e < 2 ^ 53 := by
  have bits : m.log2 + 1 ≤ 53 + surplus m e := by
    have := surplus_eq m e
    omega
  rw [Nat.div_lt_iff_lt_mul (Nat.two_pow_pos _), ← Nat.pow_add]
  exact Nat.lt_of_lt_of_le Nat.lt_log2_self (Nat.pow_le_pow_right (by decide) bits)

/-- A second shift finds nothing to round off in a mantissa that has at most 53 bits. -/
theorem surplus_of_lt {r : Nat} {e : Int} (small : r < 2 ^ 53) (normal : -1074 ≤ e) :
    surplus r e = 0 := by
  have bits : r.log2 ≤ 52 := by
    by_cases zero : r = 0
    · simp [zero]
    · have := (Nat.log2_lt zero).2 small
      omega
  have := surplus_eq r e
  omega

theorem surplus_of_carry {e : Int} (normal : -1074 ≤ e) : surplus (2 ^ 53) e = 1 := by
  have := surplus_eq (2 ^ 53) e
  rw [Nat.log2_two_pow] at this
  omega

/-- The unpacked double of a mantissa that may be zero. -/
def ofMantissa (s : Sign) (m : Nat) (e : Int) : UnpackedFloat :=
  if h : m = 0 then .zero s else .finite s m e (Nat.pos_of_ne_zero h)

/-- Rounding leaves a mantissa `r` next to the exact one, and shifts it once more if it has got a
54th bit. -/
theorem roundWithAccuracy_cases (s : Sign) (m : Nat) (e : Int) (accuracy : Accuracy) :
    ∃ r, m / 2 ^ surplus m e ≤ r ∧ r ≤ m / 2 ^ surplus m e + 1 ∧
      ((r < 2 ^ 53 ∧ roundWithAccuracy Format.binary64 s m e accuracy =
          ofMantissa s r (e + surplus m e)) ∨
        (r = 2 ^ 53 ∧ roundWithAccuracy Format.binary64 s m e accuracy =
          ofMantissa s (2 ^ 52) (e + surplus m e + 1))) := by
  obtain ⟨mantissa, exponent⟩ := shiftToTargetExponent_eq m e accuracy
  obtain ⟨low, high⟩ :=
    roundedMantissa_bounds (shiftToTargetExponent Format.binary64 m e accuracy).1
  rw [mantissa] at low high
  have bound := div_surplus_lt m e
  have normal : -1074 ≤ e + surplus m e := by
    have := surplus_eq m e
    omega
  have shifted : roundWithAccuracy Format.binary64 s m e accuracy =
      ofMantissa s
        (shiftToTargetExponent Format.binary64
          (shiftToTargetExponent Format.binary64 m e accuracy).1.roundedMantissa
          (shiftToTargetExponent Format.binary64 m e accuracy).2 .exact).1.mantissa
        (shiftToTargetExponent Format.binary64
          (shiftToTargetExponent Format.binary64 m e accuracy).1.roundedMantissa
          (shiftToTargetExponent Format.binary64 m e accuracy).2 .exact).2 := rfl
  rw [exponent, (shiftToTargetExponent_eq _ _ _).1, (shiftToTargetExponent_eq _ _ _).2] at shifted
  generalize (shiftToTargetExponent Format.binary64 m e accuracy).1.roundedMantissa = r at *
  refine ⟨r, low, high, ?_⟩
  -- a mantissa of 53 bits that is rounded up may carry into a 54th
  by_cases small : r < 2 ^ 53
  · refine Or.inl ⟨small, ?_⟩
    rw [shifted, surplus_of_lt small normal]
    simp
  · have carry : r = 2 ^ 53 := by omega
    refine Or.inr ⟨carry, ?_⟩
    rw [shifted, carry, surplus_of_carry normal]
    rfl

/-! ### The range of doubles -/

/-- The unpacked doubles that are zero, or have at most 53 bits and are less than `2 ^ 1024`. -/
inductive InRange : UnpackedFloat → Prop
  | zero (s : Sign) : InRange (.zero s)
  | finite (s : Sign) {m : Nat} {e : Int} (pos : 0 < m) (few : m < 2 ^ 53) (small : e ≤ 971) :
      InRange (.finite s m e pos)

theorem inRange_ofMantissa {s : Sign} {m : Nat} {e : Int} (bits : m < 2 ^ 53) (small : e ≤ 971) :
    InRange (ofMantissa s m e) := by
  cases m with
  | zero => exact .zero s
  | succ m => exact .finite s (Nat.succ_pos m) bits small

/-- What is rounded to nearest stays in range if the exact number is less than `2 ^ 1023`. -/
theorem inRange_roundWithAccuracy {s : Sign} {m : Nat} {e : Int} {accuracy : Accuracy}
    (size : totalExponent m e ≤ 1023) (small : e ≤ 970) :
    InRange (roundWithAccuracy Format.binary64 s m e accuracy) := by
  have top : e + surplus m e ≤ 970 := by
    have := surplus_eq m e
    simp only [totalExponent] at size
    omega
  obtain ⟨r, -, -, ⟨bits, eq⟩ | ⟨-, eq⟩⟩ := roundWithAccuracy_cases s m e accuracy
  · rw [eq]
    exact inRange_ofMantissa bits (by omega)
  · rw [eq]
    exact inRange_ofMantissa (by decide) (by omega)

/-! ### Packing -/

/-- The unpacked double of the three parts of a packed one. -/
def ofParts (s : Sign) (exponent : BitVec 11) (m : BitVec 52) : UnpackedFloat :=
  if exponent = -1#11 then
    if m = 0#52 then .infinity s else .notANumber
  else if exponent = 0#11 then
    ofMantissa s m.toNat (-1074)
  else
    ofMantissa s (2 ^ 52 + m.toNat) (exponent.toNat - 1075)

theorem ofMantissa_of_pos (s : Sign) {m : Nat} (e : Int) (pos : 0 < m) :
    ofMantissa s m e = .finite s m e pos := dif_neg (Nat.ne_of_gt pos)

theorem toNat_one_append (m : BitVec 52) : (1#1 ++ m).toNat = 2 ^ 52 + m.toNat := by
  rw [BitVec.toNat_append, ← Nat.shiftLeft_add_eq_or_of_lt m.isLt]
  rfl

theorem unpack_eq_ofParts (b : BitVec 64) : UnpackedFloat.unpack Format.binary64 b =
    ofParts (Sign.ofBitVec (@unpackSign Format.binary64 b))
      (@unpackExponent Format.binary64 b) (@unpackMantissa Format.binary64 b) := by
  have pos : 0 < (1#1 ++ @unpackMantissa Format.binary64 b).toNat := by
    rw [toNat_one_append]
    exact Nat.add_pos_left (by decide) _
  unfold ofParts
  -- the two definitions split alike: infinities, then what is below the normal doubles
  by_cases top : @unpackExponent Format.binary64 b = -1#11
  · rw [if_pos top]
    exact if_pos top
  · rw [if_neg top]
    by_cases bottom : @unpackExponent Format.binary64 b = 0#11
    · rw [if_pos bottom]
      refine (if_neg top).trans ((if_pos bottom).trans ?_)
      by_cases zero : @unpackMantissa Format.binary64 b = 0#52
      · refine (dif_pos zero).trans ?_
        rw [zero]
        rfl
      · have pos : 0 < (@unpackMantissa Format.binary64 b).toNat :=
          Nat.pos_of_ne_zero fun none => zero (BitVec.eq_of_toNat_eq none)
        refine (dif_neg zero).trans ?_
        rw [ofMantissa_of_pos _ _ pos, bottom]
        rfl
    · rw [if_neg bottom, ← toNat_one_append, ofMantissa_of_pos _ _ pos]
      exact (if_neg top).trans (if_neg bottom)

theorem unpack_packComponents (s : Sign) (exponent : BitVec 11) (m : BitVec 52) :
    UnpackedFloat.unpack Format.binary64 (packComponents Format.binary64 s exponent m) =
      ofParts s exponent m := by
  have sign : unpackSign (packComponents Format.binary64 s exponent m) = s.toBitVec := by
    ext i bound
    have first : i = 0 := by omega
    have top : (s.toBitVec ++ exponent ++ m).getLsbD 63 = s.toBitVec.getLsbD 0 := by
      rw [BitVec.getLsbD_append, BitVec.getLsbD_append]
      rfl
    subst first
    show (BitVec.extractLsb 63 63 (s.toBitVec ++ exponent ++ m))[0] = s.toBitVec[0]
    rw [BitVec.getElem_extract]
    exact top
  rw [unpack_eq_ofParts, unpackExponent_packComponents, unpackMantissa_packComponents, sign]
  cases s with
  | negative => rfl
  | positive => rfl

theorem isFinite_of_inRange {u : UnpackedFloat} (h : InRange u) : u.isFinite = true := by
  cases h with
  | zero | finite => rfl

theorem inRange_ofParts {s : Sign} {exponent : BitVec 11} (m : BitVec 52)
    (finite : exponent ≠ -1#11) : InRange (ofParts s exponent m) := by
  have bits : m.toNat < 2 ^ 52 := m.isLt
  have small : exponent.toNat < 2047 := by
    have := exponent.isLt
    have : exponent.toNat ≠ 2047 := fun top => finite (BitVec.eq_of_toNat_eq top)
    omega
  unfold ofParts
  rw [if_neg finite]
  split
  · exact inRange_ofMantissa (by omega) (by decide)
  · exact inRange_ofMantissa (by omega) (by omega)

theorem inRange_unpack {b : BitVec 64}
    (finite : (UnpackedFloat.unpack Format.binary64 b).isFinite = true) :
    InRange (UnpackedFloat.unpack Format.binary64 b) := by
  rw [unpack_eq_ofParts] at finite ⊢
  apply inRange_ofParts
  intro top
  unfold ofParts at finite
  rw [if_pos top] at finite
  split at finite <;> cases finite

/-- The exponent of a double as it is packed. -/
def biased (e : Int) : Nat := (e + ((1023 : Nat) : Int) + ((52 : Nat) : Int)).toNat

/-- Packing makes an infinity of what is too large, and keeps what is in range. -/
theorem unpack_pack_finite (s : Sign) {m : Nat} (e : Int) (pos : 0 < m) :
    UnpackedFloat.unpack Format.binary64
        (UnpackedFloat.pack Format.binary64 (.finite s m e pos)) =
      if 2047 ≤ biased e then .infinity s
      else if m.log2 = 52 then ofParts s (BitVec.ofNat 11 (biased e)) (BitVec.ofNat 52 m)
      else ofParts s 0#11 (BitVec.ofNat 52 m) := by
  by_cases large : 2047 ≤ biased e
  · have large' : 2 ^ 11 ≤ biased e + 1 := by omega
    rw [if_pos large]
    refine (congrArg _ (if_pos large')).trans ?_
    exact unpack_packComponents s (-1#11) 0#52
  · have large' : ¬ 2 ^ 11 ≤ biased e + 1 := by omega
    rw [if_neg large]
    refine (congrArg _ (if_neg large')).trans ?_
    by_cases normal : m.log2 = 52
    · have normal' : m.log2 + 1 = 53 := by omega
      rw [if_pos normal]
      refine (congrArg _ (if_pos normal')).trans ?_
      exact unpack_packComponents s _ _
    · have normal' : ¬ m.log2 + 1 = 53 := by omega
      rw [if_neg normal]
      refine (congrArg _ (if_neg normal')).trans ?_
      exact unpack_packComponents s _ _

theorem biased_ofNat {e : Int} (small : ¬ 2047 ≤ biased e) :
    BitVec.ofNat 11 (biased e) ≠ -1#11 := by
  intro top
  have value := congrArg BitVec.toNat top
  rw [BitVec.toNat_ofNat] at value
  have : biased e % 2 ^ 11 = 2047 := value
  omega

theorem isFinite_unpack_pack_of_biased (s : Sign) {m : Nat} {e : Int} (pos : 0 < m)
    (small : ¬ 2047 ≤ biased e) : (UnpackedFloat.unpack Format.binary64
      (UnpackedFloat.pack Format.binary64 (.finite s m e pos))).isFinite = true := by
  rw [unpack_pack_finite, if_neg small]
  split
  · exact isFinite_of_inRange (inRange_ofParts _ (biased_ofNat small))
  · exact isFinite_of_inRange (inRange_ofParts _ (by decide))

/-- Packing loses nothing that is in range. -/
theorem isFinite_unpack_pack {u : UnpackedFloat} (h : InRange u) :
    (UnpackedFloat.unpack Format.binary64 (UnpackedFloat.pack Format.binary64 u)).isFinite =
      true := by
  cases h with
  | zero s =>
      show (UnpackedFloat.unpack Format.binary64 (packComponents Format.binary64 s 0 0)).isFinite = _
      rw [unpack_packComponents]
      exact isFinite_of_inRange (inRange_ofParts _ (by decide))
  | @finite s m e pos _ top =>
      have small : ¬ 2047 ≤ biased e := by
        unfold biased
        omega
      exact isFinite_unpack_pack_of_biased s pos small

/-- Packing makes a finite double or an infinity of what is a number. -/
theorem isFinite_unpack_pack_of_isInf {u : UnpackedFloat} (number : u.isNaN = false)
    (notInf : (UnpackedFloat.unpack Format.binary64
      (UnpackedFloat.pack Format.binary64 u)).isInf = false) :
    (UnpackedFloat.unpack Format.binary64 (UnpackedFloat.pack Format.binary64 u)).isFinite =
      true := by
  cases u with
  | zero s => exact isFinite_unpack_pack (.zero s)
  | infinity s =>
      have infinite : UnpackedFloat.unpack Format.binary64
          (UnpackedFloat.pack Format.binary64 (.infinity s)) = .infinity s :=
        unpack_packComponents s (-1#11) 0#52
      rw [infinite] at notInf
      cases notInf
  | notANumber => cases number
  | finite s m e pos =>
      by_cases large : 2047 ≤ biased e
      · rw [unpack_pack_finite, if_pos large] at notInf
        cases notInf
      · exact isFinite_unpack_pack_of_biased s pos large

/-! ### Normal doubles -/

/-- The unpacked doubles that have exactly 53 bits, the last of which counts `2 ^ low` to
`2 ^ high`. -/
inductive Normal (low high : Int) : UnpackedFloat → Prop
  | mk (s : Sign) {m : Nat} {e : Int} (pos : 0 < m) (many : 2 ^ 52 ≤ m) (few : m < 2 ^ 53)
      (above : low ≤ e) (below : e ≤ high) : Normal low high (.finite s m e pos)

instance (low high : Int) (u : UnpackedFloat) : Decidable (Normal low high u) :=
  match u with
  | .finite s m e pos =>
      decidable_of_iff (2 ^ 52 ≤ m ∧ m < 2 ^ 53 ∧ low ≤ e ∧ e ≤ high)
        ⟨fun ⟨many, few, above, below⟩ => .mk s pos many few above below,
          fun | .mk _ _ many few above below => ⟨many, few, above, below⟩⟩
  | .zero _ | .infinity _ | .notANumber => isFalse nofun

/-- The leading bit of a normal double is the 53rd. -/
theorem log2_eq_of_bits {m : Nat} (many : 2 ^ 52 ≤ m) (few : m < 2 ^ 53) : m.log2 = 52 := by
  have nonzero : m ≠ 0 := Nat.ne_of_gt (Nat.lt_of_lt_of_le (by decide) many)
  exact (Nat.log2_eq_iff nonzero).2 ⟨many, few⟩

theorem Normal.mono {low high low' high' : Int} {u : UnpackedFloat} (h : Normal low high u)
    (le : low' ≤ low) (le' : high ≤ high') : Normal low' high' u := by
  cases h with
  | mk s pos many few above below =>
      exact .mk s pos many few (Int.le_trans le above) (Int.le_trans below le')

theorem Normal.inRange {low high : Int} {u : UnpackedFloat} (h : Normal low high u)
    (top : high ≤ 971) : InRange u := by
  cases h with
  | mk s pos many few above below => exact .finite s pos few (Int.le_trans below top)

theorem normal_ofMantissa {s : Sign} {m : Nat} {e low high : Int} (many : 2 ^ 52 ≤ m)
    (few : m < 2 ^ 53) (above : low ≤ e) (below : e ≤ high) :
    Normal low high (ofMantissa s m e) := by
  rw [ofMantissa_of_pos s e (Nat.lt_of_lt_of_le (by decide) many)]
  exact .mk s _ many few above below

/-- What has enough bits is rounded to a normal double. -/
theorem normal_roundWithAccuracy {s : Sign} {m : Nat} {e : Int} {accuracy : Accuracy}
    (bits : 52 ≤ m.log2) (low : -1022 ≤ e + m.log2) :
    Normal (e + m.log2 - 52) (e + m.log2 - 51)
      (roundWithAccuracy Format.binary64 s m e accuracy) := by
  have shift : surplus m e = m.log2 - 52 := by
    have := surplus_eq m e
    omega
  -- what is left after the shift has exactly 53 bits, and rounding up keeps at least these
  have many : 2 ^ 52 ≤ m / 2 ^ surplus m e := by
    have nonzero : m ≠ 0 := by
      intro zero
      rw [zero] at bits
      simp at bits
    rw [Nat.le_div_iff_mul_le (Nat.two_pow_pos _), ← Nat.pow_add, shift, Nat.add_sub_cancel' bits]
    exact Nat.log2_self_le nonzero
  obtain ⟨r, above, -, ⟨few, eq⟩ | ⟨-, eq⟩⟩ := roundWithAccuracy_cases s m e accuracy
  · rw [eq]
    exact normal_ofMantissa (Nat.le_trans many above) few (by omega) (by omega)
  · rw [eq]
    exact normal_ofMantissa (Nat.le_refl _) (by decide) (by omega) (by omega)

/-- A normal double is packed as it is. -/
theorem unpack_pack_normal {low high : Int} {u : UnpackedFloat} (h : Normal low high u)
    (bottom : -1074 ≤ low) (top : high ≤ 971) :
    UnpackedFloat.unpack Format.binary64 (UnpackedFloat.pack Format.binary64 u) = u := by
  cases h with
  | @mk s m e pos many few above below =>
      have exponent : (biased e : Int) = e + 1075 := by
        unfold biased
        omega
      have small : ¬ 2047 ≤ biased e := by omega
      have log := log2_eq_of_bits many few
      -- the leading bit is left out of the packed mantissa, and unpacking puts it back
      have kept : (BitVec.ofNat 11 (biased e)).toNat = biased e := by
        rw [BitVec.toNat_ofNat]
        omega
      have rest : 2 ^ 52 + (BitVec.ofNat 52 m).toNat = m := by
        rw [BitVec.toNat_ofNat]
        omega
      have up : BitVec.ofNat 11 (biased e) ≠ 0#11 := by
        intro zero
        have value := congrArg BitVec.toNat zero
        rw [kept] at value
        have : biased e = 0 := value
        omega
      rw [unpack_pack_finite, if_neg small, if_pos log, ofParts, if_neg (biased_ofNat small),
        if_neg up, rest, kept, ofMantissa_of_pos _ _ pos]
      congr 1
      omega

/-! ### Products and quotients -/

theorem isNaN_ofMantissa (s : Sign) (m : Nat) (e : Int) : (ofMantissa s m e).isNaN = false := by
  cases m with
  | zero | succ => rfl

theorem isNaN_roundWithAccuracy (s : Sign) (m : Nat) (e : Int) (accuracy : Accuracy) :
    (roundWithAccuracy Format.binary64 s m e accuracy).isNaN = false := by
  obtain ⟨r, -, -, ⟨-, eq⟩ | ⟨-, eq⟩⟩ := roundWithAccuracy_cases s m e accuracy
  · rw [eq, isNaN_ofMantissa]
  · rw [eq, isNaN_ofMantissa]

theorem isNaN_mul {u v : UnpackedFloat} (h : InRange u) (h' : InRange v) :
    (UnpackedFloat.mul Format.binary64 u v).isNaN = false := by
  cases h with
  | zero s =>
      cases h' with
      | zero | finite => rfl
  | finite s pos few small =>
      cases h' with
      | zero => rfl
      | finite s' pos' few' small' => exact isNaN_roundWithAccuracy _ _ _ _

theorem normal_mul {low high low' high' : Int} {u v : UnpackedFloat} (h : Normal low high u)
    (h' : Normal low' high' v) (bottom : -1126 ≤ low + low') :
    Normal (low + low' + 52) (high + high' + 54) (UnpackedFloat.mul Format.binary64 u v) := by
  cases h with
  | @mk s m e pos many few above below =>
      cases h' with
      | @mk s' m' e' pos' many' few' above' below' =>
          have product : m * m' ≠ 0 := Nat.ne_of_gt (Nat.mul_pos pos pos')
          have least : 52 + 52 ≤ (m * m').log2 := by
            rw [Nat.le_log2 product, Nat.pow_add 2 52 52]
            exact Nat.mul_le_mul many many'
          have most : (m * m').log2 < 53 + 53 := by
            rw [Nat.log2_lt product, Nat.pow_add 2 53 53]
            exact Nat.mul_lt_mul'' few few'
          exact (normal_roundWithAccuracy (by omega) (by omega)).mono (by omega) (by omega)

theorem log2_shiftLeft_div_le {m m' : Nat} (n : Nat) (few : m < 2 ^ 53) (many : 2 ^ 52 ≤ m') :
    (m <<< n / m').log2 ≤ n := by
  by_cases zero : m <<< n / m' = 0
  · rw [zero]
    exact Nat.zero_le n
  · refine Nat.le_of_lt_succ ((Nat.log2_lt zero).2 ?_)
    rw [Nat.shiftLeft_eq, Nat.div_lt_iff_lt_mul (Nat.lt_of_lt_of_le (by decide) many)]
    calc m * 2 ^ n < 2 ^ 53 * 2 ^ n := Nat.mul_lt_mul_of_pos_right few (Nat.two_pow_pos n)
      _ = 2 ^ (n + 1) * 2 ^ 52 := by
        rw [← Nat.pow_add, ← Nat.pow_add, Nat.add_comm 53 n]
      _ ≤ 2 ^ (n + 1) * m' := Nat.mul_le_mul_left _ many

/-- A quotient by a number that is at least 4 stays in range. -/
theorem inRange_div {high : Int} {u v : UnpackedFloat} (h : InRange u) (h' : Normal (-50) high v) :
    InRange (UnpackedFloat.div Format.binary64 u v) := by
  cases h' with
  | @mk s' m' e' pos' many few above below =>
      cases h with
      | zero s => exact .zero _
      | @finite s m e pos bits small =>
          have log : m.log2 ≤ 52 := by
            have := (Nat.log2_lt (Nat.ne_of_gt pos)).2 bits
            omega
          have log' := log2_eq_of_bits many few
          -- the exponent that the quotient is computed with before it is rounded
          generalize target : min (e - e')
            (Format.binary64.targetExponent (totalExponent m e - totalExponent m' e')) = t
          have low : t ≤ 968 := by
            simp only [targetExponent_eq, totalExponent] at target
            omega
          show InRange (roundWithAccuracy Format.binary64 (s / s')
            ((m <<< (e - e' - min (e - e')
              (Format.binary64.targetExponent (totalExponent m e - totalExponent m' e'))).toNat) / m')
            (min (e - e')
              (Format.binary64.targetExponent (totalExponent m e - totalExponent m' e'))) _)
          rw [target]
          have bits := log2_shiftLeft_div_le (e - e' - t).toNat bits many
          apply inRange_roundWithAccuracy ?_ (by omega)
          unfold totalExponent
          omega

end RecordInference.Decimal
