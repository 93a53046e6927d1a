import RecordInference.Decimal.Layout
import RecordInference.Proofs.Decimal.Exact
import RecordInference.Proofs.Decimal.Interval

/-!
# Doubles have texts of their own

A layout sets the point and may write an exponent, but the number that a text denotes (`textValue`)
is that of the digits that were chosen, whatever the layout (`textValue_magnitude`). That number
rounds to one double only, so finite doubles with the same text are the same (`eq_of_write`).
Comparison tells finite doubles apart too, the two zeros excepted (`unpack_of_beq`).
-/

set_option autoImplicit false

namespace RecordInference.Decimal

/-! ### Digits and zeros -/

theorem digitsValue_concat (ds : List Char) (c : Char) :
    digitsValue (ds ++ [c]) = 10 * digitsValue ds + (c.toNat - '0'.toNat) := by
  rw [digitsValue, List.foldl_append]
  rfl

theorem digitsValue_append_zeros (ds : List Char) (n : Nat) :
    digitsValue (ds ++ Layout.zeros n) = digitsValue ds * 10 ^ n := by
  induction n with
  | zero => rw [Layout.zeros, List.replicate_zero, List.append_nil, Nat.pow_zero, Nat.mul_one]
  | succ n ih =>
      rw [Layout.zeros, List.replicate_succ', ← List.append_assoc, digitsValue_concat,
        ← Layout.zeros, ih, Nat.pow_succ]
      show 10 * _ + 0 = _
      ring

theorem digitsValue_zeros_append (n : Nat) (ds : List Char) :
    digitsValue (Layout.zeros n ++ ds) = digitsValue ds := by
  induction n with
  | zero => rfl
  | succ n ih => exact ih

/-! ### The number of a text -/

/-- The exponent behind the digits of a text; none is zero. -/
def textExponent : List Char → Int
  | 'e' :: '-' :: ds => -(digitsValue ds : Int)
  | 'e' :: '+' :: ds => digitsValue ds
  | _ => 0

/-- The number that digits with a point and an exponent denote. -/
def textValue (cs : List Char) : ℚ :=
  let whole := cs.takeWhile Char.isDigit
  match cs.dropWhile Char.isDigit with
  | '.' :: tail =>
    digitsValue (whole ++ tail.takeWhile Char.isDigit) *
      10 ^ (textExponent (tail.dropWhile Char.isDigit) - (tail.takeWhile Char.isDigit).length)
  | rest => digitsValue whole * 10 ^ textExponent rest

/-- Whether a text is empty or opens with an exponent. -/
def IsSuffix (rest : List Char) : Prop := rest = [] ∨ ∃ tail, rest = 'e' :: tail

theorem takeWhile_digits {ds : List Char} (rest : List Char) (digits : ∀ c ∈ ds, c.isDigit = true)
    (stop : ∀ c tail, rest = c :: tail → c.isDigit = false) :
    (ds ++ rest).takeWhile Char.isDigit = ds ∧ (ds ++ rest).dropWhile Char.isDigit = rest := by
  rw [List.takeWhile_append_of_pos digits, List.dropWhile_append_of_pos digits]
  cases rest with
  | nil => exact ⟨List.append_nil ds, rfl⟩
  | cons c tail =>
      have no := stop c tail rfl
      rw [List.takeWhile_cons_of_neg (by simp [no]), List.dropWhile_cons_of_neg (by simp [no])]
      exact ⟨List.append_nil ds, rfl⟩

theorem IsSuffix.stop {rest : List Char} (h : IsSuffix rest) :
    ∀ c tail, rest = c :: tail → c.isDigit = false := by
  intro c tail eq
  rcases h with rfl | ⟨tail', rfl⟩
  · cases eq
  · cases eq
    rfl

theorem textValue_point (whole fraction rest : List Char)
    (digits : ∀ c ∈ whole, c.isDigit = true) (digits' : ∀ c ∈ fraction, c.isDigit = true)
    (suffix : IsSuffix rest) : textValue (whole ++ '.' :: (fraction ++ rest)) =
      digitsValue (whole ++ fraction) * 10 ^ (textExponent rest - fraction.length) := by
  obtain ⟨first, then_⟩ := takeWhile_digits ('.' :: (fraction ++ rest)) digits (by
    intro c tail eq
    cases eq
    rfl)
  obtain ⟨second, last⟩ := takeWhile_digits rest digits' suffix.stop
  simp only [textValue, first, then_, second, last]

theorem textValue_whole (whole rest : List Char) (digits : ∀ c ∈ whole, c.isDigit = true)
    (suffix : IsSuffix rest) :
    textValue (whole ++ rest) = digitsValue whole * 10 ^ textExponent rest := by
  obtain ⟨first, then_⟩ := takeWhile_digits rest digits suffix.stop
  simp only [textValue, first, then_]
  rcases suffix with rfl | ⟨tail, rfl⟩
  · rfl
  · rfl

theorem textExponent_scientific (e : Int) :
    textExponent ('e' :: (if e < 0 then '-' else '+') :: Nat.toDigits 10 e.natAbs) = e := by
  split
  · rw [textExponent, digitsValue_toDigits]
    omega
  · rw [textExponent, digitsValue_toDigits]
    omega

namespace Layout

theorem isDigit_zeros (n : Nat) : ∀ c ∈ zeros n, c.isDigit = true := by
  intro c member
  rw [List.eq_of_mem_replicate member]
  rfl

/-- Zeros may stand between the point and the digits. -/
theorem textValue_leading (n : Nat) {digits : List Char} (all : ∀ c ∈ digits, c.isDigit = true) :
    textValue (['0', '.'] ++ zeros n ++ digits) =
      digitsValue digits * 10 ^ (-(n + digits.length : Int)) := by
  have value := textValue_point ['0'] (zeros n ++ digits) [] (List.forall_mem_singleton.2 rfl)
    (List.forall_mem_append.2 ⟨isDigit_zeros n, all⟩) (Or.inl rfl)
  have same : digitsValue (['0'] ++ (zeros n ++ digits)) = digitsValue digits :=
    digitsValue_zeros_append n digits
  have exponent : textExponent [] - ((zeros n ++ digits).length : Int) = -(n + digits.length) := by
    rw [List.length_append, zeros, List.length_replicate]
    show 0 - _ = _
    push_cast
    ring
  rw [same, exponent, List.append_nil] at value
  exact value

/-- Zeros may stand behind the digits, and a fraction of zero behind these. -/
theorem textValue_trailing (l : Layout) (n : Nat) {digits : List Char}
    (all : ∀ c ∈ digits, c.isDigit = true) :
    textValue (digits ++ zeros n ++ (if l.pointZero then ['.', '0'] else [])) =
      digitsValue digits * 10 ^ n := by
  have padded : ∀ c ∈ digits ++ zeros n, c.isDigit = true :=
    List.forall_mem_append.2 ⟨all, isDigit_zeros n⟩
  split
  · have value := textValue_point _ ['0'] [] padded (List.forall_mem_singleton.2 rfl) (Or.inl rfl)
    refine value.trans ?_
    rw [digitsValue_concat, digitsValue_append_zeros]
    show ((10 * (digitsValue digits * 10 ^ n) + 0 : Nat) : ℚ) * 10 ^ (-1 : Int) = _
    push_cast
    rw [zpow_neg_one]
    ring
  · have value := textValue_whole _ [] padded (Or.inl rfl)
    refine value.trans ?_
    rw [digitsValue_append_zeros]
    show ((digitsValue digits * 10 ^ n : Nat) : ℚ) * 10 ^ (0 : Int) = _
    push_cast
    rw [mul_one]

/-- The point may stand between the digits. -/
theorem textValue_between {n : Nat} {digits : List Char} (all : ∀ c ∈ digits, c.isDigit = true)
    (inside : n ≤ digits.length) :
    textValue (digits.take n ++ '.' :: digits.drop n) =
      digitsValue digits * 10 ^ (n - digits.length : Int) := by
  have value := textValue_point (digits.take n) (digits.drop n) []
    (fun c member => all c (List.mem_of_mem_take member))
    (fun c member => all c (List.mem_of_mem_drop member)) (Or.inl rfl)
  have exponent : textExponent [] - ((digits.drop n).length : Int) = n - digits.length := by
    rw [List.length_drop]
    show 0 - _ = _
    omega
  rw [List.append_nil, List.take_append_drop, exponent] at value
  exact value

/-- Setting the point does not change the number. -/
theorem textValue_plain (l : Layout) {digits : List Char} (all : ∀ c ∈ digits, c.isDigit = true)
    (e : Int) :
    textValue (l.plain digits e) = digitsValue digits * 10 ^ (e + 1 - digits.length) := by
  rw [plain]
  split
  · next negative =>
    have exponent : -((-e - 1).toNat + digits.length : Int) = e + 1 - digits.length := by omega
    rw [textValue_leading _ all, exponent]
  · next whole =>
    dsimp only
    split
    · next few =>
      rw [textValue_trailing l _ all, ← zpow_natCast]
      congr 2
      omega
    · next many =>
      have exponent : ((e.toNat + 1 : Nat) - digits.length : Int) = e + 1 - digits.length := by
        omega
      rw [textValue_between all (Nat.le_of_not_le many), exponent]

/-- A text in scientific form denotes the number. -/
theorem textValue_scientific {digits : List Char} (all : ∀ c ∈ digits, c.isDigit = true)
    (some : digits ≠ []) (e : Int) : textValue (scientific digits e) =
      digitsValue digits * 10 ^ (e + 1 - digits.length) := by
  have suffix : IsSuffix ('e' :: (if e < 0 then '-' else '+') :: Nat.toDigits 10 e.natAbs) :=
    Or.inr ⟨_, rfl⟩
  match digits, some with
  | [d], _ =>
      rw [scientific, textValue_whole _ _ all suffix, textExponent_scientific]
      simp
  | d :: d' :: rest, _ =>
      have value := textValue_point [d] (d' :: rest) _
        (by simpa using all d) (fun c member => all c (List.mem_cons_of_mem _ member)) suffix
      rw [textExponent_scientific] at value
      refine value.trans ?_
      simp

/-- The text of a decimal denotes the decimal. -/
theorem textValue_magnitude (l : Layout) (d : Digits) : textValue (l.magnitude d) = d.value := by
  have exponent : d.exponent + (Nat.toDigits 10 d.digits).length - 1 + 1 -
      (Nat.toDigits 10 d.digits).length = d.exponent := by omega
  have value : (digitsValue (Nat.toDigits 10 d.digits) : ℚ) = d.digits := by
    rw [digitsValue_toDigits]
  simp only [magnitude]
  split
  · rw [textValue_plain l (isDigit_toDigits _), exponent, value]
    rfl
  · rw [textValue_scientific (isDigit_toDigits _) Nat.toDigits_ne_nil, exponent, value]
    rfl

/-- The text of a decimal opens with a digit, and so without a sign. -/
theorem exists_magnitude_eq_cons (l : Layout) (d : Digits) :
    ∃ c cs, l.magnitude d = c :: cs ∧ c.isDigit = true := by
  obtain ⟨c, cs, eq⟩ := List.exists_cons_of_ne_nil (@Nat.toDigits_ne_nil d.digits 10)
  have digit := isDigit_toDigits d.digits c (eq ▸ List.mem_cons_self)
  simp only [magnitude, plain, scientific, eq]
  split
  · split
    · exact ⟨_, _, rfl, rfl⟩
    · split
      · exact ⟨c, _, rfl, digit⟩
      · exact ⟨c, _, rfl, digit⟩
  · split
    · next none => cases none
    · next single =>
      cases single
      exact ⟨c, _, rfl, digit⟩
    · next several =>
      cases several
      exact ⟨c, _, rfl, digit⟩

end Layout

/-! ### Bits -/

/-- The exponent that bits hold. -/
def exponentBits (bits : UInt64) : Nat := bits.toNat / 2 ^ 52 % 2 ^ 11

/-- The fraction that bits hold. -/
def fractionBits (bits : UInt64) : Nat := bits.toNat % 2 ^ 52

theorem Binary.ofBits_eq (bits : UInt64) : Binary.ofBits bits =
    if exponentBits bits = 0 then ⟨fractionBits bits, -1074, false⟩
    else ⟨2 ^ 52 + fractionBits bits, (exponentBits bits : Int) - 1075,
      fractionBits bits = 0 && exponentBits bits > 1⟩ := by
  have exponent : ((bits >>> 52) &&& 0x7FF).toNat = exponentBits bits := by
    rw [UInt64.toNat_and, UInt64.toNat_shiftRight]
    show (bits.toNat >>> 52) &&& (2 ^ 11 - 1) = _
    rw [Nat.and_two_pow_sub_one_eq_mod, Nat.shiftRight_eq_div_pow]
    rfl
  have fraction : (bits &&& 0xFFFFFFFFFFFFF).toNat = fractionBits bits := by
    rw [UInt64.toNat_and]
    show bits.toNat &&& (2 ^ 52 - 1) = _
    rw [Nat.and_two_pow_sub_one_eq_mod]
    rfl
  simp only [Binary.ofBits, exponent, fraction]
  rfl

theorem isDouble_ofBits (bits : UInt64) : (Binary.ofBits bits).IsDouble := by
  have short : fractionBits bits < 2 ^ 52 := Nat.mod_lt _ (by decide)
  rw [Binary.ofBits_eq]
  split
  · next least =>
    refine ⟨?_, ?_, ?_, ?_⟩
    · show fractionBits bits < 2 ^ 53
      omega
    · exact Int.le_refl _
    · exact fun _ => rfl
    · exact ⟨nofun, fun h => absurd h.2 (Int.lt_irrefl _)⟩
  · next normal =>
    refine ⟨?_, ?_, ?_, ?_⟩
    · show 2 ^ 52 + fractionBits bits < 2 ^ 53
      omega
    · show -1074 ≤ (exponentBits bits : Int) - 1075
      omega
    · intro few
      have few : 2 ^ 52 + fractionBits bits < 2 ^ 52 := few
      omega
    · simp only [Bool.and_eq_true, decide_eq_true_eq]
      omega

/-- The mantissa and the exponent determine the bits that they are made of. -/
theorem bits_of_ofBits {bits bits' : UInt64}
    (mantissa : (Binary.ofBits bits).m = (Binary.ofBits bits').m)
    (exponent : (Binary.ofBits bits).q = (Binary.ofBits bits').q) :
    exponentBits bits = exponentBits bits' ∧ fractionBits bits = fractionBits bits' := by
  have short : fractionBits bits < 2 ^ 52 := Nat.mod_lt _ (by decide)
  have short' : fractionBits bits' < 2 ^ 52 := Nat.mod_lt _ (by decide)
  rw [Binary.ofBits_eq, Binary.ofBits_eq] at mantissa exponent
  split at mantissa
  · split at mantissa
    · simp only at mantissa
      omega
    · simp only at mantissa
      omega
  · next normal =>
    split at mantissa
    · simp only at mantissa
      omega
    · next normal' =>
      simp only [if_neg normal, if_neg normal'] at mantissa exponent
      omega

/-- The bits without the sign. -/
abbrev magnitudeBits (x : Float) : UInt64 := x.toBits &&& 0x7FFFFFFFFFFFFFFF

theorem toNat_magnitudeBits (x : Float) : (magnitudeBits x).toNat = x.toBits.toNat % 2 ^ 63 := by
  rw [magnitudeBits, UInt64.toNat_and]
  show x.toBits.toNat &&& (2 ^ 63 - 1) = _
  rw [Nat.and_two_pow_sub_one_eq_mod]

theorem signed_iff (x : Float) : Layout.signed x = true ↔ 2 ^ 63 ≤ x.toBits.toNat := by
  have bound := x.toBits.toNat_lt
  rw [Layout.signed, decide_eq_true_iff, ← UInt64.toNat_inj, UInt64.toNat_shiftRight]
  show x.toBits.toNat >>> 63 = 1 ↔ _
  rw [Nat.shiftRight_eq_div_pow]
  omega

theorem eq_of_toBits {x y : Float} (h : x.toBits = y.toBits) : x = y := by
  obtain ⟨⟨bits, valid⟩⟩ := x
  obtain ⟨⟨bits', valid'⟩⟩ := y
  have h : bits = bits' := h
  subst h
  rfl

/-- The sign and the parts of its bits determine a double. -/
theorem eq_of_parts {x y : Float} (sign : Layout.signed x = Layout.signed y)
    (mantissa : (Binary.ofBits (magnitudeBits x)).m = (Binary.ofBits (magnitudeBits y)).m)
    (exponent : (Binary.ofBits (magnitudeBits x)).q = (Binary.ofBits (magnitudeBits y)).q) :
    x = y := by
  obtain ⟨same, same'⟩ := bits_of_ofBits mantissa exponent
  simp only [exponentBits, fractionBits, toNat_magnitudeBits] at same same'
  have bound := x.toBits.toNat_lt
  have bound' := y.toBits.toNat_lt
  rw [Bool.eq_iff_iff, signed_iff, signed_iff] at sign
  refine eq_of_toBits (UInt64.toNat_inj.1 ?_)
  omega

/-! ### Numeric equality -/

section

open Float.Model Float.Model.UnpackedFloat

/-- A finite double compares equal with itself. -/
theorem beq_self {x : Float} (finite : x.isFinite = true) : (x == x) = true := by
  have inside := isFinite_iff.1 finite
  suffices order : x.toModel.unpack.compare x.toModel.unpack = some .eq from
    (beq_iff_eq (α := Option Ordering)).2 order
  generalize x.toModel.unpack = u at inside ⊢
  cases inside with
  | zero s => cases s <;> rfl
  | @finite s m e pos =>
      have same : (compare e e).then (compare m m) = .eq := by
        rw [Ordering.then_eq_eq]
        exact ⟨Int.compare_eq_eq.2 rfl, Nat.compare_eq_eq.2 rfl⟩
      cases s with
      | positive => exact congrArg some same
      | negative => exact congrArg some (Ordering.swap_eq_eq.2 same)

/-- Finite doubles that compare equal are the same or two zeros. -/
theorem unpack_of_beq {x y : Float} (finite : x.isFinite = true) (finite' : y.isFinite = true)
    (same : (x == y) = true) : x.toModel.unpack = y.toModel.unpack ∨
      ∃ s s', x.toModel.unpack = .zero s ∧ y.toModel.unpack = .zero s' := by
  have order : x.toModel.unpack.compare y.toModel.unpack = some .eq := eq_of_beq same
  have inside := isFinite_iff.1 finite
  have inside' := isFinite_iff.1 finite'
  generalize x.toModel.unpack = u at order inside ⊢
  generalize y.toModel.unpack = v at order inside' ⊢
  have magnitudes {m m' : Nat} {e e' : Int} (order : (compare e e').then (compare m m') = .eq) :
      e = e' ∧ m = m' := by
    rw [Ordering.then_eq_eq] at order
    exact ⟨Int.compare_eq_eq.1 order.1, Nat.compare_eq_eq.1 order.2⟩
  cases inside with
  | zero s =>
      cases inside' with
      | zero s' => exact Or.inr ⟨s, s', rfl, rfl⟩
      | finite s' => cases s' <;> cases order
  | finite s pos =>
      cases inside' with
      | zero s' => cases s <;> cases order
      | finite s' pos' =>
          cases s with
          | positive =>
              cases s' with
              | positive =>
                  obtain ⟨rfl, rfl⟩ := magnitudes (Option.some.inj order)
                  exact Or.inl rfl
              | negative => cases order
          | negative =>
              cases s' with
              | positive => cases order
              | negative =>
                  obtain ⟨rfl, rfl⟩ := magnitudes (Ordering.swap_eq_eq.1 (Option.some.inj order))
                  exact Or.inl rfl

/-- Finite doubles that compare equal and have one sign are the same. -/
theorem eq_of_beq_of_signed {x y : Float} (finite : x.isFinite = true) (finite' : y.isFinite = true)
    (same : (x == y) = true) (sign : Layout.signed x = Layout.signed y) : x = y := by
  rw [← pack_unpack finite, ← pack_unpack finite']
  rcases unpack_of_beq finite finite' same with eq | ⟨s, s', zero, zero'⟩
  · rw [eq]
  · have positive : Layout.signed (.ofModel (.pack (.zero .positive))) = false := by decide +kernel
    have negative : Layout.signed (.ofModel (.pack (.zero .negative))) = true := by decide +kernel
    rw [← pack_unpack finite, ← pack_unpack finite', zero, zero'] at sign
    rw [zero, zero']
    cases s with
    | positive =>
        cases s' with
        | positive => rfl
        | negative => rw [positive, negative] at sign; cases sign
    | negative =>
        cases s' with
        | positive => rw [positive, negative] at sign; cases sign
        | negative => rfl

end

/-! ### Texts -/

namespace Layout

/-- The digits that are chosen for a finite double, its sign apart. -/
def digitsOf (l : Layout) (x : Float) : Digits :=
  if (Binary.ofBits (magnitudeBits x)).m = 0 then ⟨0, 0⟩
  else (Binary.ofBits (magnitudeBits x)).shortest l.tie

theorem write_of_isFinite (l : Layout) {x : Float} (finite : x.isFinite = true) :
    l.write x = (if signed x then ['-'] else []) ++ l.magnitude (l.digitsOf x) := by
  have number : x.toModel.unpack.isNaN = false ∧ x.toModel.unpack.isInf = false := by
    have range := isFinite_iff.1 finite
    generalize x.toModel.unpack = u at range ⊢
    cases range with
    | zero | finite => exact ⟨rfl, rfl⟩
  rw [write, show x.isNaN = false from number.1, show x.isInf = false from number.2]
  rfl

/-- Doubles whose digits denote the same number have the same mantissa and exponent. -/
theorem parts_of_digitsOf {l : Layout} {x y : Float}
    (same : (l.digitsOf x).value = (l.digitsOf y).value) :
    (Binary.ofBits (magnitudeBits x)).m = (Binary.ofBits (magnitudeBits y)).m ∧
      (Binary.ofBits (magnitudeBits x)).q = (Binary.ofBits (magnitudeBits y)).q := by
  have hx := isDouble_ofBits (magnitudeBits x)
  have hy := isDouble_ofBits (magnitudeBits y)
  simp only [digitsOf] at same
  generalize Binary.ofBits (magnitudeBits x) = b at hx same ⊢
  generalize Binary.ofBits (magnitudeBits y) = b' at hy same ⊢
  have zero : (Digits.mk 0 0).value = 0 := zero_mul _
  -- only zero has the digit zero
  rcases Nat.eq_zero_or_pos b.m with none | pos
  · rcases Nat.eq_zero_or_pos b'.m with none' | pos'
    · exact ⟨none.trans none'.symm, (hx.normal (by omega)).trans (hy.normal (by omega)).symm⟩
    · rw [if_pos none, if_neg (Nat.ne_of_gt pos'), zero] at same
      exact absurd same (ne_of_lt ((Binary.covers_shortest pos' l.tie).pos pos'))
  · have covers := Binary.covers_shortest pos l.tie
    rcases Nat.eq_zero_or_pos b'.m with none' | pos'
    · rw [if_neg (Nat.ne_of_gt pos), if_pos none', zero] at same
      exact absurd same.symm (ne_of_lt (covers.pos pos))
    · rw [if_neg (Nat.ne_of_gt pos), if_neg (Nat.ne_of_gt pos')] at same
      rw [same] at covers
      exact Binary.eq_of_covers hx hy covers (Binary.covers_shortest pos' l.tie)

/-- Finite doubles with the same text are the same. -/
theorem eq_of_write {l : Layout} {x y : Float} (finite : x.isFinite = true)
    (finite' : y.isFinite = true) (same : l.write x = l.write y) : x = y := by
  rw [l.write_of_isFinite finite, l.write_of_isFinite finite'] at same
  -- a text opens with a sign or with a digit
  obtain ⟨c, cs, eq, digit⟩ := exists_magnitude_eq_cons l (l.digitsOf x)
  obtain ⟨c', cs', eq', digit'⟩ := exists_magnitude_eq_cons l (l.digitsOf y)
  have unsigned : c ≠ '-' := by
    rintro rfl
    cases digit
  have unsigned' : c' ≠ '-' := by
    rintro rfl
    cases digit'
  have parts : signed x = signed y ∧ l.magnitude (l.digitsOf x) = l.magnitude (l.digitsOf y) := by
    cases sign : signed x with
    | true =>
        cases sign' : signed y with
        | true =>
            rw [sign, sign'] at same
            exact ⟨rfl, (List.cons.inj same).2⟩
        | false =>
            rw [sign, sign', eq'] at same
            exact absurd (List.cons.inj same).1.symm unsigned'
    | false =>
        cases sign' : signed y with
        | true =>
            rw [sign, sign', eq] at same
            exact absurd (List.cons.inj same).1 unsigned
        | false =>
            rw [sign, sign'] at same
            exact ⟨rfl, same⟩
  have value := congrArg textValue parts.2
  rw [textValue_magnitude, textValue_magnitude] at value
  obtain ⟨mantissa, exponent⟩ := parts_of_digitsOf value
  exact eq_of_parts parts.1 mantissa exponent

end Layout

end RecordInference.Decimal
