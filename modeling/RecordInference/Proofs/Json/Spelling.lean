import RecordInference.Proofs.Json.Grammar
import RecordInference.Proofs.Json.Unique

/-!
# What is written spells the value

The compact text of a value is one of its spellings (`spells_chars`), and it holds no control
character (`printable_chars`). Characters are escaped one by one (`letter_escaped`), integers are
written without a zero in front (`whole_toDigits`), and the digits of a double, wherever the point is
set, are a numeral whose value rounds to it (`spells_floatChars`).
-/

set_option autoImplicit false

namespace RecordInference.Json

open Decimal

/-! ### Texts in quotes -/

/-- A character is spelled by what stands for it in a text in quotes. -/
theorem letter_escaped (c : Char) : Letter c (escaped c) := by
  rcases escaped_cases c with ⟨l, eq, stands⟩ | ⟨control, eq⟩ | ⟨⟨quote, backslash, printable⟩, eq⟩
  · rw [eq]
    exact .letter stands
  · rw [eq]
    have spelled := Letter.digits (hexFour?_control control) (Or.inl (by omega))
    rwa [Char.ofNat_toNat] at spelled
  · rw [eq]
    exact .plain quote backslash printable

theorem letters_flatMap_escaped (cs : List Char) : Letters cs (cs.flatMap escaped) := by
  induction cs with
  | nil => exact .nil
  | cons c cs ih =>
      rw [List.flatMap_cons]
      exact .cons (letter_escaped c) ih

theorem quoted_quoted (s : String) : Quoted s (quoted s) :=
  .quotes (letters_flatMap_escaped s.toList)

/-! ### Control characters -/

/-- Whether there is no control character. -/
def Printable (cs : List Char) : Prop := ∀ c ∈ cs, ¬ c.toNat < 0x20

theorem printable_append {cs ds : List Char} (h : Printable cs) (h' : Printable ds) :
    Printable (cs ++ ds) :=
  List.forall_mem_append.2 ⟨h, h'⟩

theorem printable_cons {c : Char} {cs : List Char} (h : ¬ c.toNat < 0x20) (h' : Printable cs) :
    Printable (c :: cs) :=
  List.forall_mem_cons.2 ⟨h, h'⟩

theorem printable_of_all {cs : List Char} (h : (cs.all fun c => decide (0x20 ≤ c.toNat)) = true) :
    Printable cs :=
  fun c member => Nat.not_lt.2 (of_decide_eq_true (List.all_eq_true.1 h c member))

theorem printable_hexDigit : ∀ n : Fin 16, ¬ (hexDigit n).toNat < 0x20 := by decide

theorem printable_of_letter? {l c : Char} (stands : letter? l = some c) : ¬ l.toNat < 0x20 := by
  unfold letter? at stands
  split at stands
  all_goals first | decide | cases stands

theorem printable_of_isNumeral {c : Char} (h : isNumeral c = true) : ¬ c.toNat < 0x20 := by
  simp only [isNumeral, Char.isDigit, Bool.or_eq_true, Bool.and_eq_true, decide_eq_true_eq] at h
  rcases h with (((⟨low, -⟩ | rfl) | rfl) | rfl) | rfl
  · have low : (48 : Nat) ≤ c.toNat := low
    omega
  all_goals decide

theorem printable_escaped (c : Char) : Printable (escaped c) := by
  rcases escaped_cases c with ⟨l, eq, stands⟩ | ⟨control, eq⟩ | ⟨⟨-, -, printable⟩, eq⟩
  · rw [eq]
    exact printable_cons (by decide)
      (printable_cons (printable_of_letter? stands) (List.forall_mem_nil _))
  · rw [eq]
    have high := printable_hexDigit ⟨c.toNat / 16, by omega⟩
    have low := printable_hexDigit ⟨c.toNat % 16, by omega⟩
    have front : Printable ['\\', 'u', '0', '0'] := printable_of_all (by decide)
    exact printable_append front
      (printable_cons high (printable_cons low (List.forall_mem_nil _)))
  · rw [eq]
    exact printable_cons printable (List.forall_mem_nil _)

theorem printable_quoted (s : String) : Printable (quoted s) := by
  refine printable_append (printable_cons (by decide) ?_)
    (printable_cons (by decide) (List.forall_mem_nil _))
  intro c member
  obtain ⟨d, -, member⟩ := List.mem_flatMap.1 member
  exact printable_escaped d c member

theorem printable_itemChars {items : List Json} (each : ∀ v ∈ items, Printable (chars v)) :
    Printable (itemChars items) := by
  induction items with
  | nil => exact printable_cons (by decide) (List.forall_mem_nil _)
  | cons v items ih =>
      obtain ⟨first, others⟩ := List.forall_mem_cons.1 each
      rw [itemChars_cons, itemRest]
      refine printable_append first ?_
      split
      · exact printable_cons (by decide) (List.forall_mem_nil _)
      · exact printable_cons (by decide) (ih others)

theorem printable_memberChars {members : List (String × Json)}
    (each : ∀ m ∈ members, Printable (chars m.2)) : Printable (memberChars members) := by
  induction members with
  | nil => exact printable_cons (by decide) (List.forall_mem_nil _)
  | cons m members ih =>
      obtain ⟨first, others⟩ := List.forall_mem_cons.1 each
      rw [memberChars_cons, memberRest]
      refine printable_append (printable_quoted m.1)
        (printable_cons (by decide) (printable_append first ?_))
      split
      · exact printable_cons (by decide) (List.forall_mem_nil _)
      · exact printable_cons (by decide) (ih others)

/-- There is no control character in the compact text of a value. -/
theorem printable_chars (v : Json) : Printable (chars v) := by
  induction v using Json.induction with
  | null => exact printable_of_all (by decide)
  | bool b =>
      cases b with
      | true | false => exact printable_of_all (by decide)
  | int i => exact fun c member => printable_of_isNumeral (isNumeral_intChars i c member)
  | float x =>
      by_cases finite : x.isFinite = true
      · exact fun c member => printable_of_isNumeral (isNumeral_floatChars finite c member)
      · rw [chars, floatChars, if_neg finite]
        exact printable_of_all (by decide)
  | str s => exact printable_quoted s
  | arr items ih => exact printable_cons (by decide) (printable_itemChars ih)
  | obj members ih => exact printable_cons (by decide) (printable_memberChars ih)

/-! ### Numerals -/

/-- The digits of a positive number open with none that is zero. -/
theorem leading_toDigits {n : Nat} (pos : 0 < n) :
    ∃ c cs, Nat.toDigits 10 n = c :: cs ∧ c ≠ '0' := by
  induction n using Nat.strongRecOn with
  | ind n ih =>
      rw [Nat.toDigits_eq_if (by decide)]
      split
      · refine ⟨n.digitChar, [], rfl, ?_⟩
        rw [Ne, Nat.digitChar_eq_zero]
        omega
      -- the number without its last digit opens with the same one
      · obtain ⟨c, cs, eq, leading⟩ := ih (n / 10) (by omega) (by omega)
        rw [eq]
        exact ⟨c, cs ++ [(n % 10).digitChar], rfl, leading⟩

theorem isDigits_toDigits (n : Nat) : IsDigits (Nat.toDigits 10 n) :=
  ⟨Nat.toDigits_ne_nil, isDigit_toDigits n⟩

/-- Digits in front of which there is a digit that is not zero. -/
theorem whole_append {n : Nat} (pos : 0 < n) (ds : List Char)
    (digits : ∀ c ∈ Nat.toDigits 10 n ++ ds, c.isDigit = true) : Whole (Nat.toDigits 10 n ++ ds) := by
  obtain ⟨c, cs, eq, leading⟩ := leading_toDigits pos
  rw [eq, List.cons_append, List.forall_mem_cons] at digits
  rw [eq]
  exact .digits digits.1 leading digits.2

theorem whole_toDigits (n : Nat) : Whole (Nat.toDigits 10 n) := by
  rcases Nat.eq_zero_or_pos n with rfl | pos
  · exact .zero
  · have whole := whole_append pos [] (by simpa using isDigit_toDigits n)
    rwa [List.append_nil] at whole

theorem Whole.isDigit {w : List Char} (h : Whole w) : ∀ c ∈ w, c.isDigit = true := by
  cases h with
  | zero => exact List.forall_mem_singleton.2 rfl
  | digits first leading others => exact List.forall_mem_cons.2 ⟨first, others⟩

theorem spells_intChars (i : Int) : Spells (.int i) (intChars i) := by
  rw [intChars]
  split
  · next negative =>
    have spelled := Spells.negative (whole_toDigits i.natAbs)
      (by rw [digitsValue_toDigits]; omega)
    rw [digitsValue_toDigits] at spelled
    rwa [show -(i.natAbs : Int) = i by omega] at spelled
  · next positive =>
    have spelled := Spells.nat (whole_toDigits i.natAbs)
    rw [digitsValue_toDigits] at spelled
    rwa [show (i.natAbs : Int) = i by omega] at spelled

/-- The value of a numeral is what its text denotes. -/
theorem exists_numeral {whole ds fraction exponent : List Char} (first : Whole whole)
    (second : Fraction ds fraction) (third : Exponent (textExponent exponent) exponent)
    (suffix : IsSuffix exponent) : ∃ d, Numeral d (whole ++ (fraction ++ exponent)) ∧
      d.value = textValue (whole ++ (fraction ++ exponent)) := by
  refine ⟨_, .parts first second third, ?_⟩
  cases second with
  | none =>
      rw [List.nil_append, textValue_whole whole exponent first.isDigit suffix, Digits.value,
        List.append_nil]
      simp
  | digits digits =>
      rw [List.cons_append, textValue_point whole ds exponent first.isDigit digits.2 suffix]
      rfl

/-- A mark for the exponent, its sign and its digits. -/
theorem exponent_scientific (e : Int) : Exponent e
    ('e' :: (if e < 0 then '-' else '+') :: Nat.toDigits 10 e.natAbs) := by
  split
  · have spelled := Exponent.down (Or.inl rfl : 'e' = 'e' ∨ 'e' = 'E') (isDigits_toDigits e.natAbs)
    rw [digitsValue_toDigits] at spelled
    rwa [show -(e.natAbs : Int) = e by omega] at spelled
  · have spelled := Exponent.up (Or.inl rfl : 'e' = 'e' ∨ 'e' = 'E') (Or.inr rfl : ['+'] = [] ∨ _)
      (isDigits_toDigits e.natAbs)
    rw [digitsValue_toDigits] at spelled
    rwa [show (e.natAbs : Int) = e by omega] at spelled

/-- A positive decimal is written as a numeral where whole numbers keep a fraction. -/
theorem exists_numeral_magnitude {l : Layout} (fraction : l.pointZero = true) {d : Digits}
    (digits : 0 < d.digits) : ∃ d', Numeral d' (l.magnitude d) ∧ d'.value = d.value := by
  suffices ∃ d', Numeral d' (l.magnitude d) ∧ d'.value = textValue (l.magnitude d) by
    rwa [Layout.textValue_magnitude] at this
  have all := isDigit_toDigits d.digits
  have some : Nat.toDigits 10 d.digits ≠ [] := Nat.toDigits_ne_nil
  have zeros := Layout.isDigit_zeros
  have ended : Exponent (textExponent []) [] := .none
  simp only [Layout.magnitude]
  generalize d.exponent + (Nat.toDigits 10 d.digits).length - 1 = e
  split
  · rw [Layout.plain]
    split
    · -- all digits behind the point
      have spelled := exists_numeral .zero
        (.digits ⟨List.append_ne_nil_of_right_ne_nil (Layout.zeros (-e - 1).toNat) some,
          List.forall_mem_append.2 ⟨zeros _, all⟩⟩) ended (Or.inl rfl)
      simpa using spelled
    · dsimp only
      split
      · -- all digits in front of the point
        have spelled := exists_numeral
          (whole_append digits (Layout.zeros (e.toNat + 1 - (Nat.toDigits 10 d.digits).length))
            (List.forall_mem_append.2 ⟨all, zeros _⟩))
          (.digits ⟨List.cons_ne_nil '0' [], List.forall_mem_singleton.2 rfl⟩) ended (Or.inl rfl)
        simpa [fraction] using spelled
      · next more =>
        -- the point among the digits
        obtain ⟨c, cs, eq, leading⟩ := leading_toDigits digits
        rw [eq] at all more ⊢
        obtain ⟨first, others⟩ := List.forall_mem_cons.1 all
        have behind : (c :: cs).drop (e.toNat + 1) ≠ [] := by
          rw [Ne, List.drop_eq_nil_iff]
          exact more
        have front : Whole (c :: cs.take e.toNat) :=
          .digits first leading fun d member => others d (List.mem_of_mem_take member)
        have spelled := exists_numeral front
          (.digits ⟨behind, fun d member => all d (List.mem_of_mem_drop member)⟩) ended (Or.inl rfl)
        simpa using spelled
  · -- one digit in front of the point, and an exponent
    obtain ⟨c, cs, eq, leading⟩ := leading_toDigits digits
    rw [eq] at all ⊢
    obtain ⟨first, others⟩ := List.forall_mem_cons.1 all
    have exponent : Exponent
        (textExponent ('e' :: (if e < 0 then '-' else '+') :: Nat.toDigits 10 e.natAbs))
        ('e' :: (if e < 0 then '-' else '+') :: Nat.toDigits 10 e.natAbs) := by
      rw [textExponent_scientific]
      exact exponent_scientific e
    cases cs with
    | nil =>
        exact exists_numeral (.digits first leading (List.forall_mem_nil _)) .none exponent
          (Or.inr ⟨_, rfl⟩)
    | cons c' cs =>
        exact exists_numeral (.digits first leading (List.forall_mem_nil _))
          (.digits ⟨List.cons_ne_nil c' cs, others⟩) exponent (Or.inr ⟨_, rfl⟩)

/-- The digits that are chosen for a double round to it, and they are none for zero alone. -/
theorem rounds_digitsOf (l : Layout) (x : Float) : Rounds x (l.digitsOf x) ∧
    (l.digitsOf x = ⟨0, 0⟩ ∨ 0 < (l.digitsOf x).digits) := by
  rw [Rounds, Layout.digitsOf]
  split
  · exact ⟨by simp [Digits.value], Or.inl rfl⟩
  · next nonzero =>
    have pos := Nat.pos_of_ne_zero nonzero
    have covers := Binary.covers_shortest pos l.tie
    refine ⟨covers, Or.inr (Nat.pos_of_ne_zero fun zero => ?_)⟩
    have value := covers.pos pos
    rw [Digits.value, zero] at value
    simp at value

theorem spells_floatChars (x : Float) : Spells (.float x) (floatChars x) := by
  by_cases finite : x.isFinite = true
  · obtain ⟨rounds, digits⟩ := rounds_digitsOf numberLayout x
    have numeral : ∃ d, Numeral d (numberLayout.magnitude (numberLayout.digitsOf x)) ∧
        d.value = (numberLayout.digitsOf x).value := by
      rcases digits with zero | pos
      · rw [zero]
        exact ⟨_, .parts .zero (.digits ⟨List.cons_ne_nil '0' [], List.forall_mem_singleton.2 rfl⟩)
          .none, by simp [Digits.value, digitsValue]⟩
      · exact exists_numeral_magnitude rfl pos
    obtain ⟨d, numeral, value⟩ := numeral
    rw [floatChars_eq finite]
    refine .float finite numeral (fun whole => ?_) (by rwa [Rounds, value])
    -- a double is never written like an integer: it has a point or an exponent
    rcases point_or_exponent (l := numberLayout) rfl (numberLayout.digitsOf x) with point | mark
    · exact absurd (whole.isDigit _ point) (by decide)
    · exact absurd (whole.isDigit _ mark) (by decide)
  · rw [floatChars, if_neg finite]
    exact .lost (by simpa using finite)

/-! ### Values -/

theorem row_itemChars {items : List Json} (each : ∀ v ∈ items, Spells v (chars v))
    (some : items ≠ []) : ∃ ws, Row Spells items ws ∧ itemChars items = ws ++ [']'] := by
  induction items with
  | nil => exact absurd rfl some
  | cons v items ih =>
      obtain ⟨first, others⟩ := List.forall_mem_cons.1 each
      rw [itemChars_cons]
      cases items with
      | nil =>
          refine ⟨chars v ++ [], .last first spaces_nil, ?_⟩
          rw [List.append_nil]
          rfl
      | cons w items =>
          obtain ⟨ws, row, eq⟩ := ih others (List.cons_ne_nil _ _)
          refine ⟨chars v ++ [] ++ ',' :: ([] ++ ws),
            .more first spaces_nil spaces_nil row, ?_⟩
          rw [itemRest, eq]
          simp

theorem row_memberChars {members : List (String × Json)}
    (each : ∀ m ∈ members, Spells m.2 (chars m.2)) (some : members ≠ []) :
    ∃ ws, Row (Pair Quoted Spells) members ws ∧ memberChars members = ws ++ ['}'] := by
  induction members with
  | nil => exact absurd rfl some
  | cons m members ih =>
      obtain ⟨first, others⟩ := List.forall_mem_cons.1 each
      have pair : Pair Quoted Spells m (quoted m.1 ++ ([] ++ ':' :: ([] ++ chars m.2))) :=
        .colon (quoted_quoted m.1) spaces_nil spaces_nil first
      rw [memberChars_cons]
      cases members with
      | nil =>
          refine ⟨_, .last pair spaces_nil, ?_⟩
          simp [memberRest]
      | cons m' members =>
          obtain ⟨ws, row, eq⟩ := ih others (List.cons_ne_nil _ _)
          refine ⟨_, .more pair spaces_nil spaces_nil row, ?_⟩
          rw [memberRest, eq]
          simp

/-- The compact text of a value is one of its spellings. -/
theorem spells_chars (v : Json) : Spells v (chars v) := by
  induction v using Json.induction with
  | null => exact .null
  | bool b =>
      cases b with
      | true => exact .yes
      | false => exact .no
  | int i => exact spells_intChars i
  | float x => exact spells_floatChars x
  | str s => exact .str (quoted_quoted s)
  | arr items ih =>
      rw [chars]
      by_cases none : items = []
      · rw [none]
        exact .arr (.none spaces_nil)
      · obtain ⟨ws, row, eq⟩ := row_itemChars ih none
        rw [eq]
        exact .arr (.some spaces_nil row)
  | obj members ih =>
      rw [chars]
      by_cases none : members = []
      · rw [none]
        exact .obj (.none spaces_nil)
      · obtain ⟨ws, row, eq⟩ := row_memberChars ih none
        rw [eq]
        exact .obj (.some spaces_nil row)

end RecordInference.Json
