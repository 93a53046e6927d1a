import RecordInference.Proofs.Text.Blank
import RecordInference.Text.Word

/-!
# Words of a line

Keywords, identifiers and resource names have no blanks in them (`Solid.of_isWord`,
`Solid.of_isIdentifier`, `Solid.of_isResourceName`). `Spaced words cs` says that a text has the given
words with blanks between them, as many as one likes: its first word is the first of them, and what
follows that has the others (`firstWord_spaced`).
-/

set_option autoImplicit false

namespace RecordInference.Text

variable {cs w : List Char}

instance (cs : List Char) : Decidable (Blanks cs) :=
  decidable_of_iff (cs.all isBlank = true) List.all_eq_true

instance (cs : List Char) : Decidable (Trimmed cs) :=
  decidable_of_iff ((!cs.isEmpty && trim cs == cs) = true) (by simp [Trimmed])

instance (cs : List Char) : Decidable (Solid cs) :=
  decidable_of_iff ((!cs.isEmpty && cs.all fun c => !isBlank c) = true) (by simp [Solid])

/-! ### Characters of names -/

/-- Whether a character may stand in an identifier or a resource name. -/
def isNameChar (c : Char) : Bool := c.isAlphanum || c == '_' || c == '-' || c == '.'

theorem toNat_of_isNameChar {c : Char} (h : isNameChar c = true) :
    45 ≤ c.toNat ∧ c.toNat ≤ 122 ∧ c.toNat ≠ 58 ∧ c.toNat ≠ 91 ∧ c.toNat ≠ 93 := by
  have ofUpper : c.isUpper = true → 65 ≤ c.toNat ∧ c.toNat ≤ 90 := of_decide_eq_true
  have ofLower : c.isLower = true → 97 ≤ c.toNat ∧ c.toNat ≤ 122 := fun lower =>
    (Bool.and_eq_true_iff.1 lower).imp of_decide_eq_true of_decide_eq_true
  have ofAlpha : c.isAlpha = true → c.isUpper = true ∨ c.isLower = true := Bool.or_eq_true_iff.1
  have ofDigit : c.isDigit = true → 48 ≤ c.toNat ∧ c.toNat ≤ 57 := Char.isDigit_iff_toNat.1
  simp only [isNameChar, Char.isAlphanum, Bool.or_eq_true, beq_iff_eq] at h
  rcases h with (((alpha | digit) | rfl) | rfl) | rfl
  · rcases ofAlpha alpha with upper | lower
    · have := ofUpper upper
      omega
    · have := ofLower lower
      omega
  · have := ofDigit digit
    omega
  · decide
  · decide
  · decide

theorem isBlank_of_isNameChar {c : Char} (h : isNameChar c = true) : isBlank c = false := by
  obtain ⟨low, high, -⟩ := toNat_of_isNameChar h
  simp [isBlank, blankRanges]
  omega

/-- A name has none of the characters that mean something to a declaration. -/
theorem ne_of_isNameChar {c : Char} (h : isNameChar c = true) : c ≠ ':' ∧ c ≠ '[' ∧ c ≠ ']' := by
  obtain ⟨-, -, colon, opening, closing⟩ := toNat_of_isNameChar h
  refine ⟨?_, ?_, ?_⟩
  · rintro rfl
    exact colon rfl
  · rintro rfl
    exact opening rfl
  · rintro rfl
    exact closing rfl

theorem isNameChar_of_isIdentifier (h : isIdentifier cs = true) :
    cs ≠ [] ∧ ∀ c ∈ cs, isNameChar c = true := by
  cases cs with
  | nil => cases h
  | cons c rest =>
      simp only [isIdentifier, Bool.and_eq_true, List.all_eq_true] at h
      obtain ⟨first, others⟩ := h
      refine ⟨List.cons_ne_nil c rest, List.forall_mem_cons.2 ⟨?_, fun c member => ?_⟩⟩
      · simp only [opensIdentifier, Bool.or_eq_true] at first
        rcases first with letter | underscore
        · simp [isNameChar, Char.isAlphanum, letter]
        · simp [isNameChar, underscore]
      · have name := others c member
        simp only [continuesIdentifier, Bool.or_eq_true] at name
        rcases name with letter | underscore
        · simp [isNameChar, letter]
        · simp [isNameChar, underscore]

theorem isNameChar_of_isResourceName (h : isResourceName cs = true) :
    cs ≠ [] ∧ ∀ c ∈ cs, isNameChar c = true := by
  simp only [isResourceName, Bool.and_eq_true, Bool.not_eq_true', List.isEmpty_eq_false_iff,
    List.all_eq_true] at h
  exact h

theorem Solid.of_isIdentifier (h : isIdentifier cs = true) : Solid cs :=
  ⟨(isNameChar_of_isIdentifier h).1, fun c member =>
    isBlank_of_isNameChar ((isNameChar_of_isIdentifier h).2 c member)⟩

theorem Solid.of_isResourceName (h : isResourceName cs = true) : Solid cs :=
  ⟨(isNameChar_of_isResourceName h).1, fun c member =>
    isBlank_of_isNameChar ((isNameChar_of_isResourceName h).2 c member)⟩

/-! ### Keywords -/

theorem toUpper_of_isBlank {c : Char} (h : isBlank c = true) : c.toUpper = c := by
  refine dif_neg ?_
  rintro ⟨low, high⟩
  simp only [UInt32.le_iff_toNat_le, Char.reduceVal, UInt32.reduceToNat, Char.toNat_val] at low high
  simp [isBlank, blankRanges] at h
  omega

/-- A keyword has no blanks, in whatever case it is written. -/
theorem Solid.of_isWord {keyword : String} (h : isWord keyword w = true)
    (solid : Solid keyword.toList) : Solid w := by
  have same : w.map Char.toUpper = keyword.toList := by simpa [isWord, upper] using h
  refine ⟨?_, fun c member => ?_⟩
  · rintro rfl
    exact solid.1 same.symm
  · by_contra blank
    rw [Bool.not_eq_false] at blank
    have inside : c.toUpper ∈ keyword.toList := same ▸ List.mem_map_of_mem member
    have final := solid.2 _ inside
    rw [toUpper_of_isBlank blank, blank] at final
    cases final

/-- Keywords in different cases are the same word. -/
theorem isWord_of_isWord {keyword : String} (h : isWord keyword w = true) (other : String) :
    isWord other w = (keyword.toList == other.toList) := by
  have same : upper w = keyword.toList := by simpa [isWord] using h
  rw [isWord, same]

/-! ### Words with blanks between them -/

/-- The text has the words, with blanks between them. -/
inductive Spaced : List (List Char) → List Char → Prop
  | one (w : List Char) : Spaced [w] w
  | cons (w : List Char) {gap : List Char} {words : List (List Char)} {cs : List Char} :
      Blanks gap → gap ≠ [] → Spaced words cs → Spaced (w :: words) (w ++ gap ++ cs)

/-- A text whose words have no blanks around them has none either. -/
theorem Spaced.trimmed {words : List (List Char)} (h : Spaced words cs)
    (trimmed : ∀ w ∈ words, Trimmed w) : Trimmed cs := by
  induction h with
  | one w => exact trimmed w (List.mem_singleton_self w)
  | cons w blank more rest ih =>
      obtain ⟨first, others⟩ := List.forall_mem_cons.1 trimmed
      exact (ih others).append first _

/-- The first word of a text is the first of its words, and the others are left. -/
theorem firstWord_spaced {w' : List Char} {words : List (List Char)}
    (h : Spaced (w :: w' :: words) cs) (solid : Solid w)
    (trimmed : ∀ v ∈ w' :: words, Trimmed v) :
    ∃ rest, firstWord cs = (w, rest) ∧ Spaced (w' :: words) rest := by
  cases h with
  | @cons _ gap _ rest blank more spaced =>
      refine ⟨rest, ?_, spaced⟩
      rw [firstWord_append solid blank more, (spaced.trimmed trimmed).trimStart_eq]

end RecordInference.Text
