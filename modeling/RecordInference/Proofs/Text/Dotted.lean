import RecordInference.Proofs.Text.Line
import RecordInference.Proofs.Text.Word

/-!
# Dotted sequences of identifiers

A path is written as identifiers with dots between them (`Dotted`). That is what the pieces between
the dots of a text tell (`dotted_iff`). Such a text is one word of letters, digits, underscores and
dots, so it has no blanks, quotes or braces.
-/

set_option autoImplicit false

namespace RecordInference.Text

variable {cs : List Char}

/-- Whether a text is a sequence of identifiers, at least one, with dots between them. -/
def Dotted (cs : List Char) : Prop :=
  ∃ names : List (List Char), names ≠ [] ∧ (∀ name ∈ names, isIdentifier name = true) ∧
    cs = ['.'].intercalate names

theorem not_mem_of_isIdentifier {name : List Char} (h : isIdentifier name = true) : '.' ∉ name := by
  intro dot
  cases name with
  | nil => cases dot
  | cons c rest =>
      simp only [isIdentifier, Bool.and_eq_true, List.all_eq_true] at h
      rcases List.mem_cons.1 dot with rfl | later
      · exact absurd h.1 (by decide)
      · exact absurd (h.2 '.' later) (by decide)

/-- A text is a dotted sequence exactly if its pieces between the dots are identifiers. -/
theorem dotted_iff : Dotted cs ↔ ∀ name ∈ splitOn '.' cs, isIdentifier name = true := by
  constructor
  · rintro ⟨names, some, identifiers, rfl⟩
    have whole : ∀ name ∈ names, '.' ∉ name := by
      intro name member
      exact not_mem_of_isIdentifier (identifiers name member)
    rw [splitOn_intercalate some whole]
    exact identifiers
  · intro identifiers
    exact ⟨splitOn '.' cs, splitOn_ne_nil '.' cs, identifiers, (intercalate_splitOn '.' cs).symm⟩

theorem Dotted.ne_nil (h : Dotted cs) : cs ≠ [] := by
  rintro rfl
  have empty := dotted_iff.1 h [] List.mem_cons_self
  cases empty

theorem Dotted.isNameChar (h : Dotted cs) : ∀ c ∈ cs, isNameChar c = true := by
  obtain ⟨names, -, identifiers, rfl⟩ := h
  intro c member
  rcases mem_intercalate member with rfl | ⟨name, there, inside⟩
  · decide
  · exact (isNameChar_of_isIdentifier (identifiers name there)).2 c inside

theorem Dotted.solid (h : Dotted cs) : Solid cs :=
  ⟨h.ne_nil, fun c member => isBlank_of_isNameChar (h.isNameChar c member)⟩

/-- A character that stands in no name stands in no dotted sequence. -/
theorem Dotted.not_mem (h : Dotted cs) {c : Char} (other : Text.isNameChar c = false) : c ∉ cs := by
  intro member
  rw [h.isNameChar c member] at other
  cases other

end RecordInference.Text
