import Mathlib.Data.List.Basic
import Mathlib.Data.List.TakeWhile
import RecordInference.Text.Line

/-!
# Blanks around texts and words

Blanks in front of a text and behind it do not change what is left after trimming
(`trim_blanks_append`, `trim_append_blanks`), and blanks behind it do not change its indentation
(`indent_append_blanks`). A text is trimmed if it opens with a character that is not blank and ends
with one (`Trimmed.append`). Its first word reaches up to the first blank (`firstWord_append`).
-/

set_option autoImplicit false

namespace RecordInference.Text

/-- The text has only blanks. -/
def Blanks (cs : List Char) : Prop := ∀ c ∈ cs, isBlank c = true

/-- The text has characters, and none of them is blank. -/
def Solid (cs : List Char) : Prop := cs ≠ [] ∧ ∀ c ∈ cs, isBlank c = false

/-- The text has characters, and no blanks around them. -/
def Trimmed (cs : List Char) : Prop := cs ≠ [] ∧ trim cs = cs

variable {bs cs w : List Char}

/-! ### Trimming at one end -/

theorem trimStart_eq_nil_iff : trimStart cs = [] ↔ Blanks cs := List.dropWhile_eq_nil_iff

theorem trimStart_blanks_append (h : Blanks bs) (cs : List Char) :
    trimStart (bs ++ cs) = trimStart cs := List.dropWhile_append_of_pos h

theorem trimStart_append (h : ¬ Blanks cs) (bs : List Char) :
    trimStart (cs ++ bs) = trimStart cs ++ bs := by
  have more : ¬ (cs.dropWhile isBlank).isEmpty = true := by
    rw [List.isEmpty_iff]
    exact fun none => h (trimStart_eq_nil_iff.1 none)
  rw [trimStart, List.dropWhile_append, if_neg more, trimStart]

theorem trimEnd_eq_nil_iff : trimEnd cs = [] ↔ Blanks cs := by
  induction cs with
  | nil => exact ⟨fun _ => List.forall_mem_nil _, fun _ => rfl⟩
  | cons c rest ih =>
      have parts : Blanks (c :: rest) ↔ isBlank c = true ∧ Blanks rest := List.forall_mem_cons
      simp only [trimEnd]
      split
      · next none =>
        -- only the first character can be left
        simp [parts, ih.1 none]
      · next more =>
        have more : ¬ Blanks rest := fun blank => more (ih.2 blank)
        simp [parts, more]

theorem trimEnd_append_blanks (h : Blanks bs) (cs : List Char) :
    trimEnd (cs ++ bs) = trimEnd cs := by
  induction cs with
  | nil => exact trimEnd_eq_nil_iff.2 h
  | cons c rest ih => simp only [List.cons_append, trimEnd, ih]

theorem trimEnd_append (h : ¬ Blanks cs) (bs : List Char) :
    trimEnd (bs ++ cs) = bs ++ trimEnd cs := by
  induction bs with
  | nil => rfl
  | cons b rest ih =>
      simp only [List.cons_append, trimEnd, ih]
      split
      · next none => exact absurd (trimEnd_eq_nil_iff.1 (List.append_eq_nil_iff.1 none).2) h
      · rfl

/-- What trimming takes off behind a text are blanks. -/
theorem exists_trimEnd_append (cs : List Char) : ∃ bs, Blanks bs ∧ trimEnd cs ++ bs = cs := by
  induction cs with
  | nil => exact ⟨[], List.forall_mem_nil _, rfl⟩
  | cons c rest ih =>
      obtain ⟨bs, blanks, split⟩ := ih
      simp only [trimEnd]
      split
      · next none =>
        rw [none] at split
        split
        · next blank => exact ⟨c :: rest, List.forall_mem_cons.2 ⟨blank, split ▸ blanks⟩, rfl⟩
        · exact ⟨bs, blanks, congrArg (c :: ·) split⟩
      · exact ⟨bs, blanks, congrArg (c :: ·) split⟩

theorem isPrefix_trimEnd (cs : List Char) : trimEnd cs <+: cs := by
  obtain ⟨bs, -, split⟩ := exists_trimEnd_append cs
  exact ⟨bs, split⟩

/-! ### Trimming at both ends -/

theorem trim_eq_nil_iff : trim cs = [] ↔ Blanks cs := by
  rw [trim, trimEnd_eq_nil_iff]
  constructor
  · intro blank
    rw [← trimStart_eq_nil_iff]
    by_contra more
    -- what is left in front is not blank
    obtain ⟨c, rest, eq⟩ := List.exists_cons_of_ne_nil more
    have first := List.head?_dropWhile_not isBlank cs
    rw [← trimStart, eq] at first
    exact Bool.false_ne_true (first.symm.trans (blank c (eq ▸ List.mem_cons_self)))
  · intro blank
    rw [trimStart_eq_nil_iff.2 blank]
    exact List.forall_mem_nil _

theorem trim_blanks_append (h : Blanks bs) (cs : List Char) : trim (bs ++ cs) = trim cs := by
  rw [trim, trimStart_blanks_append h, trim]

theorem trim_append_blanks (h : Blanks bs) (cs : List Char) : trim (cs ++ bs) = trim cs := by
  by_cases blank : Blanks cs
  · rw [trim_eq_nil_iff.2 blank, trim_eq_nil_iff]
    exact List.forall_mem_append.2 ⟨blank, h⟩
  · rw [trim, trimStart_append blank, trimEnd_append_blanks h, trim]

/-- Blanks behind a text that is not blank do not change its indentation. -/
theorem indent_append_blanks (h : ¬ Blanks cs) (bs : List Char) :
    indent (cs ++ bs) = indent cs := by
  have inside : ¬ (cs.takeWhile isBlank).length = cs.length := by
    intro all
    refine h (List.takeWhile_eq_self_iff.1 ?_)
    exact (List.takeWhile_prefix isBlank).eq_of_length all
  rw [indent, List.takeWhile_append, if_neg inside, indent]

/-- What trimming takes off around a text are blanks. -/
theorem exists_append_trim (cs : List Char) :
    ∃ bs bs', Blanks bs ∧ Blanks bs' ∧ bs ++ trim cs ++ bs' = cs := by
  obtain ⟨bs', blank', back⟩ := exists_trimEnd_append (trimStart cs)
  refine ⟨cs.takeWhile isBlank, bs', fun c member => List.mem_takeWhile_imp member, blank', ?_⟩
  rw [trim, List.append_assoc, back]
  exact List.takeWhile_append_dropWhile

theorem trim_trim (cs : List Char) : trim (trim cs) = trim cs := by
  obtain ⟨bs, bs', blank, blank', split⟩ := exists_append_trim cs
  conv_rhs => rw [← split, trim_append_blanks blank', trim_blanks_append blank]

theorem trim_subset (cs : List Char) : trim cs ⊆ cs := by
  intro c member
  obtain ⟨bs, bs', -, -, split⟩ := exists_append_trim cs
  rw [← split]
  exact List.mem_append_left _ (List.mem_append_right _ member)

/-! ### Trimmed texts -/

theorem Solid.trimStart_append (h : Solid w) (cs : List Char) : trimStart (w ++ cs) = w ++ cs := by
  obtain ⟨c, rest, rfl⟩ := List.exists_cons_of_ne_nil h.1
  have first := h.2 c List.mem_cons_self
  exact List.dropWhile_cons_of_neg (by simp [first])

theorem Trimmed.of_trim (h : trim cs ≠ []) : Trimmed (trim cs) := ⟨h, trim_trim cs⟩

theorem Trimmed.not_blanks (h : Trimmed cs) : ¬ Blanks cs :=
  fun blank => h.1 (h.2.symm.trans (trim_eq_nil_iff.2 blank))

theorem Trimmed.trimStart_eq (h : Trimmed cs) : trimStart cs = cs := by
  have inside := (isPrefix_trimEnd (trimStart cs)).length_le
  rw [← trim, h.2] at inside
  exact (List.dropWhile_suffix isBlank).eq_of_length_le inside

theorem Trimmed.trimEnd_eq (h : Trimmed cs) : trimEnd cs = cs := by
  have both := h.2
  rwa [trim, h.trimStart_eq] at both

theorem Trimmed.trimStart_append (h : Trimmed cs) (bs : List Char) :
    trimStart (cs ++ bs) = cs ++ bs := by
  rw [Text.trimStart_append h.not_blanks, h.trimStart_eq]

/-- A text that opens with a trimmed text and ends with one is trimmed. -/
theorem Trimmed.append (h : Trimmed cs) (opening : Trimmed w) (bs : List Char) :
    Trimmed (w ++ bs ++ cs) := by
  refine ⟨by simp [h.1], ?_⟩
  rw [List.append_assoc, trim, opening.trimStart_append, ← List.append_assoc,
    trimEnd_append h.not_blanks, h.trimEnd_eq]

theorem Solid.trimmed (h : Solid w) : Trimmed w := by
  have start := h.trimStart_append []
  rw [List.append_nil] at start
  refine ⟨h.1, ?_⟩
  rcases List.eq_nil_or_concat' w with rfl | ⟨front, last, rfl⟩
  · rfl
  · have final : isBlank last = false := h.2 last (by simp)
    have kept : ¬ Blanks [last] := by simp [Blanks, final]
    rw [trim, start, trimEnd_append kept]
    simp [trimEnd, final]

/-! ### Words -/

/-- The first word of a text and the rest have no characters of their own. -/
theorem firstWord_subset (cs : List Char) : (firstWord cs).1 ⊆ cs ∧ (firstWord cs).2 ⊆ cs := by
  have start : trimStart cs ⊆ cs := (List.dropWhile_suffix isBlank).subset
  constructor
  · exact List.Subset.trans (List.takeWhile_prefix _).subset start
  · have rest := List.Subset.trans (List.dropWhile_suffix fun c => !isBlank c).subset start
    exact List.Subset.trans (List.dropWhile_suffix isBlank).subset rest

/-- A word ends at the blanks behind it. -/
theorem firstWord_append (word : Solid w) (gap : Blanks bs) (more : bs ≠ []) (cs : List Char) :
    firstWord (w ++ bs ++ cs) = (w, trimStart cs) := by
  obtain ⟨b, rest, rfl⟩ := List.exists_cons_of_ne_nil more
  have inside : ∀ c ∈ w, (fun c => !isBlank c) c = true := by simpa using word.2
  have stop : ¬ (fun c => !isBlank c) b = true := by simp [gap b List.mem_cons_self]
  rw [List.append_assoc, firstWord, word.trimStart_append, List.takeWhile_append_of_pos inside,
    List.dropWhile_append_of_pos inside, List.cons_append,
    List.takeWhile_cons_of_neg (p := fun c => !isBlank c) stop,
    List.dropWhile_cons_of_neg (p := fun c => !isBlank c) stop, List.append_nil, ← List.cons_append,
    trimStart_blanks_append gap]

end RecordInference.Text
