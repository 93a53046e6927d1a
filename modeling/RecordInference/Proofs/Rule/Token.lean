import RecordInference.Proofs.Outcome
import RecordInference.Proofs.Text.Word
import RecordInference.Rule.Expr

/-!
# Tokens of a rule

A word without blanks that does not open with a quote is a token, and so is a text between two equal
quotes that does not have the quote in it, whatever else stands there (`IsToken.of_solid`,
`IsToken.of_quoted`). The tokens of a text with blanks between such words are the words
(`tokens_spaced`). Every token that opens with a quote has the quote again (`paired_of_tokens`).
-/

set_option autoImplicit false

namespace RecordInference.Rule

open Text

variable {cs w : List Char} {quote : Char}

/-- Whether a character opens a quoted token. -/
def IsQuote (c : Char) : Prop := c = '"' ∨ c = '\''

instance (c : Char) : Decidable (IsQuote c) := inferInstanceAs (Decidable (_ ∨ _))

theorem openMode_of_isQuote (h : IsQuote quote) : openMode quote = .quoted quote :=
  if_pos (by simpa [IsQuote] using h)

theorem openMode_of_not_isQuote {c : Char} (h : ¬ IsQuote c) : openMode c = .bare :=
  if_neg (by simpa [IsQuote] using h)

theorem IsQuote.isBlank (h : IsQuote quote) : isBlank quote = false := by
  rcases h with rfl | rfl
  · decide
  · decide

/-! ### Words that are tokens -/

/-- Whether a text is a token: behind it the reader goes on as inside of a token. -/
def IsToken (w : List Char) : Prop :=
  ∀ cs, tokensFrom .gap (w ++ cs) = (tokensFrom .bare cs).map fun t => ([], (w ++ t.1) :: t.2)

/-- Characters that are not blank stay in the current token. -/
theorem tokensFrom_bare_append (solid : ∀ c ∈ w, isBlank c = false) (cs : List Char) :
    tokensFrom .bare (w ++ cs) = (tokensFrom .bare cs).map fun t => (w ++ t.1, t.2) := by
  induction w with
  | nil =>
      rw [List.nil_append]
      cases tokensFrom .bare cs <;> rfl
  | cons c rest ih =>
      obtain ⟨here, later⟩ := List.forall_mem_cons.1 solid
      rw [List.cons_append, tokensFrom, if_neg (by simp [here]), ih later]
      cases tokensFrom .bare cs <;> rfl

/-- What stands between quotes stays in the current token. -/
theorem tokensFrom_quoted_append (other : quote ∉ w) (cs : List Char) :
    tokensFrom (.quoted quote) (w ++ cs) =
      (tokensFrom (.quoted quote) cs).map fun t => (w ++ t.1, t.2) := by
  induction w with
  | nil =>
      rw [List.nil_append]
      cases tokensFrom (.quoted quote) cs <;> rfl
  | cons c rest ih =>
      have here : c ≠ quote := (List.ne_of_not_mem_cons other).symm
      rw [List.cons_append, tokensFrom, if_neg here, ih (List.not_mem_of_not_mem_cons other)]
      cases tokensFrom (.quoted quote) cs <;> rfl

theorem IsToken.of_solid (solid : Solid w) (bare : ∀ c ∈ w.head?, ¬ IsQuote c) : IsToken w := by
  intro cs
  obtain ⟨c, rest, rfl⟩ := List.exists_cons_of_ne_nil solid.1
  obtain ⟨here, later⟩ := List.forall_mem_cons.1 solid.2
  rw [List.cons_append, tokensFrom, if_neg (by simp [here]), openMode_of_not_isQuote (bare c rfl),
    tokensFrom_bare_append later]
  cases tokensFrom .bare cs <;> rfl

/-- A text between two quotes is a token if it does not have the quote in it. -/
theorem IsToken.of_quoted (opens : IsQuote quote) (other : quote ∉ w) :
    IsToken (quote :: w ++ [quote]) := by
  intro cs
  have closing : tokensFrom (.quoted quote) (quote :: cs) =
      (tokensFrom .bare cs).map fun t => (quote :: t.1, t.2) := by
    rw [tokensFrom, if_pos rfl]
    cases tokensFrom .bare cs <;> rfl
  rw [List.cons_append, List.cons_append, List.append_assoc, List.singleton_append, tokensFrom,
    if_neg (by simp [opens.isBlank]), openMode_of_isQuote opens, tokensFrom_quoted_append other,
    closing]
  cases tokensFrom .bare cs with
  | error e => rfl
  | ok t => simp [Except.map, bind, Except.bind, pure, Except.pure]

theorem tokensFrom_blanks_append {bs : List Char} (blank : Blanks bs) (cs : List Char) :
    tokensFrom .gap (bs ++ cs) = tokensFrom .gap cs := by
  induction bs with
  | nil => rfl
  | cons b rest ih =>
      obtain ⟨here, later⟩ := List.forall_mem_cons.1 blank
      rw [List.cons_append, tokensFrom, if_pos here, ih later]

/-- Blanks end the current token. -/
theorem tokensFrom_bare_blanks {bs : List Char} (blank : Blanks bs) (more : bs ≠ [])
    (cs : List Char) : tokensFrom .bare (bs ++ cs) = tokensFrom .gap cs := by
  obtain ⟨b, rest, rfl⟩ := List.exists_cons_of_ne_nil more
  obtain ⟨here, later⟩ := List.forall_mem_cons.1 blank
  rw [List.cons_append, tokensFrom, if_pos here, tokensFrom_blanks_append later]

/-- The tokens of a text are its words. -/
theorem tokens_spaced {words : List (List Char)} (h : Spaced words cs)
    (token : ∀ w ∈ words, IsToken w) : tokens cs = .ok words := by
  have all : tokensFrom .gap cs = .ok ([], words) := by
    induction h with
    | one w =>
        have alone := token w (List.mem_singleton_self w) []
        rw [List.append_nil] at alone
        rw [alone]
        show Except.ok ([], [w ++ []]) = _
        rw [List.append_nil]
    | cons w blank more rest ih =>
        obtain ⟨here, later⟩ := List.forall_mem_cons.1 token
        rw [List.append_assoc, here, tokensFrom_bare_blanks blank more, ih later]
        show Except.ok ([], (w ++ []) :: _) = _
        rw [List.append_nil]
  rw [tokens, all]
  rfl

/-! ### Quotes come in pairs -/

/-- Whether the quote that a token opens with, if there is one, comes again in the token. -/
def Paired (token : List Char) : Prop :=
  ∀ quote rest, IsQuote quote → token = quote :: rest → quote ∈ rest

/-- What is read behind an open quote has the quote in it. -/
def Mode.Completed : Mode → List Char → Prop
  | .quoted quote, token => quote ∈ token
  | .gap, _ | .bare, _ => True

theorem paired_of_tokensFrom {mode : Mode} {t : List Char × List (List Char)}
    (h : tokensFrom mode cs = .ok t) : mode.Completed t.1 ∧ ∀ w ∈ t.2, Paired w := by
  induction cs generalizing mode t with
  | nil =>
      cases mode with
      | quoted quote => cases h
      | gap | bare =>
          cases h
          exact ⟨trivial, nofun⟩
  | cons c rest ih =>
      cases mode with
      | gap =>
          rw [tokensFrom] at h
          split at h
          · exact ⟨trivial, (ih h).2⟩
          · obtain ⟨u, read, same⟩ := Except.bind_eq_ok_iff.1 h
            cases same
            obtain ⟨completed, paired⟩ := ih read
            refine ⟨trivial, List.forall_mem_cons.2 ⟨?_, paired⟩⟩
            intro quote inside opens same
            cases same
            -- the token opens with a quote, so the reader looked for the quote behind it
            rw [openMode_of_isQuote opens] at completed
            exact completed
      | bare =>
          rw [tokensFrom] at h
          split at h
          · exact ⟨trivial, (ih h).2⟩
          · obtain ⟨u, read, same⟩ := Except.bind_eq_ok_iff.1 h
            cases same
            exact ⟨trivial, (ih read).2⟩
      | quoted quote =>
          rw [tokensFrom] at h
          obtain ⟨u, read, same⟩ := Except.bind_eq_ok_iff.1 h
          cases same
          obtain ⟨completed, paired⟩ := ih read
          refine ⟨?_, paired⟩
          by_cases closing : c = quote
          · exact closing ▸ List.mem_cons_self
          · rw [if_neg closing] at completed
            exact List.mem_cons_of_mem c completed

/-- Every token that opens with a quote has the quote again. -/
theorem paired_of_tokens {ts : List (List Char)} (h : tokens cs = .ok ts) : ∀ t ∈ ts, Paired t := by
  obtain ⟨t, read, rfl⟩ := Except.map_eq_ok_iff.1 h
  exact (paired_of_tokensFrom read).2

end RecordInference.Rule
