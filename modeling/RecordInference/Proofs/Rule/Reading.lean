import RecordInference.Proofs.Text.Blank
import RecordInference.Rule.Expr

/-!
# Rules and the blanks around them

Blanks in front of a rule and behind it separate nothing, and none of them opens or closes a quote:
a rule has the same tokens without them (`tokens_trim`), so it is read as the same
(`read_trimmed`).
-/

set_option autoImplicit false

namespace RecordInference.Rule

open Text

/-- Whether no blank ends the quotes that the reader stands between. -/
def Mode.Closed : Mode → Prop
  | quoted quote => isBlank quote = false
  | gap | bare => True

theorem Mode.closed_openMode (c : Char) : (openMode c).Closed := by
  rw [openMode]
  split
  · next quote =>
    rw [Bool.or_eq_true, decide_eq_true_eq, decide_eq_true_eq] at quote
    rcases quote with rfl | rfl
    · exact (by decide : isBlank '"' = false)
    · exact (by decide : isBlank '\'' = false)
  · trivial

theorem tokensFrom_trimStart (cs : List Char) :
    tokensFrom .gap (trimStart cs) = tokensFrom .gap cs := by
  induction cs with
  | nil => rfl
  | cons c rest ih =>
      by_cases blank : isBlank c = true
      · rw [tokensFrom, if_pos blank, ← ih, trimStart, trimStart, List.dropWhile_cons_of_pos blank]
      · rw [trimStart, List.dropWhile_cons_of_neg blank]

/-- Blanks behind a text leave nothing behind, and quotes that are open stay open. -/
theorem tokensFrom_blanks {bs : List Char} (blanks : Blanks bs) {mode : Mode}
    (closed : mode.Closed) : tokensFrom mode bs = tokensFrom mode [] := by
  induction bs generalizing mode with
  | nil => rfl
  | cons b rest ih =>
      obtain ⟨blank, later⟩ := List.forall_mem_cons.1 blanks
      cases mode with
      | gap =>
          have skipped : tokensFrom .gap (b :: rest) = tokensFrom .gap rest := by
            rw [tokensFrom, if_pos blank]
          exact skipped.trans (ih later trivial)
      | bare =>
          have ended : tokensFrom .bare (b :: rest) = tokensFrom .gap rest := by
            rw [tokensFrom, if_pos blank]
          exact ended.trans (ih later trivial)
      | quoted quote =>
          have inside : b ≠ quote := by
            rintro rfl
            exact Bool.false_ne_true (closed.symm.trans blank)
          have open' : tokensFrom (.quoted quote) rest = .error (.unterminatedQuote quote) :=
            ih later closed
          simp only [tokensFrom, if_neg inside, open']
          rfl

theorem tokensFrom_append_blanks {bs : List Char} (blanks : Blanks bs) (cs : List Char)
    (mode : Mode) (closed : mode.Closed) : tokensFrom mode (cs ++ bs) = tokensFrom mode cs := by
  induction cs generalizing mode with
  | nil => exact tokensFrom_blanks blanks closed
  | cons c rest ih =>
      cases mode with
      | gap =>
          rw [List.cons_append, tokensFrom, tokensFrom, ih .gap trivial,
            ih _ (Mode.closed_openMode c)]
      | bare =>
          rw [List.cons_append, tokensFrom, tokensFrom, ih .gap trivial,
            ih .bare trivial]
      | quoted quote =>
          have next : (if c = quote then Mode.bare else .quoted quote).Closed := by
            split
            · trivial
            · exact closed
          rw [List.cons_append, tokensFrom, tokensFrom, ih _ next]

theorem tokens_trim (cs : List Char) : tokens (trim cs) = tokens cs := by
  obtain ⟨bs, blanks, split⟩ := exists_trimEnd_append (trimStart cs)
  have behind := tokensFrom_append_blanks blanks (trimEnd (trimStart cs)) .gap trivial
  rw [split, tokensFrom_trimStart] at behind
  rw [tokens, tokens, trim, behind]

/-- Without the blanks around it a rule is read as the same. -/
theorem read_trimmed (text : String) : read (trimmed text) = read text := by
  rw [read, read, trimmed, String.toList_ofList, tokens_trim]

end RecordInference.Rule
