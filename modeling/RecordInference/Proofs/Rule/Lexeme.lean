import RecordInference.Proofs.Rule.Token

/-!
# Every character of a rule

A text falls into blanks and tokens. A token looks as a token should (`Lexeme`), and it goes up to a
blank or to the end of the text (`Cut`). Only a quote that opens a token and does not come again
keeps a text from being cut up to its end (`exists_cut`). Reading agrees with the cutting, piece by
piece (`tokens_of_cut`), so no character is lost: the tokens of a text are the ones that it can be
cut into, and an error is about a quote that is not closed (`tokens_iff_cut`).
-/

set_option autoImplicit false

namespace RecordInference.Rule

open Text

variable {cs rest w : List Char} {quote : Char} {ts : List (List Char)}

/-! ### Cutting a text -/

/-- What a token looks like: it has no blanks or, if it opens with a quote, none behind the next
such quote. -/
inductive Lexeme : List Char → Prop
  | bare {w : List Char} (solid : Solid w) (opens : ∀ c ∈ w.head?, ¬ IsQuote c) : Lexeme w
  | quoted {quote : Char} {inner tail : List Char} (opens : IsQuote quote) (next : quote ∉ inner)
      (solid : ∀ c ∈ tail, isBlank c = false) : Lexeme (quote :: inner ++ quote :: tail)

theorem Lexeme.ne_nil (h : Lexeme w) : w ≠ [] := by
  cases h with
  | bare solid opens => exact solid.1
  | quoted opens next solid => exact List.cons_ne_nil _ _

/-- Whether a text is over or goes on with a blank. -/
def AtGap (cs : List Char) : Prop := ∀ c ∈ cs.head?, isBlank c = true

/-- The text `cs` has the tokens `ts` with blanks around them, and then `rest`. A token goes up to a
blank or to the end of the text. -/
inductive Cut (rest : List Char) : List Char → List (List Char) → Prop
  | done : Cut rest rest []
  | blank {c : Char} {cs : List Char} {ts : List (List Char)} :
      isBlank c = true → Cut rest cs ts → Cut rest (c :: cs) ts
  | token {w cs : List Char} {ts : List (List Char)} :
      Lexeme w → AtGap cs → Cut rest cs ts → Cut rest (w ++ cs) (w :: ts)

/-- Whether a token of the text opens with the quote, and the quote does not come again. -/
def Unclosed (quote : Char) (cs : List Char) : Prop :=
  ∃ rest ts, Cut (quote :: rest) cs ts ∧ IsQuote quote ∧ quote ∉ rest

/-- A text goes on without blanks up to the next gap. -/
theorem exists_gap (cs : List Char) :
    ∃ w rest, cs = w ++ rest ∧ (∀ c ∈ w, isBlank c = false) ∧ AtGap rest := by
  refine ⟨cs.takeWhile (!isBlank ·), cs.dropWhile (!isBlank ·),
    List.takeWhile_append_dropWhile.symm, fun c member => ?_, fun c first => ?_⟩
  · simpa using List.mem_takeWhile_imp member
  · have stop := List.head?_dropWhile_not (!isBlank ·) cs
    rw [Option.mem_def.1 first] at stop
    simpa using stop

/-- A text that does not open with a blank opens with a token, or with a quote that does not come
again. -/
theorem exists_lexeme {c : Char} (solid : isBlank c = false) (cs : List Char) :
    (∃ w rest, c :: cs = w ++ rest ∧ Lexeme w ∧ AtGap rest) ∨ IsQuote c ∧ c ∉ cs := by
  by_cases opens : IsQuote c
  · by_cases again : c ∈ cs
    · obtain ⟨inner, behind, rfl, next⟩ := List.eq_append_cons_of_mem again
      obtain ⟨tail, rest, rfl, plain, gap⟩ := exists_gap behind
      exact .inl ⟨c :: inner ++ c :: tail, rest, by simp, .quoted opens next plain, gap⟩
    · exact .inr ⟨opens, again⟩
  · obtain ⟨w, rest, rfl, plain, gap⟩ := exists_gap cs
    have whole : Solid (c :: w) := ⟨List.cons_ne_nil c w, List.forall_mem_cons.2 ⟨solid, plain⟩⟩
    exact .inl ⟨c :: w, rest, rfl, .bare whole (by simpa using opens), gap⟩

/-- A text can be cut up to its end, or a quote in it is not closed. -/
theorem exists_cut (cs : List Char) : (∃ ts, Cut [] cs ts) ∨ ∃ quote, Unclosed quote cs := by
  -- the text gets shorter by a blank or by a token
  induction size : cs.length using Nat.strong_induction_on generalizing cs with
  | _ n ih =>
      subst size
      cases cs with
      | nil => exact .inl ⟨[], .done⟩
      | cons c rest =>
          cases blank : isBlank c with
          | true =>
              rcases ih rest.length (Nat.lt_succ_self _) rest rfl with
                ⟨ts, cut⟩ | ⟨quote, last, ts, cut, never⟩
              · exact .inl ⟨ts, .blank blank cut⟩
              · exact .inr ⟨quote, last, ts, .blank blank cut, never⟩
          | false =>
              rcases exists_lexeme blank rest with ⟨w, later, split, lexeme, gap⟩ | never
              · rw [split] at ih ⊢
                have shorter : later.length < (w ++ later).length := by
                  have more := List.length_pos_of_ne_nil lexeme.ne_nil
                  rw [List.length_append]
                  omega
                rcases ih later.length shorter later rfl with
                  ⟨ts, cut⟩ | ⟨quote, last, ts, cut, never⟩
                · exact .inl ⟨w :: ts, .token lexeme gap cut⟩
                · exact .inr ⟨quote, last, w :: ts, .token lexeme gap cut, never⟩
              · exact .inr ⟨c, rest, [], .done, never⟩

/-! ### Reading what was cut -/

theorem IsToken.append {tail : List Char} (token : IsToken w)
    (solid : ∀ c ∈ tail, isBlank c = false) : IsToken (w ++ tail) := by
  intro cs
  rw [List.append_assoc, token, tokensFrom_bare_append solid]
  cases tokensFrom .bare cs with
  | error e => rfl
  | ok t => simp [Except.map]

theorem Lexeme.isToken (h : Lexeme w) : IsToken w := by
  cases h with
  | bare solid opens => exact .of_solid solid opens
  | quoted opens next solid =>
      have both := (IsToken.of_quoted opens next).append solid
      rwa [List.append_assoc, List.singleton_append] at both

/-- Between two tokens nothing of the current one is left to be read. -/
theorem tokensFrom_gap (cs : List Char) :
    tokensFrom .gap cs = (tokens cs).map fun ts => ([], ts) := by
  rw [tokens]
  induction cs with
  | nil => rfl
  | cons c rest ih =>
      rw [tokensFrom]
      split
      · exact ih
      · cases tokensFrom (openMode c) rest <;> rfl

theorem tokens_cons_of_isBlank {c : Char} (blank : isBlank c = true) (cs : List Char) :
    tokens (c :: cs) = tokens cs := by
  rw [tokens, tokensFrom, if_pos blank, tokens]

/-- At a gap the current token is over. -/
theorem tokensFrom_bare_of_atGap (gap : AtGap cs) : tokensFrom .bare cs = tokensFrom .gap cs := by
  cases cs with
  | nil => rfl
  | cons c rest => rw [tokensFrom, tokensFrom, if_pos (gap c rfl), if_pos (gap c rfl)]

theorem tokens_append (token : IsToken w) (gap : AtGap cs) :
    tokens (w ++ cs) = (tokens cs).map (w :: ·) := by
  rw [tokens, token, tokensFrom_bare_of_atGap gap, tokensFrom_gap]
  cases tokens cs with
  | error e => rfl
  | ok ts => simp [Except.map]

/-- A quote that opens a token and does not come again is reported. -/
theorem tokens_of_not_mem (opens : IsQuote quote) (never : quote ∉ rest) :
    tokens (quote :: rest) = .error (.unterminatedQuote quote) := by
  have left := tokensFrom_quoted_append never []
  rw [List.append_nil] at left
  rw [tokens, tokensFrom, if_neg (by simp [opens.isBlank]), openMode_of_isQuote opens, left]
  -- at the end of the text the quote is still open
  rfl

/-- The tokens of a text that was cut are those that it was cut into, and then those of the rest. -/
theorem tokens_of_cut (h : Cut rest cs ts) : tokens cs = (tokens rest).map (ts ++ ·) := by
  induction h with
  | done => cases tokens rest <;> rfl
  | blank here later ih => rw [tokens_cons_of_isBlank here, ih]
  | token lexeme gap later ih =>
      rw [tokens_append lexeme.isToken gap, ih]
      cases tokens rest <;> rfl

theorem tokens_of_cut_nil (h : Cut [] cs ts) : tokens cs = .ok ts := by
  rw [tokens_of_cut h]
  exact congrArg Except.ok (List.append_nil ts)

theorem tokens_of_unclosed (h : Unclosed quote cs) :
    tokens cs = .error (.unterminatedQuote quote) := by
  obtain ⟨rest, ts, cut, opens, never⟩ := h
  rw [tokens_of_cut cut, tokens_of_not_mem opens never]
  rfl

/-- A text cannot be read exactly if a token of it opens with a quote that does not come again, and
the fault names that quote. Otherwise its tokens are the ones that the text can be cut into: every
character outside of them is blank, and a blank in one of them stands between the quote that it
opens with and the next such quote. -/
theorem tokens_iff_cut (cs : List Char) :
    (∀ fault, tokens cs = .error fault ↔
      ∃ quote, fault = .unterminatedQuote quote ∧ Unclosed quote cs) ∧
    ∀ ts, tokens cs = .ok ts ↔ Cut [] cs ts := by
  refine ⟨fun fault => ⟨fun read => ?_, ?_⟩, fun ts => ⟨fun read => ?_, tokens_of_cut_nil⟩⟩
  · rcases exists_cut cs with ⟨ts, cut⟩ | ⟨quote, unclosed⟩
    · cases read.symm.trans (tokens_of_cut_nil cut)
    · exact ⟨quote, Except.error.inj (read.symm.trans (tokens_of_unclosed unclosed)), unclosed⟩
  · rintro ⟨quote, rfl, unclosed⟩
    exact tokens_of_unclosed unclosed
  · rcases exists_cut cs with ⟨ts', cut⟩ | ⟨quote, unclosed⟩
    · cases read.symm.trans (tokens_of_cut_nil cut)
      exact cut
    · cases read.symm.trans (tokens_of_unclosed unclosed)

/-- A quote inside of a token opens nothing, and a token goes on behind its closing quote. -/
example : tokens "o'clock IS \"a  'b\"c ".toList =
    .ok ["o'clock".toList, "IS".toList, "\"a  'b\"c".toList] := rfl

end RecordInference.Rule
