import RecordInference.Proofs.Rule.Chain
import RecordInference.Proofs.Rule.Token

/-!
# Quotes around a literal

A literal stands for what is between its quotes if it is one token that ends where the quote that it
opens with comes again, and for itself otherwise (`StandsFor`). A rule that is a single comparison
has the literal that its tokens stand for, unless the tokens with single blanks between them have
one quote at both ends and the same quote in between (`standsFor_iff`): then the two outer quotes are
taken off although they do not belong together (`literal_of_read`).
-/

set_option autoImplicit false

namespace RecordInference.Rule

variable {quote : Char} {inner cs : List Char} {ts : List (List Char)}

/-! ### Quotes at both ends -/

theorem unquote?_eq_some_iff : unquote? quote cs = some inner ↔ cs = quote :: inner ++ [quote] := by
  cases cs with
  | nil => simp [unquote?]
  | cons c rest =>
      simp only [unquote?, Bool.and_eq_true, decide_eq_true_eq, List.cons_append, List.cons.injEq]
      constructor
      · intro h
        split at h
        · next both =>
          cases h
          exact ⟨both.1, (List.dropLast_append_getLast? _ both.2).symm⟩
        · cases h
      · rintro ⟨rfl, rfl⟩
        simp

/-- Equal quotes at both ends are taken off. -/
theorem unquoted_of_isQuote (opens : IsQuote quote) : unquoted (quote :: inner ++ [quote]) = inner := by
  have taken : unquote? quote (quote :: inner ++ [quote]) = some inner := unquote?_eq_some_iff.2 rfl
  rcases opens with rfl | rfl
  · simp only [unquoted, taken]
  · have other : unquote? '"' ('\'' :: inner ++ ['\'']) = none := rfl
    simp only [unquoted, other, taken, Option.getD_some]

/-- A text without equal quotes at both ends is left as it is. -/
theorem unquoted_eq_self (bare : ∀ quote inner, IsQuote quote → cs ≠ quote :: inner ++ [quote]) :
    unquoted cs = cs := by
  have none (quote : Char) (opens : IsQuote quote) : unquote? quote cs = none := by
    rw [Option.eq_none_iff_forall_ne_some]
    exact fun inner taken => bare quote inner opens (unquote?_eq_some_iff.1 taken)
  rw [unquoted, none _ (Or.inl rfl), none _ (Or.inr rfl)]
  rfl

theorem spaced_singleton (t : List Char) : spaced [t] = t := List.intercalate_singleton

theorem spaced_cons_cons (t t' : List Char) (ts : List (List Char)) :
    spaced (t :: t' :: ts) = t ++ ' ' :: spaced (t' :: ts) := by
  rw [spaced, List.intercalate_cons_cons, List.append_assoc, List.singleton_append, spaced]

/-! ### What tokens stand for -/

/-- The literal that tokens behind an operator stand for. -/
inductive StandsFor : List (List Char) → List Char → Prop
  | inside {quote : Char} {inner : List Char} (opens : IsQuote quote) (next : quote ∉ inner) :
      StandsFor [quote :: inner ++ [quote]] inner
  | asWritten {ts : List (List Char)} (bare : ∀ quote inner, IsQuote quote → quote ∉ inner →
      ts ≠ [quote :: inner ++ [quote]]) : StandsFor ts (spaced ts)

/-- Several tokens stand for themselves. -/
theorem StandsFor.eq_spaced {t t' literal : List Char} (h : StandsFor (t :: t' :: ts) literal) :
    literal = spaced (t :: t' :: ts) := by
  cases h with
  | asWritten => rfl

/-- Whether a text has one quote at both ends and again in between. -/
def Requoted (cs : List Char) : Prop :=
  ∃ quote inner, IsQuote quote ∧ quote ∈ inner ∧ cs = quote :: inner ++ [quote]

/-- What stands between quotes that it does not have is not quoted again. -/
theorem not_requoted (next : quote ∉ inner) : ¬ Requoted (quote :: inner ++ [quote]) := by
  rintro ⟨quote', inner', -, again, eq⟩
  obtain ⟨rfl, behind⟩ := List.cons.inj eq
  exact next (List.append_cancel_right behind ▸ again)

/-- Where several tokens have one quote at both ends, the quote that the first of them opens with is
closed before the end. -/
theorem mem_of_spaced {t t' : List Char} (paired : Paired t) (opens : IsQuote quote)
    (h : spaced (t :: t' :: ts) = quote :: inner ++ [quote]) : quote ∈ inner := by
  rw [spaced_cons_cons] at h
  cases t with
  | nil =>
      -- a quote is not the blank between two tokens
      have blank : ' ' = quote := (List.cons.inj h).1
      exact absurd opens (blank ▸ (by decide : ¬ IsQuote ' '))
  | cons c rest =>
      obtain ⟨rfl, behind⟩ := List.cons.inj h
      have again := paired c rest opens rfl
      have split : (rest ++ ' ' :: spaced (t' :: ts)).dropLast = (inner ++ [c]).dropLast :=
        congrArg List.dropLast behind
      rw [List.dropLast_append_of_ne_nil (List.cons_ne_nil _ _), List.dropLast_concat] at split
      exact split ▸ List.mem_append_left _ again

/-- The tokens of a literal are read as what they stand for, unless quotes at both ends are taken off
that do not belong together. -/
theorem standsFor_iff (paired : ∀ t ∈ ts, Paired t) :
    StandsFor ts (unquoted (spaced ts)) ↔ ¬ Requoted (spaced ts) := by
  constructor
  · rintro stands ⟨quote, inner, opens, again, eq⟩
    rw [eq, unquoted_of_isQuote opens] at stands
    cases stands with
    | inside opens' next =>
        rw [spaced_singleton] at eq
        exact not_requoted next ⟨quote, inner, opens, again, eq⟩
    | asWritten =>
        -- the text would be two characters longer than itself
        have longer := congrArg List.length eq
        simp only [List.cons_append, List.length_cons, List.length_append, List.length_nil] at longer
        omega
  · intro proper
    by_cases both : ∃ quote inner, IsQuote quote ∧ spaced ts = quote :: inner ++ [quote]
    · obtain ⟨quote, inner, opens, eq⟩ := both
      have next : quote ∉ inner := fun again => proper ⟨quote, inner, opens, again, eq⟩
      rw [eq, unquoted_of_isQuote opens]
      match ts with
      | [] => cases eq
      | [t] =>
          rw [spaced_singleton] at eq
          exact eq ▸ .inside opens next
      | t :: t' :: ts =>
          exact absurd (mem_of_spaced (paired t List.mem_cons_self) opens eq) next
    · have bare : ∀ quote inner, IsQuote quote → spaced ts ≠ quote :: inner ++ [quote] :=
        fun quote inner opens eq => both ⟨quote, inner, opens, eq⟩
      rw [unquoted_eq_self bare]
      refine .asWritten fun quote inner opens _ eq => bare quote inner opens ?_
      rw [eq, spaced_singleton]

/-! ### Rules of one comparison -/

/-- A rule that is a single comparison is a field, an operator and the tokens of its literal. -/
theorem tokens_of_read {text field literal : String} {op : Comparison}
    (h : read text = .ok (.compare field op literal)) : ∃ f word t ts,
      tokens text.toList = .ok (f :: word :: t :: ts) ∧ field = String.ofList f ∧
      comparison? word = some op ∧ literal = String.ofList (unquoted (spaced (t :: ts))) := by
  obtain ⟨ts, join, first, others, cut, read, same⟩ := exists_chain_of_read h
  obtain ⟨rfl, rfl⟩ : first = .compare field op literal ∧ others = [] := by
    rcases List.eq_nil_or_concat' others with rfl | ⟨front, last, rfl⟩
    · exact ⟨same.symm, rfl⟩
    · rw [chain, List.foldl_append] at same
      cases same
  cases clauses : (clauses ts).1 with
  | nil => exact absurd clauses (clauses_fst_ne_nil ts)
  | cons run rest =>
      rw [clauses] at read
      cases read with
      | cons comparison none =>
          cases none
          obtain rfl := eq_of_clauses_fst clauses
          obtain ⟨f, word, t, ts, c, rfl, known, same⟩ := readComparison_eq_ok_iff.1 comparison
          cases same
          exact ⟨f, word, t, ts, cut, rfl, known, rfl⟩

/-- The literal of a rule that is a single comparison is what its tokens stand for, exactly if the
tokens with single blanks between them do not have one quote at both ends and again in between.
Equal quotes at both ends are taken off in any case. -/
theorem literal_of_read {text field literal : String} {op : Comparison}
    (h : read text = .ok (.compare field op literal)) : ∃ f word t ts,
      tokens text.toList = .ok (f :: word :: t :: ts) ∧ field = String.ofList f ∧
      comparison? word = some op ∧
      (StandsFor (t :: ts) literal.toList ↔ ¬ Requoted (spaced (t :: ts))) ∧
      ∀ quote inner, IsQuote quote → spaced (t :: ts) = quote :: inner ++ [quote] →
        literal = String.ofList inner := by
  obtain ⟨f, word, t, ts, cut, name, known, rfl⟩ := tokens_of_read h
  have paired : ∀ w ∈ t :: ts, Paired w := fun w member =>
    paired_of_tokens cut w (List.mem_cons_of_mem f (List.mem_cons_of_mem word member))
  refine ⟨f, word, t, ts, cut, name, known, ?_, fun quote inner opens eq => ?_⟩
  · rw [String.toList_ofList]
    exact standsFor_iff paired
  · rw [eq, unquoted_of_isQuote opens]

/-- A literal between quotes that has the other quote in it. -/
theorem literal_of_read_brien : ∃ t ts,
    read "merchant is \"O'Brien  and Sons\"" =
      .ok (.compare "merchant" .equals "O'Brien  and Sons") ∧
    tokens "merchant is \"O'Brien  and Sons\"".toList =
      .ok ("merchant".toList :: "is".toList :: t :: ts) ∧
    StandsFor (t :: ts) "O'Brien  and Sons".toList := by
  have written : read "merchant is \"O'Brien  and Sons\"" =
      .ok (.compare "merchant" .equals "O'Brien  and Sons") :=
    Except.toOption_eq_some_iff.1 (by decide +kernel)
  have cut : tokens "merchant is \"O'Brien  and Sons\"".toList =
      .ok ["merchant".toList, "is".toList, "\"O'Brien  and Sons\"".toList] :=
    Except.toOption_eq_some_iff.1 (by decide +kernel)
  obtain ⟨f, word, t, ts, cut', -, -, stands, -⟩ := literal_of_read written
  cases cut.symm.trans cut'
  refine ⟨_, _, written, cut, stands.2 ?_⟩
  rw [spaced_singleton]
  exact @not_requoted '"' "O'Brien  and Sons".toList (by decide)

/-- Two names in quotes: the first quote and the last one are taken off, and the literal is neither
what stands between a quote and the next one nor the text as it is written. -/
theorem not_standsFor_of_read :
    read "merchant IS \"Al\" & \"Bo\"" = .ok (.compare "merchant" .equals "Al\" & \"Bo") ∧
    tokens "merchant IS \"Al\" & \"Bo\"".toList = .ok ["merchant".toList, "IS".toList,
      "\"Al\"".toList, ['&'], "\"Bo\"".toList] ∧
    ¬ StandsFor ["\"Al\"".toList, ['&'], "\"Bo\"".toList] "Al\" & \"Bo".toList := by
  refine ⟨Except.toOption_eq_some_iff.1 (by decide +kernel),
    Except.toOption_eq_some_iff.1 (by decide +kernel), fun stands => ?_⟩
  exact absurd stands.eq_spaced (by decide)

end RecordInference.Rule
