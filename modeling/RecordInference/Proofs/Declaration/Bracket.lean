import RecordInference.Proofs.Declaration.Token

/-!
# Brackets in lists

The values of a list may have brackets in them. A text is one token as long as no blank stands
outside of all its brackets (`Unbroken`), and what follows it starts a new token if all of them are
closed at its end (`IsToken.of_unbroken`). A list that is not so is taken apart, and then it is not
read (`unbroken_of_readList`): the rest of it has a bracket that closes it, which stands in no name.
-/

set_option autoImplicit false

namespace RecordInference.Declaration

open Text

variable {depth : Nat} {cs w list t : List Char} {words : List (List Char)}

/-- The number of brackets that are open behind a character. -/
def depthAfter (depth : Nat) (c : Char) : Nat :=
  if c = '[' then depth + 1 else if c = ']' then depth - 1 else depth

/-- The number of brackets that are open behind a text. -/
def bracketDepth (depth : Nat) (cs : List Char) : Nat := cs.foldl depthAfter depth

/-- Whether no blank of a text stands outside of all brackets. -/
def Unbroken (depth : Nat) : List Char → Prop
  | [] => True
  | c :: rest => (isBlank c = true → depth ≠ 0) ∧ Unbroken (depthAfter depth c) rest

instance decidableUnbroken (depth : Nat) : (cs : List Char) → Decidable (Unbroken depth cs)
  | [] => .isTrue trivial
  | c :: rest =>
    have := decidableUnbroken (depthAfter depth c) rest
    inferInstanceAs (Decidable ((isBlank c = true → depth ≠ 0) ∧ Unbroken _ rest))

/-! ### Brackets of a text in parts -/

theorem bracketDepth_append (depth : Nat) (front cs : List Char) :
    bracketDepth depth (front ++ cs) = bracketDepth (bracketDepth depth front) cs :=
  List.foldl_append

theorem unbroken_append {front : List Char} : Unbroken depth (front ++ cs) ↔
    Unbroken depth front ∧ Unbroken (bracketDepth depth front) cs := by
  induction front generalizing depth with
  | nil => exact (and_iff_right trivial).symm
  | cons c rest ih =>
      rw [List.cons_append, Unbroken, Unbroken, ih, and_assoc]
      rfl

theorem bracketDepth_of_plain (plain : Plain cs) : bracketDepth depth cs = depth := by
  induction cs with
  | nil => rfl
  | cons c rest ih =>
      obtain ⟨⟨opening, closing⟩, others⟩ := List.forall_mem_cons.1 plain
      have same : depthAfter depth c = depth := by rw [depthAfter, if_neg opening, if_neg closing]
      rw [bracketDepth, List.foldl_cons, same]
      exact ih others

/-! ### Tokens with brackets -/

theorem tokensFrom_cons_of_blank {c : Char} (blank : isBlank c = true) (cs : List Char) :
    tokensFrom 0 (c :: cs) = ([], tokens cs) := by
  have ends : (isBlank c && decide (0 = 0)) = true := by rw [blank]; rfl
  rw [tokensFrom, ends, if_pos rfl]
  rfl

theorem tokensFrom_cons_of_kept {c : Char} (kept : isBlank c = true → depth ≠ 0) (cs : List Char) :
    tokensFrom depth (c :: cs) =
      (c :: (tokensFrom (depthAfter depth c) cs).1, (tokensFrom (depthAfter depth c) cs).2) := by
  have stays : (isBlank c && decide (depth = 0)) = false := by
    cases blank : isBlank c with
    | false => rfl
    | true => rw [decide_eq_false (kept blank), Bool.and_false]
  rw [tokensFrom, stays, if_neg Bool.false_ne_true]
  rfl

/-- An unbroken text stays in the current token. -/
theorem tokensFrom_of_unbroken (unbroken : Unbroken depth w) (cs : List Char) :
    tokensFrom depth (w ++ cs) = (w ++ (tokensFrom (bracketDepth depth w) cs).1,
      (tokensFrom (bracketDepth depth w) cs).2) := by
  induction w generalizing depth with
  | nil => rfl
  | cons c rest ih =>
      obtain ⟨kept, others⟩ := unbroken
      rw [List.cons_append, tokensFrom_cons_of_kept kept, ih others]
      rfl

theorem IsToken.of_unbroken (trimmed : Trimmed w) (unbroken : Unbroken 0 w)
    (closed : bracketDepth 0 w = 0) : IsToken w := by
  refine ⟨trimmed, fun cs => ?_⟩
  rw [tokensFrom_of_unbroken unbroken, closed]

/-- The words in front of a text are tokens of their own. -/
theorem tokens_append_spaced (spaced : Spaced (words ++ [w]) cs) (token : ∀ v ∈ words, IsToken v) :
    tokens cs = words ++ tokens w := by
  induction words generalizing cs with
  | nil =>
      cases spaced with
      | one => rfl
      | cons _ _ _ rest => cases rest
  | cons v rest ih =>
      obtain ⟨⟨trimmed, ends⟩, others⟩ := List.forall_mem_cons.1 token
      obtain ⟨next, behind, eq⟩ := List.exists_cons_of_ne_nil
        (List.append_ne_nil_of_right_ne_nil rest (List.cons_ne_nil w []))
      rw [List.cons_append, eq] at spaced
      cases spaced with
      | @cons _ gap _ cs blank more spaced =>
          rw [← eq] at spaced
          rw [tokens, List.append_assoc, ends, tokensFrom_gap blank more, ih spaced others]
          show joinToken (v ++ []) _ = _
          rw [List.append_nil, joinToken_of_ne trimmed.1]
          rfl

theorem tokens_of_unbroken (some : w ≠ []) (unbroken : Unbroken 0 w) : tokens w = [w] := by
  have whole := tokensFrom_of_unbroken unbroken []
  rw [List.append_nil] at whole
  rw [tokens, whole]
  show joinToken (w ++ []) [] = [w]
  rw [List.append_nil, joinToken_of_ne some]

theorem unbroken_tokensFrom (depth : Nat) (cs : List Char) :
    Unbroken depth (tokensFrom depth cs).1 ∧ ∀ t ∈ (tokensFrom depth cs).2, Unbroken 0 t := by
  induction cs generalizing depth with
  | nil => exact ⟨trivial, List.forall_mem_nil _⟩
  | cons c rest ih =>
      by_cases kept : isBlank c = true → depth ≠ 0
      · rw [tokensFrom_cons_of_kept kept]
        obtain ⟨token, others⟩ := ih (depthAfter depth c)
        exact ⟨⟨kept, token⟩, others⟩
      · rw [Classical.not_imp, not_not] at kept
        obtain ⟨blank, rfl⟩ := kept
        rw [tokensFrom_cons_of_blank blank]
        refine ⟨trivial, fun t member => ?_⟩
        obtain ⟨token, others⟩ := ih 0
        rcases mem_of_mem_joinToken member with rfl | later
        · exact token
        · exact others t later

/-- No blank of a token stands outside of its brackets. -/
theorem unbroken_of_mem_tokens (member : t ∈ tokens cs) : Unbroken 0 t := by
  obtain ⟨token, others⟩ := unbroken_tokensFrom 0 cs
  rcases mem_of_mem_joinToken member with rfl | later
  · exact token
  · exact others t later

/-! ### Lists that are taken apart -/

/-- A text is broken at the first blank outside of its brackets. -/
theorem exists_of_not_unbroken (broken : ¬ Unbroken depth w) : ∃ front b back,
    w = front ++ b :: back ∧ Unbroken depth front ∧ bracketDepth depth front = 0 ∧
      isBlank b = true := by
  induction w generalizing depth with
  | nil => exact absurd trivial broken
  | cons c rest ih =>
      by_cases kept : isBlank c = true → depth ≠ 0
      · have later : ¬ Unbroken (depthAfter depth c) rest := fun others => broken ⟨kept, others⟩
        obtain ⟨front, b, back, rfl, unbroken, closed, blank⟩ := ih later
        exact ⟨c :: front, b, back, rfl, ⟨kept, unbroken⟩, closed, blank⟩
      · rw [Classical.not_imp, not_not] at kept
        obtain ⟨blank, rfl⟩ := kept
        exact ⟨[], c, rest, rfl, trivial, rfl, blank⟩

theorem mem_joinToken_of_mem {token : List Char} {c : Char} (h : c ∈ token) :
    ∀ ws, ∃ t ∈ joinToken token ws, c ∈ t := by
  intro ws
  rw [joinToken_of_ne (List.ne_nil_of_mem h)]
  exact ⟨token, List.mem_cons_self, h⟩

theorem mem_joinToken_of_mem_tail {token : List Char} {ws : List (List Char)} (h : t ∈ ws) :
    t ∈ joinToken token ws := by
  rw [joinToken]
  split
  · exact h
  · exact List.mem_cons_of_mem _ h

theorem exists_of_mem_tokensFrom {c : Char} (member : c ∈ cs) (solid : isBlank c = false)
    (depth : Nat) : c ∈ (tokensFrom depth cs).1 ∨ ∃ t ∈ (tokensFrom depth cs).2, c ∈ t := by
  induction cs generalizing depth with
  | nil => cases member
  | cons d rest ih =>
      -- the first character goes on with the current token, or it ends the token
      by_cases kept : isBlank d = true → depth ≠ 0
      · rw [tokensFrom_cons_of_kept kept]
        rcases List.mem_cons.1 member with rfl | later
        · exact Or.inl List.mem_cons_self
        · exact (ih later _).imp_left (List.mem_cons_of_mem d)
      · rw [Classical.not_imp, not_not] at kept
        obtain ⟨blank, rfl⟩ := kept
        rw [tokensFrom_cons_of_blank blank]
        rcases List.mem_cons.1 member with rfl | later
        · cases solid.symm.trans blank
        · refine Or.inr ?_
          rcases ih later 0 with first | ⟨t, there, inside⟩
          · exact mem_joinToken_of_mem first _
          · exact ⟨t, mem_joinToken_of_mem_tail there, inside⟩

/-- Every character that is not blank is in a token. -/
theorem exists_of_mem_tokens {c : Char} (member : c ∈ cs) (solid : isBlank c = false) :
    ∃ t ∈ tokens cs, c ∈ t := by
  rcases exists_of_mem_tokensFrom member solid 0 with first | ⟨t, there, inside⟩
  · exact mem_joinToken_of_mem first _
  · exact ⟨t, mem_joinToken_of_mem_tail there, inside⟩

/-- A list that is broken leaves its last bracket to a later token. -/
theorem exists_of_broken (last : list.getLast? = some ']') (broken : ¬ Unbroken 0 list)
    (more : list.head? = some '[') (rest : List Char) :
    ∃ front ts, tokens (list ++ rest) = front :: ts ∧ ∃ t ∈ ts, ']' ∈ t := by
  obtain ⟨front, b, back, rfl, unbroken, closed, blank⟩ := exists_of_not_unbroken broken
  -- the list opens with a bracket and closes with one, and the blank is neither
  have some : front ≠ [] := by
    rintro rfl
    cases more
    cases blank
  have closes : ']' ∈ back := by
    rw [List.getLast?_append, List.getLast?_cons] at last
    cases final : back.getLast? with
    | none =>
        rw [final] at last
        cases last
        cases blank
    | some c =>
        rw [final] at last
        cases last
        exact List.mem_of_getLast? final
  refine ⟨front, tokens (back ++ rest), ?_, ?_⟩
  · rw [List.append_assoc, List.cons_append, tokens, tokensFrom_of_unbroken unbroken, closed,
      tokensFrom_cons_of_blank blank]
    show joinToken (front ++ []) _ = _
    rw [List.append_nil, joinToken_of_ne some]
  · exact exists_of_mem_tokens (List.mem_append_left rest closes) (by decide)

theorem getLast?_of_readList {values : List String} (read : readList t = .ok values) :
    t.getLast? = some ']' := by
  obtain ⟨inner, rfl, -⟩ := exists_of_readList read
  exact List.getLast?_concat

/-- A list that is read in front of other words is unbroken, and closes its brackets unless it is at
the end of its line. -/
theorem unbroken_of_readList {suffix : List Char} {ts : List (List Char)} {values : List String}
    (first : list.head? = some '[') (last : list.getLast? = some ']') (plain : Plain suffix)
    (split : tokens (list ++ suffix) = t :: ts) (read : readList t = .ok values)
    (others : ∀ t ∈ ts, ']' ∉ t) :
    Unbroken 0 list ∧ (suffix ≠ [] → bracketDepth 0 list = 0) := by
  have unbroken : Unbroken 0 list := by
    by_contra broken
    obtain ⟨front, ts', eq, t', there, inside⟩ := exists_of_broken last broken first suffix
    rw [split] at eq
    cases eq
    exact others t' there inside
  refine ⟨unbroken, fun more => ?_⟩
  by_contra opened
  -- what follows is part of the token, which then does not end with a bracket
  have stays : tokensFrom (bracketDepth 0 list) suffix = (suffix, []) := by
    have whole := @tokensFrom_append suffix (bracketDepth 0 list) plain (absurd · opened) []
    rw [List.append_nil] at whole
    rw [whole]
    show (suffix ++ [], []) = _
    rw [List.append_nil]
  rw [tokens, tokensFrom_of_unbroken unbroken, stays] at split
  have token : list ++ suffix = t := by
    have some := List.append_ne_nil_of_right_ne_nil list more
    exact (List.cons.inj ((joinToken_of_ne some []).symm.trans split)).1
  have final := getLast?_of_readList read
  rw [← token, List.getLast?_append_of_ne_nil _ more] at final
  exact (plain _ (List.mem_of_getLast? final)).2 rfl

end RecordInference.Declaration
