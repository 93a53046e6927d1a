import RecordInference.Proofs.Outcome
import RecordInference.Rule.Evaluation

/-!
# What a chain of comparisons means

A text that is read as a rule is a chain: its comparisons are joined from left to right by one
connective (`Expr.IsChain`). On any record the chain fails with the first of its comparisons that
has no answer of its own, and otherwise all of its comparisons hold or one of them does, as the
connective says (`Answered`). So the order of the comparisons decides neither whether a rule has an
answer nor which one (`answered_of_read`).
-/

set_option autoImplicit false

namespace RecordInference.Rule

/-! ### Clauses -/

section Clauses

variable {run ts : List (List Char)} {token : List Char}

theorem clauses_fst_ne_nil (ts : List (List Char)) : (clauses ts).1 ≠ [] := by
  cases ts with
  | nil => exact List.cons_ne_nil _ _
  | cons token rest =>
      simp only [clauses]
      split
      · exact List.cons_ne_nil _ _
      · split
        · exact List.cons_ne_nil _ _
        · exact List.cons_ne_nil _ _

theorem clauses_cons_of_none (plain : connective? token = none) {first : List (List Char)}
    {runs : List (List (List Char))} (h : (clauses ts).1 = first :: runs) :
    clauses (token :: ts) = ((token :: first) :: runs, (clauses ts).2) := by
  simp only [clauses, plain, h]

theorem clauses_cons_of_some {op : Connective} (joins : connective? token = some op) :
    clauses (token :: ts) = ([] :: (clauses ts).1, op :: (clauses ts).2) := by
  simp only [clauses, joins]

/-- Tokens that are no connectives are one clause. -/
theorem clauses_of_plain (plain : ∀ t ∈ run, connective? t = none) : clauses run = ([run], []) := by
  induction run with
  | nil => rfl
  | cons token rest ih =>
      obtain ⟨here, later⟩ := List.forall_mem_cons.1 plain
      rw [clauses_cons_of_none here (by rw [ih later]), ih later]

/-- A connective ends the clause in front of it. -/
theorem clauses_append_cons (plain : ∀ t ∈ run, connective? t = none) {op : Connective}
    (joins : connective? token = some op) :
    clauses (run ++ token :: ts) = (run :: (clauses ts).1, op :: (clauses ts).2) := by
  induction run with
  | nil => exact clauses_cons_of_some joins
  | cons first rest ih =>
      obtain ⟨here, later⟩ := List.forall_mem_cons.1 plain
      rw [List.cons_append, clauses_cons_of_none here (by rw [ih later]), ih later]

/-- One clause has all of the tokens. -/
theorem eq_of_clauses_fst (h : (clauses ts).1 = [run]) : run = ts := by
  induction ts generalizing run with
  | nil =>
      cases h
      rfl
  | cons token rest ih =>
      cases joins : connective? token with
      | some op =>
          -- there would be a clause behind the connective
          rw [clauses_cons_of_some joins] at h
          exact absurd (List.cons.inj h).2 (clauses_fst_ne_nil rest)
      | none =>
          obtain ⟨first, runs, eq⟩ := List.exists_cons_of_ne_nil (clauses_fst_ne_nil rest)
          rw [clauses_cons_of_none joins eq] at h
          obtain ⟨rfl, rfl⟩ := List.cons.inj h
          rw [ih eq]

end Clauses

/-! ### Reading a rule -/

theorem readComparison_eq_ok_iff {run : List (List Char)} {e : Expr} :
    readComparison run = .ok e ↔ ∃ field word first rest op, run = field :: word :: first :: rest ∧
      comparison? word = some op ∧
      e = .compare (String.ofList field) op (String.ofList (unquoted (spaced (first :: rest)))) := by
  constructor
  · intro h
    match run with
    | [] => cases h
    | [_] => cases h
    | [_, _] => cases h
    | field :: word :: first :: rest =>
        simp only [readComparison] at h
        split at h
        · next op read =>
          cases h
          exact ⟨field, word, first, rest, op, rfl, read, rfl⟩
        · cases h
  · rintro ⟨field, word, first, rest, op, rfl, read, rfl⟩
    simp only [readComparison, read]

theorem readComparisons_eq_ok_iff {runs : List (List (List Char))} {es : List Expr} :
    readComparisons runs = .ok es ↔ List.Forall₂ (fun run e => readComparison run = .ok e) runs es := by
  induction runs generalizing es with
  | nil =>
      rw [List.forall₂_nil_left_iff, readComparisons, Except.ok.injEq, eq_comm]
  | cons run rest ih =>
      rw [readComparisons, Except.bind_eq_ok_iff]
      constructor
      · rintro ⟨e, first, others⟩
        obtain ⟨es, read, same⟩ := Except.bind_eq_ok_iff.1 others
        cases same
        exact .cons first (ih.1 read)
      · intro h
        cases h with
        | cons first others =>
            refine ⟨_, first, ?_⟩
            rw [ih.2 others]
            rfl

/-- A text that is a rule is a chain of the comparisons that its clauses are. -/
theorem exists_chain_of_read {text : String} {e : Expr} (h : read text = .ok e) :
    ∃ ts op first others, tokens text.toList = .ok ts ∧
      List.Forall₂ (fun run e => readComparison run = .ok e) (clauses ts).1 (first :: others) ∧
      e = chain op first others := by
  obtain ⟨ts, cut, h⟩ := Except.bind_eq_ok_iff.1 h
  split at h
  · cases h
  · simp only [ofTokens] at h
    split at h
    · cases h
    · obtain ⟨es, read, h⟩ := Except.bind_eq_ok_iff.1 h
      split at h
      · cases h
      · next first others =>
        cases h
        exact ⟨ts, _, first, others, cut, readComparisons_eq_ok_iff.1 read, rfl⟩

/-! ### Chains -/

/-- Comparisons joined from left to right by one connective. -/
inductive Expr.IsChain (op : Connective) : Expr → Prop
  | compare (field : String) (comparison : Comparison) (literal : String) :
      IsChain op (.compare field comparison literal)
  | join {left : Expr} (chain : IsChain op left) (field : String) (comparison : Comparison)
      (literal : String) : IsChain op (.join op left (.compare field comparison literal))

/-- The comparisons of a rule, from left to right. -/
def Expr.comparisons : Expr → List Expr
  | compare field op literal => [compare field op literal]
  | join _ left right => left.comparisons ++ right.comparisons

/-- The comparisons of a typed rule, from left to right. -/
def Condition.comparisons : Condition → List Condition
  | compare field op operand => [compare field op operand]
  | join _ left right => left.comparisons ++ right.comparisons

theorem Expr.IsChain.chain {op : Connective} {first : Expr} (h : first.IsChain op)
    {others : List Expr} (each : ∀ e ∈ others, ∃ field comparison literal,
      e = .compare field comparison literal) : (chain op first others).IsChain op := by
  induction others generalizing first with
  | nil => exact h
  | cons e rest ih =>
      obtain ⟨⟨field, comparison, literal, rfl⟩, later⟩ := List.forall_mem_cons.1 each
      exact ih (h.join field comparison literal) later

/-- A text that is a rule is a chain. -/
theorem isChain_of_read {text : String} {e : Expr} (h : read text = .ok e) :
    ∃ op, e.IsChain op := by
  obtain ⟨ts, op, first, others, -, read, rfl⟩ := exists_chain_of_read h
  have each : ∀ e ∈ first :: others, ∃ field comparison literal,
      e = .compare field comparison literal := by
    intro e member
    obtain ⟨run, -, read⟩ := read.exists_left e member
    obtain ⟨field, word, first, rest, op, -, -, rfl⟩ := readComparison_eq_ok_iff.1 read
    exact ⟨_, _, _, rfl⟩
  obtain ⟨⟨field, comparison, literal, rfl⟩, later⟩ := List.forall_mem_cons.1 each
  exact ⟨op, .chain (.compare field comparison literal) later⟩

/-! ### Comparisons that are typed one by one -/

variable {shape : Keyed Schema}

theorem typed_compare_eq_ok {field literal : String} {op : Comparison} {c : Condition}
    (h : typed shape (.compare field op literal) = .ok c) :
    ∃ operand, c = .compare field op operand := by
  simp only [typed, typedComparison] at h
  split at h
  · next comparison =>
    cases h
    split at comparison
    · cases comparison
    · split at comparison
      · cases comparison
      · split at comparison
        · cases comparison
        · cases comparison
          exact ⟨_, rfl⟩
  · cases h

theorem typed_join_eq_ok_iff {op : Connective} {left right : Expr} {c : Condition} :
    typed shape (.join op left right) = .ok c ↔
      ∃ l r, typed shape left = .ok l ∧ typed shape right = .ok r ∧ c = .join op l r := by
  constructor
  · intro h
    rw [typed] at h
    split at h
    · next l r typedLeft typedRight =>
      cases h
      exact ⟨l, r, typedLeft, typedRight, rfl⟩
    · cases h
    · cases h
    · cases h
  · rintro ⟨l, r, typedLeft, typedRight, rfl⟩
    rw [typed, typedLeft, typedRight]

/-- The comparisons of a typed rule are those of the rule, each typed on its own. -/
theorem forall₂_comparisons_of_typed {e : Expr} {c : Condition} (h : typed shape e = .ok c) :
    List.Forall₂ (fun a b => typed shape a = .ok b) e.comparisons c.comparisons := by
  induction e generalizing c with
  | compare field op literal =>
      obtain ⟨operand, rfl⟩ := typed_compare_eq_ok h
      exact .cons h .nil
  | join op left right ihl ihr =>
      obtain ⟨l, r, typedLeft, typedRight, rfl⟩ := typed_join_eq_ok_iff.1 h
      exact List.rel_append (ihl typedLeft) (ihr typedRight)

/-- A rule is typed exactly if each of its comparisons is. -/
theorem exists_typed_iff {e : Expr} :
    (∃ c, typed shape e = .ok c) ↔ ∀ a ∈ e.comparisons, ∃ b, typed shape a = .ok b := by
  induction e with
  | compare field op literal => rw [Expr.comparisons, List.forall_mem_singleton]
  | join op left right ihl ihr =>
      rw [Expr.comparisons, List.forall_mem_append, ← ihl, ← ihr]
      constructor
      · rintro ⟨c, h⟩
        obtain ⟨l, r, typedLeft, typedRight, -⟩ := typed_join_eq_ok_iff.1 h
        exact ⟨⟨l, typedLeft⟩, ⟨r, typedRight⟩⟩
      · rintro ⟨⟨l, typedLeft⟩, ⟨r, typedRight⟩⟩
        exact ⟨_, typed_join_eq_ok_iff.2 ⟨l, r, typedLeft, typedRight, rfl⟩⟩

theorem comparisons_eq_filterMap {e : Expr} {c : Condition} (h : typed shape e = .ok c) :
    c.comparisons = e.comparisons.filterMap fun a => (typed shape a).toOption := by
  refine List.Forall₂.eq_filterMap ((forall₂_comparisons_of_typed h).imp fun a b typed => ?_)
  exact Except.toOption_eq_some_iff.2 typed

/-! ### Answers of a chain -/

/-- What truth values amount to together: all of them hold, or one of them does. -/
def Connective.overall : Connective → List Bool → Bool
  | and, bs => bs.all id
  | or, bs => bs.any id

/-- The answer of a chain whose comparisons have the given answers: the first failure, or what the
truth values amount to. -/
inductive Answered (op : Connective) :
    List (Except EvaluationError Bool) → Except EvaluationError Bool → Prop
  | failed (bs : List Bool) (e : EvaluationError) (later : List (Except EvaluationError Bool)) :
      Answered op (bs.map .ok ++ .error e :: later) (.error e)
  | held (bs : List Bool) : Answered op (bs.map .ok) (.ok (op.overall bs))

theorem Connective.overall_concat (op : Connective) (bs : List Bool) (b : Bool) :
    op.overall (bs ++ [b]) = op.apply (op.overall bs) b := by
  cases op with
  | and => simp [overall, apply]
  | or => simp [overall, apply]

theorem Connective.overall_perm (op : Connective) {bs bs' : List Bool} (h : bs.Perm bs') :
    op.overall bs = op.overall bs' := by
  cases op with
  | and => exact h.all_eq
  | or => exact h.any_eq

theorem Answered.single (op : Connective) (x : Except EvaluationError Bool) : Answered op [x] x := by
  cases x with
  | error e => exact .failed [] e []
  | ok b =>
      have alone : op.overall [b] = b := by cases op <;> simp [Connective.overall]
      simpa [alone] using @Answered.held op [b]

/-- One more comparison: a failure so far stays, and else the comparison fails or counts. -/
theorem Answered.concat {op : Connective} {answers : List (Except EvaluationError Bool)}
    {x : Except EvaluationError Bool} (h : Answered op answers x)
    (y : Except EvaluationError Bool) :
    Answered op (answers ++ [y]) (do
      let l ← x
      let r ← y
      return op.apply l r) := by
  cases h with
  | failed bs e later =>
      rw [List.append_assoc, List.cons_append]
      exact .failed bs e (later ++ [y])
  | held bs =>
      cases y with
      | error e => exact .failed bs e []
      | ok b =>
          have more := @Answered.held op (bs ++ [b])
          rw [List.map_append, Connective.overall_concat] at more
          exact more

/-- The answer of a chain follows from the answers of its comparisons. -/
theorem answered_of_typed {op : Connective} {e : Expr} (chain : e.IsChain op) {c : Condition}
    (h : typed shape e = .ok c) (rule : String) (record : Record) :
    Answered op (c.comparisons.map (·.evaluate rule record)) (c.evaluate rule record) := by
  induction chain generalizing c with
  | compare field comparison literal =>
      obtain ⟨operand, rfl⟩ := typed_compare_eq_ok h
      exact .single op _
  | join chain field comparison literal ih =>
      obtain ⟨l, r, typedLeft, typedRight, rfl⟩ := typed_join_eq_ok_iff.1 h
      obtain ⟨operand, rfl⟩ := typed_compare_eq_ok typedRight
      rw [Condition.comparisons, Condition.comparisons, List.map_append]
      exact (ih typedLeft).concat _

/-! ### The order of the comparisons -/

/-- The text of a rule stands in its error only. -/
theorem toOption_evaluate (rule rule' : String) (record : Record) (c : Condition) :
    (c.evaluate rule record).toOption = (c.evaluate rule' record).toOption := by
  induction c with
  | compare field op operand =>
      simp only [Condition.evaluate]
      split
      · rfl
      · split <;> rfl
  | join op left right ihl ihr =>
      rw [Condition.evaluate, Condition.evaluate, Except.toOption_bind, Except.toOption_bind, ihl]
      simp only [Except.toOption_bind, ihr]

theorem Answered.toOption_eq_of_perm {op : Connective}
    {answers answers' : List (Except EvaluationError Bool)} {x x' : Except EvaluationError Bool}
    (h : Answered op answers x) (h' : Answered op answers' x')
    (perm : (answers.map Except.toOption).Perm (answers'.map Except.toOption)) :
    x.toOption = x'.toOption := by
  have some (bs : List Bool) :
      (bs.map (Except.ok (ε := EvaluationError))).map Except.toOption = bs.map .some := by
    rw [List.map_map]
    rfl
  have fails (bs : List Bool) (e : EvaluationError) (later : List (Except EvaluationError Bool)) :
      none ∈ (bs.map Except.ok ++ Except.error e :: later).map Except.toOption :=
    List.mem_map.2 ⟨.error e, List.mem_append_right _ List.mem_cons_self, rfl⟩
  cases h with
  | failed bs e later =>
      cases h' with
      | failed bs' e' later' => rfl
      | held bs' =>
          have inside := perm.subset (fails bs e later)
          simp [some] at inside
  | held bs =>
      cases h' with
      | failed bs' e' later' =>
          have inside := perm.symm.subset (fails bs' e' later')
          simp [some] at inside
      | held bs' =>
          rw [some, some] at perm
          have same := perm.filterMap id
          simp only [List.filterMap_map, Function.id_comp, List.filterMap_some] at same
          exact congrArg Option.some (op.overall_perm same)

/-- Chains of the same comparisons in any order are typed together, and have the same answer on
every record or none. -/
theorem exists_typed_of_perm {op : Connective} {e e' : Expr} (chain : e.IsChain op)
    (chain' : e'.IsChain op) (perm : e'.comparisons.Perm e.comparisons) {c : Condition}
    (h : typed shape e = .ok c) : ∃ c', typed shape e' = .ok c' ∧ ∀ rule rule' record,
      (c'.evaluate rule' record).toOption = (c.evaluate rule record).toOption := by
  have each := exists_typed_iff.1 ⟨c, h⟩
  obtain ⟨c', h'⟩ := exists_typed_iff.2 fun a member => each a (perm.subset member)
  have same : c'.comparisons.Perm c.comparisons := by
    rw [comparisons_eq_filterMap h, comparisons_eq_filterMap h']
    exact perm.filterMap _
  refine ⟨c', h', fun rule rule' record => ?_⟩
  rw [toOption_evaluate rule rule']
  have answered := answered_of_typed chain h rule' record
  have answered' := answered_of_typed chain' h' rule' record
  exact answered'.toOption_eq_of_perm answered ((same.map _).map _)

/-- What is read as a rule is a chain. Where the chain is typed, so are its comparisons one by one;
on any record it fails with the first of them that fails, and otherwise all of them or one of them
decides; and a chain of the same comparisons in another order is typed too and has an answer on the
same records, the same one. -/
theorem answered_of_read {text : String} {e : Expr} (h : read text = .ok e) :
    ∃ op, e.IsChain op ∧ ∀ shape c, typed shape e = .ok c →
      List.Forall₂ (fun a b => typed shape a = .ok b) e.comparisons c.comparisons ∧
      (∀ rule record,
        Answered op (c.comparisons.map (·.evaluate rule record)) (c.evaluate rule record)) ∧
      ∀ e' : Expr, e'.IsChain op → e'.comparisons.Perm e.comparisons →
        ∃ c', typed shape e' = .ok c' ∧ ∀ rule rule' record,
          (c'.evaluate rule' record).toOption = (c.evaluate rule record).toOption := by
  obtain ⟨op, chain⟩ := isChain_of_read h
  refine ⟨op, chain, fun shape c typed => ⟨forall₂_comparisons_of_typed typed, ?_, ?_⟩⟩
  · exact answered_of_typed chain typed
  · intro e' chain' perm
    exact exists_typed_of_perm chain chain' perm typed

/-- A chain with a connective between quotes, and the same comparisons the other way around. -/
theorem answered_of_read_gift : ∃ e c c',
    read "total OVER 100 or note IS 'gift or more'" = .ok e ∧ e.IsChain .or ∧
    typed [("total", .money), ("note", .text)] e = .ok c ∧
    (∀ rule record,
      Answered .or (c.comparisons.map (·.evaluate rule record)) (c.evaluate rule record)) ∧
    typed [("total", .money), ("note", .text)]
      (.join .or (.compare "note" .equals "gift or more") (.compare "total" .above "100")) =
        .ok c' ∧
    ∀ rule rule' record, (c'.evaluate rule' record).toOption = (c.evaluate rule record).toOption := by
  have written : read "total OVER 100 or note IS 'gift or more'" =
      .ok (.join .or (.compare "total" .above "100") (.compare "note" .equals "gift or more")) :=
    Except.toOption_eq_some_iff.1 (by decide +kernel)
  obtain ⟨c, fits⟩ := Except.exists_of_isOk (by decide +kernel :
    (typed [("total", .money), ("note", .text)] (.join .or (.compare "total" .above "100")
      (.compare "note" .equals "gift or more"))).isOk = true)
  obtain ⟨op, chain, meaning⟩ := answered_of_read written
  obtain rfl : op = .or := by
    cases chain
    rfl
  obtain ⟨-, answered, reordered⟩ := meaning _ c fits
  obtain ⟨c', fits', same⟩ := reordered
    (.join .or (.compare "note" .equals "gift or more") (.compare "total" .above "100"))
    (.join (.compare ..) ..) (.swap ..)
  exact ⟨_, c, c', written, chain, fits, answered, fits', same⟩

end RecordInference.Rule
