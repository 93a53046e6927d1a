import RecordInference.Proofs.Rule.Quotation
import RecordInference.Proofs.Rule.Reading

/-!
# Writing a rule

An atom is a field, a comparison and a literal. It is written as three words: the field, the keyword
of the comparison in any case, and the literal between quotes that it does not have (`Atom.Words`).
A rule is written as its atoms with one connective between them, in any case (`Words`). Whatever
blanks stand between the words and around them, the text is read as the atoms joined from left to
right, and nothing in a literal counts as a blank, a connective or a quote (`read_of_words`).
-/

set_option autoImplicit false

namespace RecordInference.Rule

open Text

/-- A comparison to be written. -/
structure Atom where
  field : String
  op : Comparison
  literal : String

/-- The comparison as a rule. -/
def Atom.toExpr (a : Atom) : Expr := .compare a.field a.op a.literal

/-- The keyword of a connective. -/
def Connective.keyword : Connective → String
  | and => "AND"
  | or => "OR"

/-- Whether an atom can be written: its field is one word that is no connective and opens with no
quote, and there are quotes that its literal does not have. -/
structure Atom.Writable (a : Atom) : Prop where
  solid : Solid a.field.toList
  bare : ∀ c ∈ a.field.toList.head?, ¬ IsQuote c
  plain : ∀ op : Connective, isWord op.keyword a.field.toList = false
  quotable : ∃ quote, IsQuote quote ∧ quote ∉ a.literal.toList

/-- The words of an atom. -/
inductive Atom.Words (a : Atom) : List (List Char) → Prop
  | intro {word : List Char} {quote : Char} (keyword : isWord a.op.keyword word = true)
      (opens : IsQuote quote) (other : quote ∉ a.literal.toList) :
      Words a [a.field.toList, word, quote :: a.literal.toList ++ [quote]]

/-- The words of atoms joined by a connective. -/
inductive Words (op : Connective) : List Atom → List (List Char) → Prop
  | one {a : Atom} {words : List (List Char)} (first : a.Words words) : Words op [a] words
  | join {a : Atom} {words : List (List Char)} (first : a.Words words) {word : List Char}
      (keyword : isWord op.keyword word = true) {atoms : List Atom} {more : List (List Char)}
      (rest : Words op atoms more) : Words op (a :: atoms) (words ++ word :: more)

variable {op : Connective} {a : Atom} {atoms : List Atom} {words : List (List Char)}

/-! ### Words that can be told apart -/

theorem comparison?_of_isWord {c : Comparison} {word : List Char}
    (h : isWord c.keyword word = true) : comparison? word = some c := by
  simp only [comparison?, isWord_of_isWord h]
  cases c <;> rfl

theorem connective?_of_isWord {word : List Char} (h : isWord op.keyword word = true) :
    connective? word = some op := by
  simp only [connective?, isWord_of_isWord h]
  cases op <;> rfl

theorem connective?_eq_none {word : List Char}
    (plain : ∀ op : Connective, isWord op.keyword word = false) : connective? word = none := by
  have no : isWord "AND" word = false := plain .and
  have no' : isWord "OR" word = false := plain .or
  simp only [connective?, no, no', Bool.false_eq_true, if_false]

/-- A word in quotes is no keyword. -/
theorem isWord_of_isQuote {quote : Char} (opens : IsQuote quote) (rest : List Char)
    (op : Connective) : isWord op.keyword (quote :: rest) = false := by
  rcases opens with rfl | rfl <;> cases op <;> simp [isWord, upper, Connective.keyword]

theorem IsToken.of_isWord {keyword : String} {word : List Char} (h : isWord keyword word = true)
    (solid : Solid keyword.toList) {k : Char} (opens : keyword.toList.head? = some k)
    (bare : ¬ IsQuote k) : IsToken word := by
  refine .of_solid (.of_isWord h solid) fun c first quote => ?_
  have same : word.map Char.toUpper = keyword.toList := by simpa [isWord, upper] using h
  -- a quote has no case, so the keyword would open with it too
  have upper : c.toUpper = c := by rcases quote with rfl | rfl <;> decide
  have head : keyword.toList.head? = some c := by
    rw [← same, List.head?_map, first, Option.map_some, upper]
  exact bare (Option.some.inj (opens.symm.trans head) ▸ quote)

theorem Comparison.isToken {c : Comparison} {word : List Char} (h : isWord c.keyword word = true) :
    IsToken word := by
  cases c with
  | above => exact .of_isWord h (by decide) rfl (by decide)
  | below => exact .of_isWord h (by decide) rfl (by decide)
  | equals => exact .of_isWord h (by decide) rfl (by decide)

theorem Connective.isToken {word : List Char} (h : isWord op.keyword word = true) :
    IsToken word := by
  cases op with
  | and => exact .of_isWord h (by decide) rfl (by decide)
  | or => exact .of_isWord h (by decide) rfl (by decide)

/-! ### The words of an atom -/

theorem Atom.Writable.exists_words (h : a.Writable) : ∃ words, a.Words words := by
  obtain ⟨quote, opens, other⟩ := h.quotable
  have keyword : isWord a.op.keyword a.op.keyword.toList = true := by
    cases a.op <;> decide
  exact ⟨_, .intro keyword opens other⟩

theorem Atom.Words.isToken (h : a.Words words) (writable : a.Writable) :
    ∀ w ∈ words, IsToken w := by
  cases h with
  | intro keyword opens other =>
      simp only [List.forall_mem_cons]
      exact ⟨.of_solid writable.solid writable.bare, Comparison.isToken keyword,
        .of_quoted opens other, nofun⟩

theorem Atom.Words.plain (h : a.Words words) (writable : a.Writable) :
    ∀ w ∈ words, connective? w = none := by
  cases h with
  | @intro word quote keyword opens other =>
      have notJoining (op : Connective) : isWord op.keyword word = false := by
        rw [isWord_of_isWord keyword]
        cases a.op <;> cases op <;> decide
      simp only [List.forall_mem_cons]
      exact ⟨connective?_eq_none writable.plain, connective?_eq_none notJoining,
        connective?_eq_none (isWord_of_isQuote opens _), nofun⟩

/-- The words of an atom are read as the atom. -/
theorem Atom.Words.readComparison (h : a.Words words) : readComparison words = .ok a.toExpr := by
  cases h with
  | @intro word quote keyword opens other =>
      refine readComparison_eq_ok_iff.2 ⟨_, word, _, [], a.op, rfl, comparison?_of_isWord keyword, ?_⟩
      rw [spaced_singleton, unquoted_of_isQuote opens, String.ofList_toList, String.ofList_toList]
      rfl

/-! ### The words of a rule -/

theorem Words.isToken (h : Words op atoms words) (each : ∀ a ∈ atoms, a.Writable) :
    ∀ w ∈ words, IsToken w := by
  induction h with
  | one first => exact first.isToken (each _ List.mem_cons_self)
  | join first keyword rest ih =>
      obtain ⟨here, later⟩ := List.forall_mem_cons.1 each
      exact List.forall_mem_append.2
        ⟨first.isToken here, List.forall_mem_cons.2 ⟨Connective.isToken keyword, ih later⟩⟩

theorem exists_words (each : ∀ a ∈ atoms, a.Writable) (some : atoms ≠ []) :
    ∃ words, Words op atoms words := by
  induction atoms with
  | nil => exact absurd rfl some
  | cons a rest ih =>
      obtain ⟨here, later⟩ := List.forall_mem_cons.1 each
      obtain ⟨words, first⟩ := here.exists_words
      cases rest with
      | nil => exact ⟨words, .one first⟩
      | cons b rest =>
          obtain ⟨more, written⟩ := ih later (List.cons_ne_nil b rest)
          have keyword : isWord op.keyword op.keyword.toList = true := by cases op <;> decide
          exact ⟨_, .join first keyword written⟩

/-- The clauses of a rule are the words of its atoms, and all of its connectives are the same. -/
theorem Words.clauses (h : Words op atoms words) (each : ∀ a ∈ atoms, a.Writable) :
    ∃ runs, clauses words = (runs, List.replicate (atoms.length - 1) op) ∧
      readComparisons runs = .ok (atoms.map Atom.toExpr) := by
  induction h with
  | @one a words first =>
      have alone := clauses_of_plain (first.plain (each a List.mem_cons_self))
      exact ⟨_, alone, readComparisons_eq_ok_iff.2 (.cons first.readComparison .nil)⟩
  | @join a words first word keyword atoms more rest ih =>
      obtain ⟨here, later⟩ := List.forall_mem_cons.1 each
      obtain ⟨runs, split, read⟩ := ih later
      have some : atoms.length = atoms.length - 1 + 1 := by
        cases rest <;> simp
      refine ⟨words :: runs, ?_, ?_⟩
      · rw [clauses_append_cons (first.plain here) (connective?_of_isWord keyword), split,
          List.length_cons, Nat.add_sub_cancel, some, List.replicate_succ, Nat.add_sub_cancel]
      · exact readComparisons_eq_ok_iff.2
          (.cons first.readComparison (readComparisons_eq_ok_iff.1 read))

theorem Words.ofTokens {first : Atom} {others : List Atom} (h : Words op (first :: others) words)
    (each : ∀ a ∈ first :: others, a.Writable) :
    ofTokens words = .ok (chain op first.toExpr (others.map Atom.toExpr)) := by
  obtain ⟨runs, split, read⟩ := h.clauses each
  rw [List.length_cons, Nat.add_sub_cancel] at split
  have uniform : ((List.replicate others.length op).any
      fun o => some o != (List.replicate others.length op).head?) = false := by
    rw [List.any_eq_false]
    intro o member
    obtain ⟨more, rfl⟩ := List.mem_replicate.1 member
    simp [List.head?_replicate, more]
  simp only [Rule.ofTokens, split, uniform, Bool.false_eq_true, if_false, read]
  -- without a second atom there is no connective, and none is needed
  cases others with
  | nil => rfl
  | cons second rest => rfl

/-- A text without its blanks around it is read as the same. -/
theorem read_blanks_append {front back : List Char} (blank : Blanks front) (blank' : Blanks back)
    (cs : List Char) : read (String.ofList (front ++ cs ++ back)) = read (String.ofList cs) := by
  rw [← read_trimmed, ← read_trimmed (String.ofList cs), trimmed, trimmed, String.toList_ofList,
    String.toList_ofList, trim_append_blanks blank', trim_blanks_append blank]

theorem read_of_spaced {first : Atom} {others : List Atom} (h : Words op (first :: others) words)
    (each : ∀ a ∈ first :: others, a.Writable) {cs : List Char} (spaced : Spaced words cs) :
    read (String.ofList cs) = .ok (chain op first.toExpr (others.map Atom.toExpr)) := by
  have some : words.isEmpty = false := by cases spaced <;> rfl
  rw [read, String.toList_ofList, tokens_spaced spaced (h.isToken each), ← h.ofTokens each]
  show (if words.isEmpty = true then _ else _) = _
  rw [some, if_neg Bool.false_ne_true]

/-- Atoms that can be written are written in some way, and in whatever way they are, with any blanks
between the words and around them, they are read as the atoms joined from left to right. -/
theorem read_of_words {op : Connective} {first : Atom} {others : List Atom}
    (each : ∀ a ∈ first :: others, a.Writable) :
    (∃ words, Words op (first :: others) words) ∧
    ∀ words front cs back, Words op (first :: others) words → Spaced words cs → Blanks front →
      Blanks back → read (String.ofList (front ++ cs ++ back)) =
        .ok ((others.map Atom.toExpr).foldl (.join op) first.toExpr) := by
  refine ⟨exists_words each (List.cons_ne_nil first others), ?_⟩
  intro words front cs back written spaced blank blank'
  rw [read_blanks_append blank blank', read_of_spaced written each spaced]
  rfl

/-- A literal with a connective, two blanks and the other quote in it. -/
theorem read_of_words_decker :
    (∀ a ∈ [⟨"merchant", .equals, "Black AND  Decker's"⟩, ⟨"amount", .above, "5"⟩],
      Atom.Writable a) ∧
    read " merchant\tiS \"Black AND  Decker's\" and amount OVER '5'\n" =
      .ok (.join .and (.compare "merchant" .equals "Black AND  Decker's")
        (.compare "amount" .above "5")) := by
  have merchant : Atom.Writable ⟨"merchant", .equals, "Black AND  Decker's"⟩ :=
    ⟨by decide, fun _ first => by cases first; decide, fun op => by cases op <;> decide,
      '"', by decide, by decide⟩
  have amount : Atom.Writable ⟨"amount", .above, "5"⟩ :=
    ⟨by decide, fun _ first => by cases first; decide, fun op => by cases op <;> decide,
      '"', by decide, by decide⟩
  have each := List.forall_mem_cons.2 ⟨merchant, List.forall_mem_singleton.2 amount⟩
  have first : Atom.Words ⟨"merchant", .equals, "Black AND  Decker's"⟩ ["merchant".toList,
      "iS".toList, '"' :: "Black AND  Decker's".toList ++ ['"']] :=
    .intro (by decide) (Or.inl rfl) (by decide)
  have second : Atom.Words ⟨"amount", .above, "5"⟩ ["amount".toList, "OVER".toList,
      '\'' :: "5".toList ++ ['\'']] :=
    .intro (by decide) (Or.inr rfl) (by decide)
  have written := Words.join first (by decide : isWord Connective.and.keyword "and".toList = true)
    (.one second)
  have gap : Blanks [' '] := by decide
  have spaced := @Spaced.cons "merchant".toList ['\t'] _ _ (by decide) (by decide)
    (@Spaced.cons "iS".toList [' '] _ _ gap (by decide)
      (@Spaced.cons ('"' :: "Black AND  Decker's".toList ++ ['"']) [' '] _ _ gap (by decide)
        (@Spaced.cons "and".toList [' '] _ _ gap (by decide)
          (@Spaced.cons "amount".toList [' '] _ _ gap (by decide)
            (@Spaced.cons "OVER".toList [' '] _ _ gap (by decide)
              (.one ('\'' :: "5".toList ++ ['\''])))))))
  have read := (read_of_words each).2 _ [' '] _ ['\n'] written spaced gap (by decide)
  refine ⟨each, Eq.trans (congrArg Rule.read ?_) read⟩
  decide +kernel

end RecordInference.Rule
