import RecordInference.Proofs.Plan.Naming
import RecordInference.Proofs.Rule.Writing

/-!
# Fields that a rule can name

A field of a record is written in a rule as its path. Paths have neither blanks nor quotes, so a path
is one token, and a rule names the field unless the path is a connective (`read_of_dotted`). A rule
cannot open with a connective, so a field with such a name is out of reach of any rule of this form
(`read_of_joining`). No name of a field is refused for that by a declaration, which gives the exact
condition for the fields that it produces (`Plan.read_of_lookup?`).
-/

set_option autoImplicit false

namespace RecordInference

namespace Rule

open Text

variable {path literal : String} {word cs : List Char}

/-- The words of a rule that compares a field with a literal in double quotes. -/
def equalsWords (path : List Char) (word : List Char) (literal : String) : List (List Char) :=
  [path, word, '"' :: literal.toList ++ ['"']]

/-- Whether a name is a connective, in any case of letters. -/
def IsConnective (name : List Char) : Prop := ∃ op : Connective, isWord op.keyword name = true

/-- Only a field of the record itself can have such a name: no path with a dot is a connective. -/
theorem not_isConnective_of_dot {path : List Char} (dot : '.' ∈ path) : ¬ IsConnective path := by
  rintro ⟨op, same⟩
  have mapped : Char.toUpper '.' ∈ upper path := List.mem_map_of_mem dot
  rw [show upper path = op.keyword.toList from eq_of_beq same] at mapped
  cases op with
  | and => exact absurd mapped (by decide)
  | or => exact absurd mapped (by decide)

/-- A path opens with a letter or an underscore, so with no quote. -/
theorem not_isQuote_of_dotted {path : List Char} (h : Dotted path) :
    ∀ c ∈ path.head?, ¬ IsQuote c := by
  intro c first opens
  have name := h.isNameChar c (List.mem_of_head? first)
  rcases opens with rfl | rfl
  · cases name
  · cases name

/-- A path that is no connective is read as the field of the comparison. -/
theorem read_of_dotted (dotted : Dotted path.toList) (free : ¬ IsConnective path.toList)
    (plain : '"' ∉ literal.toList) (keyword : isWord "IS" word = true)
    (spaced : Spaced (equalsWords path.toList word literal) cs) :
    read (String.ofList cs) = .ok (.compare path .equals literal) := by
  let atom : Atom := ⟨path, .equals, literal⟩
  have writable : atom.Writable := by
    refine ⟨dotted.solid, not_isQuote_of_dotted dotted, ?_, '"', Or.inl rfl, plain⟩
    intro op
    exact eq_false_of_ne_true fun same => free ⟨op, same⟩
  have words : atom.Words (equalsWords path.toList word literal) := .intro keyword (Or.inl rfl) plain
  -- there is no connective in the rule, so either will do
  have single : Words .and [atom] (equalsWords path.toList word literal) := .one words
  exact read_of_spaced single (List.forall_mem_singleton.2 writable) spaced

/-- What opens with a connective is no rule. -/
theorem read_of_joining {token : List Char} {words : List (List Char)} {op : Connective}
    (joins : connective? token = some op) (plain : ∀ w ∈ words, connective? w = none)
    (isToken : ∀ w ∈ token :: words, IsToken w) (spaced : Spaced (token :: words) cs) :
    read (String.ofList cs) = .error .missingCondition := by
  have cut : tokens cs = .ok (token :: words) := tokens_spaced spaced isToken
  have runs : clauses (token :: words) = ([[], words], [op]) := by
    rw [clauses_cons_of_some joins, clauses_of_plain plain]
  have fault : ofTokens (token :: words) = .error .missingCondition := by
    simp only [ofTokens, runs]
    simp [readComparisons, readComparison, bind, Except.bind]
  rw [read, String.toList_ofList, cut]
  exact fault

/-- A field whose name is a connective is read as the connective. -/
theorem read_of_isConnective {path : List Char} (joins : IsConnective path)
    (plain : '"' ∉ literal.toList) (keyword : isWord "IS" word = true)
    (spaced : Spaced (equalsWords path word literal) cs) :
    read (String.ofList cs) = .error .missingCondition := by
  obtain ⟨op, same⟩ := joins
  have notJoining : connective? word = none := by
    apply connective?_eq_none
    intro op
    rw [isWord_of_isWord keyword]
    cases op <;> decide
  have literalToken : IsToken ('"' :: literal.toList ++ ['"']) := .of_quoted (Or.inl rfl) plain
  have literalPlain : connective? ('"' :: literal.toList ++ ['"']) = none :=
    connective?_eq_none (isWord_of_isQuote (Or.inl rfl) _)
  apply read_of_joining (connective?_of_isWord same) ?_ ?_ spaced
  · simp only [List.forall_mem_cons]
    exact ⟨notJoining, literalPlain, nofun⟩
  · simp only [List.forall_mem_cons]
    exact ⟨Connective.isToken same, Comparison.isToken (c := .equals) keyword, literalToken, nofun⟩

end Rule

namespace Plan

open Text Rule

/-- A rule that compares any field of a declaration with a literal without a double quote, in double
quotes, is read as that comparison, unless the path of the field is a connective in some case of
letters. A rule for a field of such a name is refused. No field of an object has such a path. -/
theorem read_of_lookup? {text : String} {loader : Loader} {plan : Plan}
    (planned : ofDeclaration text loader = .ok plan) {path : String} {schema : Schema}
    (found : Schema.lookup? plan.shape path = some schema) {literal : String}
    (plain : '"' ∉ literal.toList) {word cs : List Char} (keyword : isWord "IS" word = true)
    (spaced : Spaced (equalsWords path.toList word literal) cs) :
    (¬ IsConnective path.toList →
      Rule.read (String.ofList cs) = .ok (.compare path .equals literal)) ∧
    (IsConnective path.toList → Rule.read (String.ofList cs) = .error .missingCondition) ∧
    ('.' ∈ path.toList → ¬ IsConnective path.toList) := by
  refine ⟨?_, ?_, not_isConnective_of_dot⟩
  · intro free
    have dotted := Schema.dotted_of_lookup? (named_of_ofDeclaration planned) found
    exact read_of_dotted dotted free plain keyword spaced
  · intro joins
    exact read_of_isConnective joins plain keyword spaced

/-- A field of an object, with a literal that has a connective in it. -/
theorem read_of_lookup?_holder :
    let text := "DEFINE person\n  name TEXT\nDEFINE claim\n  holder person\nEXTRACT claim"
    ∃ plan schema, ofDeclaration text (.ofTexts [] []) = .ok plan ∧
      Schema.lookup? plan.shape "holder.name" = some schema ∧
      Rule.read "holder.name iS \"Black OR White\"" =
        .ok (.compare "holder.name" .equals "Black OR White") := by
  intro text
  have compiled : (ofDeclaration text (.ofTexts [] [])).toOption.map
      (fun plan => (Schema.lookup? plan.shape "holder.name").isSome) = some true := by
    decide +kernel
  obtain ⟨plan, planned, some⟩ := Option.map_eq_some_iff.1 compiled
  rw [Except.toOption_eq_some_iff] at planned
  obtain ⟨schema, found⟩ := Option.isSome_iff_exists.1 some
  have gap : Blanks [' '] := by decide
  have spaced : Spaced (equalsWords "holder.name".toList "iS".toList "Black OR White")
      "holder.name iS \"Black OR White\"".toList :=
    .cons "holder.name".toList gap (List.cons_ne_nil _ _)
      (.cons "iS".toList gap (List.cons_ne_nil _ _) (.one "\"Black OR White\"".toList))
  obtain ⟨read, -, dotted⟩ := read_of_lookup? planned found (by decide) (by decide) spaced
  exact ⟨plan, schema, planned, found, read (dotted (by decide))⟩

/-- A draft under the name of a connective, which no such rule can name. -/
theorem exists_field_unread :
    ∃ plan, ofDeclaration "DRAFT or" (.ofTexts [] []) = .ok plan ∧
      (Schema.lookup? plan.shape "or").map Schema.describe = some "text" ∧
      Rule.read "or IS \"x\"" = .error .missingCondition := by
  have compiled : (ofDeclaration "DRAFT or" (.ofTexts [] [])).toOption.map
      (fun plan => (Schema.lookup? plan.shape "or").map Schema.describe) = some (some "text") := by
    decide +kernel
  obtain ⟨plan, planned, found⟩ := Option.map_eq_some_iff.1 compiled
  exact ⟨plan, Except.toOption_eq_some_iff.1 planned, found, rfl⟩

end Plan

end RecordInference
