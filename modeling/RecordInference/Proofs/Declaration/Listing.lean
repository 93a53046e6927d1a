import RecordInference.Proofs.Declaration.Bracket
import RecordInference.Proofs.Declaration.Growth
import RecordInference.Proofs.Declaration.Writing

/-!
# Programs as they are listed

A program without settings can be listed with one line for each of its parts (`Program.rows`): the
definitions with their fields below them, then the constructs of the pipeline, every keyword in
capitals and one blank between words. Each line is read as the part that it lists if the part is
regular and the lists in it are unbroken (`readField_row`, `topLine_row`), and only then
(`unbroken_of_readType`, `unbroken_of_readStep`).
-/

set_option autoImplicit false

namespace RecordInference

open Text Declaration

/-! ### Lines -/

/-- A line of words. -/
def row (words : List String) : List Char := [' '].intercalate (words.map String.toList)

/-- The words that name the resources of a step. -/
def InferenceStep.resourceNames (step : InferenceStep) : List String :=
  step.prompt.toList.flatMap (fun name => ["WITH", name]) ++
    step.examples.toList.flatMap fun name => ["USE", name]

/-- The words of a step behind its verb. -/
def InferenceStep.details (step : InferenceStep) : List String :=
  step.target :: (step.categories.toList.flatMap (fun values => ["INTO", bracketed values]) ++
    step.resourceNames)

/-- The words of a construct. Settings are not listed. -/
def Step.words : Step → List String
  | .source locator _ => ["FROM", locator]
  | .inference step => step.verb.keyword :: step.details
  | .rule expression _ => ["FLAG", "WHEN", expression]
  | .output locator _ => ["OUTPUT", locator]
  | .set _ _ => []

/-- The lines of a definition: its header, and its fields with `margin` blanks in front. -/
def Definition.rows (margin : Nat) (d : Definition) : List (List Char) :=
  row ["DEFINE", d.name ++ ":"] ::
    d.fields.map fun f => indented margin (row [f.name, f.type.written])

/-- The lines of a program. -/
def Program.rows (margin : Nat) (p : Program) : List (List Char) :=
  p.definitions.flatMap (Definition.rows margin) ++ p.pipeline.map fun step => row step.words

/-- The text of a program. -/
def Program.text (margin : Nat) (p : Program) : String := String.ofList (ofLines (p.rows margin))

/-- Whether the values of a type are told apart although there are brackets in them. -/
def FieldType.Unbroken : FieldType → Prop
  | .oneOf values => Declaration.Unbroken 0 (bracketed values).toList
  | _ => True

/-- Whether the categories of a step are told apart, and from the resources behind them. -/
def InferenceStep.Unbroken (step : InferenceStep) : Prop :=
  ∀ values, step.categories = some values → Declaration.Unbroken 0 (bracketed values).toList ∧
    (resources step ≠ [] → bracketDepth 0 (bracketed values).toList = 0)

/-- Whether the categories of a construct are told apart. -/
def Step.Unbroken : Step → Prop
  | .inference step => step.Unbroken
  | _ => True

namespace Declaration

variable {w : String} {words : List String}

/-! ### Words -/

theorem spaced_row (some : words ≠ []) : Spaced (words.map String.toList) (row words) :=
  spaced_intercalate fun none => some (List.map_eq_nil_iff.1 none)

theorem row_cons (w : String) (some : words ≠ []) :
    row (w :: words) = w.toList ++ [' '] ++ row words := by
  obtain ⟨w', rest, rfl⟩ := List.exists_cons_of_ne_nil some
  exact List.intercalate_cons_cons

theorem trimmed_row (some : words ≠ []) (trimmed : ∀ w ∈ words, Trimmed w.toList) :
    Trimmed (row words) := by
  apply (spaced_row some).trimmed
  intro v member
  obtain ⟨w, there, rfl⟩ := List.mem_map.1 member
  exact trimmed w there

/-- The first word of a line is the first of its words, and the others are left. -/
theorem firstWord_row (solid : Solid w.toList) (some : words ≠ [])
    (trimmed : ∀ w ∈ words, Trimmed w.toList) :
    firstWord (row (w :: words)) = (w.toList, row words) := by
  rw [row_cons w some, firstWord_append solid (List.forall_mem_singleton.2 (by decide))
    (List.cons_ne_nil _ _), (trimmed_row some trimmed).trimStart_eq]

/-- A line that opens with a keyword is a construct. -/
theorem topLine_of_keyword {keyword : Keyword} (solid : Solid w.toList)
    (opens : keyword? w.toList = some keyword) (some : words ≠ [])
    (trimmed : ∀ w ∈ words, Trimmed w.toList) (line indent : Nat) (s : State) :
    topLine line indent (row (w :: words)) s =
      construct line indent keyword (row (w :: words)) (row words) s := by
  rw [topLine, firstWord_row solid some trimmed]
  simp only [opens]

/-! ### Lists -/

theorem toList_bracketed (values : List String) : (bracketed values).toList =
    '[' :: [',', ' '].intercalate (values.map String.toList) ++ [']'] := by
  rw [bracketed, String.toList_append, String.toList_append, String.toList_intercalate]
  rfl

/-- The blanks behind the commas belong to the values behind them. -/
theorem intercalate_comma (w : List Char) (ws : List (List Char)) :
    [',', ' '].intercalate (w :: ws) = [','].intercalate (w :: ws.map (' ' :: ·)) := by
  induction ws generalizing w with
  | nil => rfl
  | cons next rest ih =>
      rw [List.intercalate_cons_cons, ih, List.map_cons, List.intercalate_cons_cons]
      cases rest with
      | nil => simp [List.intercalate_singleton]
      | cons other rest => simp [List.intercalate_cons_cons]

theorem listed_bracketed {values : List String} (some : values ≠ []) :
    Listed values (bracketed values).toList := by
  obtain ⟨value, rest, rfl⟩ := List.exists_cons_of_ne_nil some
  refine ⟨value.toList :: (rest.map String.toList).map (' ' :: ·), .cons ?_ ?_, ?_⟩
  · exact ⟨[], [], nofun, nofun, by simp⟩
  · rw [List.map_map, List.forall₂_map_right_iff]
    refine List.forall₂_same.2 fun value _ => ?_
    exact ⟨[' '], [], List.forall_mem_singleton.2 (by decide), nofun, by simp⟩
  · rw [toList_bracketed, List.map_cons, intercalate_comma]

theorem trimmed_bracketed (values : List String) : Trimmed (bracketed values).toList := by
  have first : Solid ['['] := by decide
  have last : Solid [']'] := by decide
  rw [toList_bracketed]
  exact last.trimmed.append first.trimmed _

theorem head?_bracketed (values : List String) : (bracketed values).toList.head? = some '[' := by
  rw [toList_bracketed]
  rfl

theorem getLast?_bracketed (values : List String) :
    (bracketed values).toList.getLast? = some ']' := by
  rw [toList_bracketed, List.getLast?_concat]

theorem oneLine_bracketed {values : List String} (choice : IsChoice values) :
    OneLine (bracketed values).toList := by
  refine ⟨trimmed_bracketed values, fun ending => ?_⟩
  have whole : ∀ value ∈ values, '\n' ∉ value.toList := fun value member =>
    (choice.plain value member).2
  obtain ⟨value, rest, rfl⟩ := List.exists_cons_of_ne_nil choice.some
  rw [toList_bracketed, List.map_cons, intercalate_comma] at ending
  simp only [List.cons_append, List.mem_cons, List.mem_append, List.not_mem_nil, or_false] at ending
  rcases ending with opening | inside | closing
  · cases opening
  · rcases mem_intercalate inside with comma | ⟨piece, there, inside⟩
    · cases comma
    · rcases List.mem_cons.1 there with rfl | later
      · exact whole value List.mem_cons_self inside
      · obtain ⟨cs, listed, rfl⟩ := List.mem_map.1 later
        obtain ⟨value', member, rfl⟩ := List.mem_map.1 listed
        rcases List.mem_cons.1 inside with blank | inside
        · cases blank
        · exact whole value' (List.mem_cons_of_mem _ member) inside
  · cases closing

/-! ### Types -/

theorem row_singleton (w : String) : row [w] = w.toList := List.intercalate_singleton

theorem written_listOf (d : String) :
    (FieldType.listOf d).written.toList = row ["LIST", "OF", d] := by
  rw [FieldType.written, String.toList_append, row_cons _ (List.cons_ne_nil _ _),
    row_cons _ (List.cons_ne_nil _ _), row_singleton]
  rfl

theorem written_oneOf (values : List String) :
    (FieldType.oneOf values).written.toList = row ["ONE", "OF", bracketed values] := by
  rw [FieldType.written, String.toList_append, row_cons _ (List.cons_ne_nil _ _),
    row_cons _ (List.cons_ne_nil _ _), row_singleton]
  rfl

theorem oneLine_row (some : words ≠ []) (each : ∀ w ∈ words, OneLine w.toList) :
    OneLine (row words) := by
  refine ⟨trimmed_row some fun w member => (each w member).1, fun ending => ?_⟩
  rcases mem_intercalate ending with blank | ⟨_, there, inside⟩
  · cases blank
  · obtain ⟨w, there', rfl⟩ := List.mem_map.1 there
    exact (each w there').2 inside

/-- A regular type is written on one line. -/
theorem oneLine_written {type : FieldType} (regular : type.Regular) :
    OneLine type.written.toList := by
  have two : ∀ {w w' v : String}, Solid w.toList → Solid w'.toList → OneLine v.toList →
      OneLine (row [w, w', v]) := by
    intro w w' v solid solid' oneLine
    apply oneLine_row (List.cons_ne_nil _ _)
    exact List.forall_mem_cons.2 ⟨oneLine_of_solid solid,
      List.forall_mem_cons.2 ⟨oneLine_of_solid solid', List.forall_mem_singleton.2 oneLine⟩⟩
  cases type with
  | text | money | number | yesNo => exact oneLine_of_solid (by decide)
  | oneOf values =>
      rw [written_oneOf]
      exact two (by decide) (by decide) (oneLine_bracketed regular)
  | listOf d =>
      rw [written_listOf]
      exact two (by decide) (by decide) (oneLine_of_isIdentifier regular)
  | object d => exact oneLine_of_isIdentifier regular.1

theorem tokens_oneOf (values : List String) :
    tokens (FieldType.oneOf values).written.toList =
      "ONE".toList :: "OF".toList :: tokens (bracketed values).toList := by
  have spaced : Spaced (["ONE".toList, "OF".toList] ++ [(bracketed values).toList])
      (row ["ONE", "OF", bracketed values]) := @spaced_row ["ONE", "OF", _] (List.cons_ne_nil _ _)
  have one : IsToken "ONE".toList := .of_solid (by decide) (by decide)
  have of : IsToken "OF".toList := .of_solid (by decide) (by decide)
  rw [written_oneOf]
  exact tokens_append_spaced spaced
    (List.forall_mem_cons.2 ⟨one, List.forall_mem_singleton.2 of⟩)

/-- A list of values is read as it is written, if they are told apart. -/
theorem readType_oneOf {values : List String} (enumeration : IsEnumeration values)
    (unbroken : (FieldType.oneOf values).Unbroken) :
    readType (FieldType.oneOf values).written.toList = .ok (.oneOf values) := by
  have alone := tokens_of_unbroken (trimmed_bracketed values).1 unbroken
  have words := tokens_oneOf values
  rw [alone] at words
  simp only [readType, words, readList_of_listed enumeration (listed_bracketed enumeration.some)]
  rfl

/-- A regular type is read as it is written, if its values are told apart. -/
theorem readType_written {type : FieldType} (regular : type.Regular) (unbroken : type.Unbroken) :
    readType type.written.toList = .ok type := by
  cases type with
  | text => exact readType_of_words (.text (w := "TEXT".toList) rfl) trivial (.one _)
  | money => exact readType_of_words (.money (w := "MONEY".toList) rfl) trivial (.one _)
  | number => exact readType_of_words (.number (w := "NUMBER".toList) rfl) trivial (.one _)
  | yesNo => exact readType_of_words (.yesNo (w := "YES/NO".toList) (Or.inl rfl)) trivial (.one _)
  | oneOf values =>
      have choice : IsChoice values := regular
      exact readType_oneOf choice.isEnumeration unbroken
  | listOf d =>
      rw [written_listOf]
      have words : TypeWords (.listOf d) ["LIST".toList, "OF".toList, d.toList] := .listOf rfl rfl
      exact readType_of_words words regular (@spaced_row ["LIST", "OF", d] (List.cons_ne_nil _ _))
  | object d => exact readType_of_words (.object d) regular (.one _)

/-- If a type is read at all, its values are told apart. -/
theorem unbroken_of_readType {type type' : FieldType}
    (read : readType type.written.toList = .ok type') : type.Unbroken := by
  cases type with
  | text | money | number | yesNo | listOf | object => trivial
  | oneOf values =>
      simp only [readType, tokens_oneOf] at read
      split at read
      · next same => cases same
      · split at read
        · cases read
        · cases read
      · next token same =>
        -- the list is the last of the three words of the type
        simp only [List.cons.injEq] at same
        obtain ⟨rfl, rfl, alone⟩ := same
        obtain ⟨values', list, -⟩ := Except.map_eq_ok_iff.1 read
        have whole : tokens ((bracketed values).toList ++ []) = [token] := by
          rw [List.append_nil, alone]
        exact (unbroken_of_readList (head?_bracketed values) (getLast?_bracketed values)
          (by decide) whole list (List.forall_mem_nil _)).1
      · cases read

/-- The line of a field is read as the field, as far as its type is read. -/
theorem readField_row {f : Field} (regular : f.Regular) (line : Nat) :
    readField line (row [f.name, f.type.written]) =
      (readType f.type.written.toList).map fun type => ⟨f.name, type, line⟩ := by
  have written := (oneLine_written regular.type).1
  have split : firstWord (row [f.name, f.type.written]) =
      (f.name.toList, f.type.written.toList) := by
    rw [firstWord_row (.of_isIdentifier regular.name) (List.cons_ne_nil _ _)
      (List.forall_mem_singleton.2 written), row_singleton]
  have some : f.type.written.toList.isEmpty = false := List.isEmpty_eq_false_iff.2 written.1
  simp only [readField, split, regular.name, some, Bool.not_true, Bool.false_eq_true, if_false,
    String.ofList_toList]

/-! ### Steps -/

theorem solid_keyword (verb : Verb) : Solid verb.keyword.toList := by
  cases verb with
  | extract | classify | draft => decide

theorem resourceWords_names (step : InferenceStep) :
    ResourceWords (resources step) (step.resourceNames.map String.toList) := by
  have with_ : IsResourceWord .prompt "WITH".toList := Or.inl rfl
  have use : IsResourceWord .examples "USE".toList := rfl
  obtain ⟨verb, target, categories, prompt, examples, line⟩ := step
  cases prompt with
  | none =>
      cases examples with
      | none => exact .nil
      | some examples => exact .cons use .nil
  | some prompt =>
      cases examples with
      | none => exact .cons with_ .nil
      | some examples => exact .cons with_ (.cons use .nil)

/-- A word that opens a construct has no brackets. -/
theorem plain_of_keyword? {cs : List Char} {keyword : Keyword}
    (opens : keyword? cs = some keyword) : Plain cs := by
  simp only [keyword?] at opens
  split_ifs at opens with define set source extract classify draft prompt examples flag output
  · exact .of_isWord define (by decide)
  · exact .of_isWord set (by decide)
  · exact .of_isWord source (by decide)
  · exact .of_isWord extract (by decide)
  · exact .of_isWord classify (by decide)
  · exact .of_isWord draft (by decide)
  · rcases Bool.or_eq_true_iff.1 prompt with word | word
    · exact .of_isWord word (by decide)
    · exact .of_isWord word (by decide)
  · exact .of_isWord examples (by decide)
  · exact .of_isWord flag (by decide)
  · exact .of_isWord output (by decide)

theorem plain_of_isResourceName {cs : List Char} (name : isResourceName cs = true) : Plain cs :=
  fun _ member => (ne_of_isNameChar ((isNameChar_of_isResourceName name).2 _ member)).2

/-- The tokens that name resources have no brackets. -/
theorem plain_of_modify {ts : List (List Char)} {step step' : InferenceStep}
    (modified : modify ts step = .ok step') : ∀ t ∈ ts, Plain t := by
  fun_induction modify ts step with
  | case1 => exact List.forall_mem_nil _
  | case2 | case3 | case4 | case5 | case7 => cases modified
  | case6 token name rest step kind word named free ih =>
      have found : isResourceName name = true := by simpa using named
      exact List.forall_mem_cons.2 ⟨plain_of_keyword? word,
        List.forall_mem_cons.2 ⟨plain_of_isResourceName found, ih modified⟩⟩

theorem ResourceWords.plain {resources : List (ResourceKind × String)} {ws : List (List Char)}
    (h : ResourceWords resources ws)
    (named : ∀ r ∈ resources, isResourceName r.2.toList = true) : ∀ w ∈ ws, Plain w := by
  induction h with
  | nil => exact nofun
  | cons word rest ih =>
      obtain ⟨here, later⟩ := List.forall_mem_cons.1 named
      exact List.forall_mem_cons.2 ⟨plain_of_keyword? word.reads.2.2.1,
        List.forall_mem_cons.2 ⟨plain_of_isResourceName here, ih later⟩⟩

/-- What stands behind a word of a line. -/
def behind (words : List String) : List Char := if words = [] then [] else ' ' :: row words

theorem row_cons_eq (w : String) (words : List String) :
    row (w :: words) = w.toList ++ behind words := by
  rw [behind]
  split
  · next none => rw [none, row_singleton, List.append_nil]
  · next some => rw [row_cons w some, List.append_assoc, List.singleton_append]

theorem plain_behind (plain : ∀ w ∈ words, Plain w.toList) : Plain (behind words) := by
  rw [behind]
  split
  · exact nofun
  · refine List.forall_mem_cons.2 ⟨by decide, fun c member => ?_⟩
    rcases mem_intercalate member with rfl | ⟨_, there, inside⟩
    · decide
    · obtain ⟨w, listed, rfl⟩ := List.mem_map.1 there
      exact plain w listed c inside

/-- The resources of a regular step fit it. -/
theorem fits_of_regular {step : InferenceStep} (regular : step.Regular) :
    Fits (resources step) (bare step) := fits_resources regular.prompt regular.examples

theorem plain_resourceNames {step : InferenceStep} (regular : step.Regular) :
    ∀ w ∈ step.resourceNames, Plain w.toList := by
  intro w member
  have named := (fits_of_regular regular).named
  exact (resourceWords_names step).plain named _ (List.mem_map_of_mem member)

theorem isToken_target {step : InferenceStep} (regular : step.Regular) :
    IsToken step.target.toList := .of_isIdentifier regular.target.1

/-- The tokens of a step with categories, of which the last is followed by the resources. -/
theorem tokens_of_categories {step : InferenceStep} (regular : step.Regular) {values : List String}
    (some : step.categories = some values) : tokens (row step.details) =
      step.target.toList :: "INTO".toList ::
        tokens ((bracketed values).toList ++ behind step.resourceNames) := by
  have into : IsToken "INTO".toList := .of_solid (by decide) (by decide)
  have words : step.details =
      step.target :: "INTO" :: bracketed values :: step.resourceNames := by
    rw [InferenceStep.details, some]
    rfl
  have spaced : Spaced ([step.target.toList, "INTO".toList] ++
      [(bracketed values).toList ++ behind step.resourceNames]) (row step.details) := by
    rw [words, row_cons _ (List.cons_ne_nil _ _), row_cons _ (List.cons_ne_nil _ _), row_cons_eq]
    have gap : Blanks [' '] := List.forall_mem_singleton.2 (by decide)
    exact .cons _ gap (List.cons_ne_nil _ _) (.cons _ gap (List.cons_ne_nil _ _) (.one _))
  exact tokens_append_spaced spaced (List.forall_mem_cons.2 ⟨isToken_target regular,
    List.forall_mem_singleton.2 into⟩)

theorem isToken_resourceNames {step : InferenceStep} (regular : step.Regular) :
    ∀ w ∈ step.resourceNames.map String.toList, IsToken w :=
  (resourceWords_names step).isToken (fits_of_regular regular).named

theorem resourceNames_eq_nil_iff {step : InferenceStep} :
    step.resourceNames = [] ↔ resources step = [] := by
  have words := resourceWords_names step
  constructor
  · intro none
    rw [none] at words
    generalize resources step = named at words
    cases words
    rfl
  · intro none
    rw [none] at words
    generalize same : step.resourceNames.map String.toList = names at words
    cases words
    exact List.map_eq_nil_iff.1 same

/-- The line of a step is read as the step, if its categories are told apart. -/
theorem readStep_row {step : InferenceStep} (regular : step.Regular) (unbroken : step.Unbroken) :
    readStep step.line step.verb (row step.details) = .ok step := by
  have named := resourceWords_names step
  have isTarget : isTarget step.target.toList = true := by
    obtain ⟨identifier, opens, into⟩ := regular.target
    rw [Declaration.isTarget, identifier, opens, into]
    rfl
  have whole := withResources_resources step
  cases categories : step.categories with
  | none =>
      have words : step.details = step.target :: step.resourceNames := by
        rw [InferenceStep.details, categories]
        rfl
      have split : tokens (row step.details) =
          [step.target.toList] ++ step.resourceNames.map String.toList := by
        rw [words]
        exact tokens_spaced (spaced_row (List.cons_ne_nil _ _))
          (List.forall_mem_cons.2 ⟨isToken_target regular, isToken_resourceNames regular⟩)
      rw [readStep_of_tokens (.alone categories) named isTarget regular.categories
        (fits_of_regular regular) split, whole]
  | some values =>
      obtain ⟨inside, closed⟩ := unbroken values categories
      have choice := (regular.categories values categories).2
      have list : tokens ((bracketed values).toList ++ behind step.resourceNames) =
          (bracketed values).toList :: step.resourceNames.map String.toList := by
        by_cases none : resources step = []
        · rw [resourceNames_eq_nil_iff.2 none]
          show tokens ((bracketed values).toList ++ []) = _
          rw [List.append_nil, tokens_of_unbroken (trimmed_bracketed values).1 inside]
          rfl
        · -- behind a list that closes its brackets the resources are words of their own
          have token := IsToken.of_unbroken (trimmed_bracketed values) inside (closed none)
          rw [← row_cons_eq]
          exact tokens_spaced (spaced_row (List.cons_ne_nil _ _))
            (List.forall_mem_cons.2 ⟨token, isToken_resourceNames regular⟩)
      have split : tokens (row step.details) =
          [step.target.toList, "INTO".toList, (bracketed values).toList] ++
            step.resourceNames.map String.toList := by
        rw [tokens_of_categories regular categories, list]
        rfl
      have target : TargetWords step
          [step.target.toList, "INTO".toList, (bracketed values).toList] :=
        .into categories rfl (listed_bracketed choice.some)
      rw [readStep_of_tokens target named isTarget regular.categories (fits_of_regular regular)
        split, whole]

/-- If a step is read at all, its categories are told apart. -/
theorem unbroken_of_readStep {step step' : InferenceStep} (regular : step.Regular) {line : Nat}
    (read : readStep line step.verb (row step.details) = .ok step') : step.Unbroken := by
  intro values categories
  have classifies := (regular.categories values categories).1
  have into : isWord "INTO" "INTO".toList = true := rfl
  simp only [readStep, tokens_of_categories regular categories, classifies, into] at read
  split at read
  · cases read
  · simp only [decide_true, Bool.and_self, if_true] at read
    split at read
    · cases read
    · next token more split =>
      obtain ⟨values', list, modified⟩ := Except.bind_eq_ok_iff.1 read
      have plain := plain_behind (plain_resourceNames regular)
      have others : ∀ t ∈ more, ']' ∉ t := fun t member inside =>
        (plain_of_modify modified t member _ inside).2 rfl
      obtain ⟨inside, closed⟩ := unbroken_of_readList (head?_bracketed values)
        (getLast?_bracketed values) plain split list others
      refine ⟨inside, fun some => closed ?_⟩
      rw [behind, if_neg fun none => some (resourceNames_eq_nil_iff.1 none)]
      exact List.cons_ne_nil _ _

/-! ### Constructs -/

theorem keyword?_verb (verb : Verb) : keyword? verb.keyword.toList = some (.step verb) := by
  cases verb with
  | extract | classify | draft => decide

/-- The words that name a resource are each on one line. -/
theorem oneLine_named {keyword : String} (solid : Solid keyword.toList) {resource : Option String}
    (named : ∀ name, resource = some name → isResourceName name.toList = true) :
    ∀ w ∈ resource.toList.flatMap fun name => [keyword, name], OneLine w.toList := by
  intro w member
  obtain ⟨name, there, inside⟩ := List.mem_flatMap.1 member
  rcases List.mem_cons.1 inside with rfl | last
  · exact oneLine_of_solid solid
  · rw [List.mem_singleton.1 last]
    apply oneLine_of_solid
    exact .of_isResourceName (named name (Option.mem_toList.1 there))

theorem oneLine_details {step : InferenceStep} (regular : step.Regular) :
    ∀ w ∈ step.details, OneLine w.toList := by
  refine List.forall_mem_cons.2 ⟨oneLine_of_isIdentifier regular.target.1, ?_⟩
  refine List.forall_mem_append.2 ⟨?_, ?_⟩
  · intro w member
    obtain ⟨values, there, inside⟩ := List.mem_flatMap.1 member
    have choice := (regular.categories values (Option.mem_toList.1 there)).2
    rcases List.mem_cons.1 inside with rfl | list
    · exact oneLine_of_solid (by decide)
    · rw [List.mem_singleton.1 list]
      exact oneLine_bracketed choice
  · exact List.forall_mem_append.2 ⟨oneLine_named (by decide) regular.prompt,
      oneLine_named (by decide) regular.examples⟩

theorem topLine_of_verb {step : InferenceStep} (regular : step.Regular) (line indent : Nat)
    (s : State) : topLine line indent (row (step.verb.keyword :: step.details)) s =
      (readStep line step.verb (row step.details)).map fun step =>
        State.push { s with inRun := false } (.inference step) := by
  have some : step.details ≠ [] := List.cons_ne_nil _ _
  rw [topLine_of_keyword (solid_keyword step.verb) (keyword?_verb step.verb) some
    fun w member => (oneLine_details regular w member).1]
  simp only [construct, reduceCtorEq, if_false]

/-- The line of a construct adds it to the pipeline, if its categories are told apart. -/
theorem topLine_row {step : Step} (regular : step.Regular) (unbroken : step.Unbroken)
    (listed : step.isSet = false) (indent : Nat) (s : State) :
    topLine step.line indent (row step.words) s =
      .ok (State.push { s with inRun := false } step) := by
  cases step with
  | source locator line =>
      have oneLine : OneLine locator.toList := regular
      rw [Step.words, topLine_of_keyword (by decide) rfl (List.cons_ne_nil _ _)
        (List.forall_mem_singleton.2 oneLine.1), row_singleton]
      simp only [construct, required_of_trimmed oneLine.1, Except.map, reduceCtorEq, if_false]
      rfl
  | output locator line =>
      have oneLine : OneLine locator.toList := regular
      rw [Step.words, topLine_of_keyword (by decide) rfl (List.cons_ne_nil _ _)
        (List.forall_mem_singleton.2 oneLine.1), row_singleton]
      simp only [construct, required_of_trimmed oneLine.1, Except.map, reduceCtorEq, if_false]
      rfl
  | rule expression line =>
      have oneLine : OneLine expression.toList := regular
      have when_ : Solid "WHEN".toList := by decide
      have words : ∀ w ∈ ["WHEN", expression], Trimmed w.toList :=
        List.forall_mem_cons.2 ⟨when_.trimmed, List.forall_mem_singleton.2 oneLine.1⟩
      have split := firstWord_row when_ (List.cons_ne_nil expression [])
        (List.forall_mem_singleton.2 oneLine.1)
      rw [row_singleton] at split
      rw [Step.words, topLine_of_keyword (by decide) rfl (List.cons_ne_nil _ _) words]
      simp only [construct, readCondition, split, required_of_trimmed oneLine.1, Except.map,
        reduceCtorEq, if_false]
      rfl
  | inference step =>
      rw [Step.words, topLine_of_verb regular]
      have read : readStep (Step.inference step).line step.verb (row step.details) = .ok step :=
        readStep_row regular unbroken
      rw [read]
      rfl
  | set => cases listed

/-- If the line of a construct is taken up at all, its categories are told apart. -/
theorem unbroken_of_topLine {step : Step} (regular : step.Regular) {line indent : Nat}
    {s s' : State} (taken : topLine line indent (row step.words) s = .ok s') : step.Unbroken := by
  cases step with
  | source | output | rule | set => trivial
  | inference step =>
      rw [Step.words, topLine_of_verb regular] at taken
      obtain ⟨step', read, -⟩ := Except.map_eq_ok_iff.1 taken
      exact unbroken_of_readStep regular read

/-- The header of a definition opens it. -/
theorem topLine_header {name : String} (identifier : isIdentifier name.toList = true) {s : State}
    (fresh : name ∉ s.definitions.map (·.name)) (line indent : Nat) :
    topLine line indent (row ["DEFINE", name ++ ":"]) s =
      .ok { s with block := some ⟨indent, ⟨name, [], line⟩⟩, inRun := false } := by
  have titled : Titled name.toList (name ++ ":").toList := by
    refine ⟨[], [':'], nofun, List.forall_mem_singleton.2 rfl, fun _ => rfl, ?_⟩
    rw [String.toList_append, List.append_nil]
    rfl
  have opens : Statement.Opens ⟨line, indent, row ["DEFINE", name ++ ":"]⟩ ⟨name, [], line⟩ :=
    ⟨rfl, "DEFINE".toList, _, rfl, titled,
      @spaced_row ["DEFINE", name ++ ":"] (List.cons_ne_nil _ _)⟩
  exact topLine_of_opens opens identifier fresh

end Declaration

end RecordInference
