import Mathlib.Data.List.Nodup
import RecordInference.Declaration.Token
import RecordInference.Proofs.Outcome
import RecordInference.Proofs.Text.Line
import RecordInference.Proofs.Text.Word

/-!
# Tokens and lists as they are written

A word without brackets is a token, and so is a list in brackets, with any blanks around its values
(`IsToken.of_solid`, `IsToken.of_listed`). The tokens of a text with blanks between such words are the
words (`tokens_spaced`), and the values of a list that is `Listed` are read back
(`readList_of_listed`). Only lists written so are read (`listed_of_readList`).
-/

set_option autoImplicit false

namespace RecordInference.Declaration

open Text

variable {cs w gap : List Char}

/-! ### Tokens -/

/-- The text has no brackets. -/
def Plain (cs : List Char) : Prop := ∀ c ∈ cs, c ≠ '[' ∧ c ≠ ']'

instance (cs : List Char) : Decidable (Plain cs) :=
  decidable_of_iff ((cs.all fun c => c != '[' && c != ']') = true) (by simp [Plain])

/-- Whether a text is a token: there are no blanks around it, and the brackets that it opens it
closes, so that a line goes on after it as from the start. -/
def IsToken (w : List Char) : Prop :=
  Trimmed w ∧ ∀ cs, tokensFrom 0 (w ++ cs) = (w ++ (tokensFrom 0 cs).1, (tokensFrom 0 cs).2)

/-- The characters that are neither brackets nor blank stay in the current token. -/
theorem tokensFrom_append {depth : Nat} (plain : Plain w)
    (inside : depth = 0 → ∀ c ∈ w, isBlank c = false) (cs : List Char) :
    tokensFrom depth (w ++ cs) = (w ++ (tokensFrom depth cs).1, (tokensFrom depth cs).2) := by
  induction w with
  | nil => rfl
  | cons c rest ih =>
      obtain ⟨⟨opening, closing⟩, plain⟩ := List.forall_mem_cons.1 plain
      have kept : (isBlank c && decide (depth = 0)) = false := by
        by_cases outside : depth = 0
        · rw [inside outside c List.mem_cons_self, Bool.false_and]
        · rw [decide_eq_false outside, Bool.and_false]
      have ih := ih plain fun outside d member => inside outside d (List.mem_cons_of_mem c member)
      simp only [List.cons_append, tokensFrom, kept, Bool.false_eq_true, if_false, if_neg opening,
        if_neg closing, ih]

theorem IsToken.of_solid (solid : Solid w) (plain : Plain w) : IsToken w :=
  ⟨solid.trimmed, tokensFrom_append plain fun _ => solid.2⟩

theorem IsToken.of_isNameChar (h : w ≠ [] ∧ ∀ c ∈ w, isNameChar c = true) : IsToken w :=
  .of_solid ⟨h.1, fun c member => isBlank_of_isNameChar (h.2 c member)⟩
    fun c member => (ne_of_isNameChar (h.2 c member)).2

theorem IsToken.of_isIdentifier (h : isIdentifier w = true) : IsToken w :=
  .of_isNameChar (isNameChar_of_isIdentifier h)

theorem IsToken.of_isResourceName (h : isResourceName w = true) : IsToken w :=
  .of_isNameChar (isNameChar_of_isResourceName h)

theorem Plain.of_isWord {keyword : String} (h : isWord keyword w = true)
    (plain : Plain keyword.toList) : Plain w := by
  have same : w.map Char.toUpper = keyword.toList := by simpa [isWord, upper] using h
  intro c member
  have inside : c.toUpper ∈ keyword.toList := same ▸ List.mem_map_of_mem member
  obtain ⟨opening, closing⟩ := plain _ inside
  refine ⟨?_, ?_⟩
  · rintro rfl
    exact opening rfl
  · rintro rfl
    exact closing rfl

/-- A keyword without brackets is a token, in whatever case it is written. -/
theorem IsToken.of_isWord {keyword : String} (h : isWord keyword w = true)
    (solid : Solid keyword.toList) (plain : Plain keyword.toList) : IsToken w :=
  .of_solid (.of_isWord h solid) (.of_isWord h plain)

/-- What stands between brackets may have blanks. -/
theorem IsToken.of_brackets (plain : Plain w) : IsToken ('[' :: w ++ [']']) := by
  have first : Solid ['['] := by decide
  have last : Solid [']'] := by decide
  refine ⟨last.trimmed.append first.trimmed w, fun cs => ?_⟩
  have opening : tokensFrom 0 ('[' :: (w ++ ']' :: cs)) =
      ('[' :: (tokensFrom 1 (w ++ ']' :: cs)).1, (tokensFrom 1 (w ++ ']' :: cs)).2) := rfl
  have closing : tokensFrom 1 (']' :: cs) = (']' :: (tokensFrom 0 cs).1, (tokensFrom 0 cs).2) := rfl
  have inner := @tokensFrom_append w 1 plain nofun (']' :: cs)
  simp only [List.cons_append, List.append_assoc, List.nil_append, opening, inner, closing]

/-- Blanks end the current token. -/
theorem tokensFrom_gap (blank : Blanks gap) (more : gap ≠ []) (cs : List Char) :
    tokensFrom 0 (gap ++ cs) = ([], tokens cs) := by
  induction gap with
  | nil => exact absurd rfl more
  | cons b rest ih =>
      obtain ⟨first, others⟩ := List.forall_mem_cons.1 blank
      have ends : (isBlank b && decide (0 = 0)) = true := by rw [first]; rfl
      rw [List.cons_append, tokensFrom, ends, if_pos rfl]
      cases rest with
      | nil => rfl
      | cons b' rest =>
          rw [ih others (List.cons_ne_nil b' rest)]
          rfl

theorem joinToken_of_ne (token : w ≠ []) (ws : List (List Char)) : joinToken w ws = w :: ws := by
  rw [joinToken, if_neg (by simpa using token)]

/-- The tokens of a text are its words. -/
theorem tokens_spaced {words : List (List Char)} (h : Spaced words cs)
    (token : ∀ w ∈ words, IsToken w) : tokens cs = words := by
  induction h with
  | one w =>
      obtain ⟨trimmed, ends⟩ := token w (List.mem_singleton_self w)
      have alone := ends []
      rw [List.append_nil] at alone
      rw [tokens, alone]
      show joinToken (w ++ []) [] = [w]
      rw [List.append_nil, joinToken_of_ne trimmed.1]
  | cons w blank more rest ih =>
      obtain ⟨⟨trimmed, ends⟩, others⟩ := List.forall_mem_cons.1 token
      rw [tokens, List.append_assoc, ends, tokensFrom_gap blank more, ih others]
      show joinToken (w ++ []) _ = _
      rw [List.append_nil, joinToken_of_ne trimmed.1]

theorem mem_of_mem_joinToken {t token : List Char} {ws : List (List Char)}
    (h : t ∈ joinToken token ws) : t = token ∨ t ∈ ws := by
  rw [joinToken] at h
  split at h
  · exact Or.inr h
  · exact List.mem_cons.1 h

theorem tokensFrom_subset (depth : Nat) (cs : List Char) :
    (tokensFrom depth cs).1 ⊆ cs ∧ ∀ t ∈ (tokensFrom depth cs).2, t ⊆ cs := by
  induction cs generalizing depth with
  | nil => exact ⟨List.Subset.refl [], nofun⟩
  | cons c rest ih =>
      rw [tokensFrom]
      split
      · obtain ⟨token, others⟩ := ih 0
        refine ⟨List.nil_subset _, ?_⟩
        intro t member
        apply List.subset_cons_of_subset
        rcases mem_of_mem_joinToken member with rfl | later
        · exact token
        · exact others t later
      · obtain ⟨token, others⟩ :=
          ih (if c = '[' then depth + 1 else if c = ']' then depth - 1 else depth)
        exact ⟨List.cons_subset_cons c token, fun t later =>
          List.subset_cons_of_subset c (others t later)⟩

/-- A token has no characters of its own. -/
theorem subset_of_mem_tokens {t : List Char} (h : t ∈ tokens cs) : t ⊆ cs := by
  obtain ⟨token, others⟩ := tokensFrom_subset 0 cs
  rcases mem_of_mem_joinToken h with rfl | later
  · exact token
  · exact others t later

/-! ### Lists -/

/-- Whether a value may stand in a list: no blanks around it, and nothing in it that ends a value, a
list or a line. -/
structure IsListValue (value : List Char) : Prop where
  trimmed : Trimmed value
  plain : ∀ c ∈ value, c ≠ ',' ∧ c ≠ '[' ∧ c ≠ ']' ∧ c ≠ '\n'

/-- Whether values can be put into a list: there are some, they differ, and each is a text without
blanks around it and without commas. -/
structure IsEnumeration (values : List String) : Prop where
  some : values ≠ []
  distinct : values.Nodup
  trimmed : ∀ value ∈ values, Trimmed value.toList
  plain : ∀ value ∈ values, ',' ∉ value.toList

/-- Whether values can be chosen from: there are some, they differ, and each is a text on one line
without blanks around it and without commas. -/
structure IsChoice (values : List String) : Prop where
  some : values ≠ []
  distinct : values.Nodup
  trimmed : ∀ value ∈ values, Trimmed value.toList
  plain : ∀ value ∈ values, ',' ∉ value.toList ∧ '\n' ∉ value.toList

theorem IsChoice.isEnumeration {values : List String} (choice : IsChoice values) :
    IsEnumeration values :=
  ⟨choice.some, choice.distinct, choice.trimmed, fun value member => (choice.plain value member).1⟩

/-- Whether values make a list. -/
structure IsList (values : List String) : Prop where
  some : values ≠ []
  distinct : values.Nodup
  each : ∀ value ∈ values, IsListValue value.toList

theorem IsList.isChoice {values : List String} (list : IsList values) : IsChoice values := by
  refine ⟨list.some, list.distinct, fun value member => (list.each value member).trimmed, ?_⟩
  intro value member
  have plain := (list.each value member).plain
  exact ⟨fun comma => (plain _ comma).1 rfl, fun ending => (plain _ ending).2.2.2 rfl⟩

/-- A value with any blanks around it. -/
def Padded (value piece : List Char) : Prop :=
  ∃ bs bs', Blanks bs ∧ Blanks bs' ∧ piece = bs ++ value ++ bs'

/-- A list of values as it is written: in brackets, with commas between the values and any blanks
around them. -/
def Listed (values : List String) (cs : List Char) : Prop :=
  ∃ pieces, List.Forall₂ (fun value piece => Padded value.toList piece) values pieces ∧
    cs = '[' :: [','].intercalate pieces ++ [']']

theorem Padded.trim_eq {value piece : List Char} (h : Padded value piece) (trimmed : Trimmed value) :
    trim piece = value := by
  obtain ⟨bs, bs', blank, blank', rfl⟩ := h
  rw [trim_append_blanks blank', trim_blanks_append blank, trimmed.2]

theorem Padded.plain {value piece : List Char} (h : Padded value piece) {stop : Char}
    (plain : stop ∉ value) (solid : isBlank stop = false) : stop ∉ piece := by
  obtain ⟨bs, bs', blank, blank', rfl⟩ := h
  have apart : ∀ {bs : List Char}, Blanks bs → stop ∉ bs := fun blank member =>
    Bool.false_ne_true (solid.symm.trans (blank stop member))
  simp [plain, apart blank, apart blank']

/-- Values that differ are taken up one after the other. -/
theorem distinctValues_of_padded (token : List Char) {values : List String}
    {pieces : List (List Char)}
    (padded : List.Forall₂ (fun value piece => Padded value.toList piece) values pieces)
    (seen : List String) (distinct : (seen ++ values).Nodup)
    (each : ∀ value ∈ values, Trimmed value.toList) :
    distinctValues token seen pieces = .ok (seen ++ values) := by
  induction padded generalizing seen with
  | nil => rw [distinctValues, List.append_nil]
  | @cons value piece values pieces first others ih =>
      obtain ⟨trimmed, each⟩ := List.forall_mem_cons.1 each
      have same : String.ofList (trim piece) = value := by
        rw [first.trim_eq trimmed, String.ofList_toList]
      have some : value.isEmpty ≠ true := by
        intro none
        rw [String.isEmpty_iff] at none
        exact trimmed.1 (by rw [none]; rfl)
      -- so the check for a value that was seen before passes
      have fresh : value ∉ seen := fun member =>
        (List.nodup_append.1 distinct).2.2 value member value List.mem_cons_self rfl
      rw [distinctValues]
      simp only [same, if_neg some, if_neg fresh]
      rw [ih (seen ++ [value]) (by rwa [List.append_assoc]) each, List.append_assoc,
        List.singleton_append]

/-- A list is read as it was written. -/
theorem readList_of_listed {values : List String} (enumeration : IsEnumeration values)
    (h : Listed values cs) : readList cs = .ok values := by
  obtain ⟨pieces, padded, rfl⟩ := h
  have inner : unbracket? ('[' :: [','].intercalate pieces ++ [']']) =
      some ([','].intercalate pieces) := by
    rw [List.cons_append, unbracket?, List.getLast?_concat, if_pos rfl, List.dropLast_concat]
  have some : pieces ≠ [] := by
    rintro rfl
    cases padded
    exact enumeration.some rfl
  have split : splitOn ',' ([','].intercalate pieces) = pieces := by
    refine splitOn_intercalate some fun piece member => ?_
    obtain ⟨value, there, padded⟩ := padded.exists_left piece member
    exact padded.plain (enumeration.plain value there) (by decide)
  rw [readList, inner]
  simp only [split]
  exact distinctValues_of_padded _ padded [] enumeration.distinct enumeration.trimmed

/-- The values of a list are those seen before and the pieces without the blanks around them. They
differ, and no piece is blank. -/
theorem eq_of_distinctValues {token : List Char} {seen values : List String}
    {pieces : List (List Char)} (read : distinctValues token seen pieces = .ok values)
    (distinct : seen.Nodup) :
    values = seen ++ pieces.map (fun piece => String.ofList (trim piece)) ∧ values.Nodup ∧
      ∀ piece ∈ pieces, trim piece ≠ [] := by
  induction pieces generalizing seen with
  | nil =>
      cases read
      exact ⟨(List.append_nil _).symm, distinct, List.forall_mem_nil _⟩
  | cons piece rest ih =>
      simp only [distinctValues] at read
      split at read
      · cases read
      · next more =>
        split at read
        · cases read
        · next fresh =>
          -- the piece without the blanks around it is one more value
          have distinct : (seen ++ [String.ofList (trim piece)]).Nodup := by
            rw [← List.concat_eq_append]
            exact .concat fresh distinct
          obtain ⟨rfl, differ, others⟩ := ih read distinct
          refine ⟨?_, differ, List.forall_mem_cons.2 ⟨by simpa using more, others⟩⟩
          rw [List.append_assoc, List.singleton_append, List.map_cons]

theorem eq_of_unbracket? {token inner : List Char} (h : unbracket? token = some inner) :
    token = '[' :: inner ++ [']'] := by
  unfold unbracket? at h
  split at h
  · split at h
    · next last =>
      cases h
      rw [List.cons_append, List.dropLast_append_getLast? _ last]
    · cases h
  · cases h

/-- The values of a list that is read are the pieces between its brackets. -/
theorem exists_of_readList {values : List String} (read : readList cs = .ok values) :
    ∃ inner, cs = '[' :: inner ++ [']'] ∧
      values = (splitOn ',' inner).map (fun piece => String.ofList (trim piece)) ∧
      values.Nodup ∧ ∀ piece ∈ splitOn ',' inner, trim piece ≠ [] := by
  rw [readList] at read
  split at read
  · cases read
  · next inner inside => exact ⟨inner, eq_of_unbracket? inside, eq_of_distinctValues read List.nodup_nil⟩

theorem isEnumeration_of_readList {values : List String} (read : readList cs = .ok values) :
    IsEnumeration values := by
  obtain ⟨inner, -, rfl, distinct, more⟩ := exists_of_readList read
  refine ⟨fun none => splitOn_ne_nil _ _ (List.map_eq_nil_iff.1 none), distinct, ?_, ?_⟩
  · intro value member
    obtain ⟨piece, there, rfl⟩ := List.mem_map.1 member
    rw [String.toList_ofList]
    exact .of_trim (more piece there)
  · intro value member comma
    obtain ⟨piece, there, rfl⟩ := List.mem_map.1 member
    rw [String.toList_ofList] at comma
    exact not_mem_of_mem_splitOn there (trim_subset piece comma)

/-- A list that is read has its values between its brackets, with commas between them. -/
theorem listed_of_readList {values : List String} (read : readList cs = .ok values) :
    Listed values cs := by
  obtain ⟨inner, rfl, rfl, -⟩ := exists_of_readList read
  refine ⟨splitOn ',' inner, ?_, by rw [intercalate_splitOn]⟩
  rw [List.forall₂_map_left_iff, List.forall₂_same]
  intro piece _
  obtain ⟨bs, bs', blank, blank', split⟩ := exists_append_trim piece
  rw [String.toList_ofList]
  exact ⟨bs, bs', blank, blank', split.symm⟩

/-- The values of a list that is read on one line can be chosen from. -/
theorem isChoice_of_readList {values : List String} (read : readList cs = .ok values)
    (whole : '\n' ∉ cs) : IsChoice values := by
  have enumeration := isEnumeration_of_readList read
  refine ⟨enumeration.some, enumeration.distinct, enumeration.trimmed, ?_⟩
  intro value member
  refine ⟨enumeration.plain value member, fun ending => whole ?_⟩
  obtain ⟨inner, rfl, rfl, -⟩ := exists_of_readList read
  obtain ⟨piece, there, rfl⟩ := List.mem_map.1 member
  rw [String.toList_ofList] at ending
  have inside := subset_of_mem_splitOn there (trim_subset piece ending)
  exact List.mem_append_left _ (List.mem_cons_of_mem _ inside)

theorem IsToken.of_listed {values : List String} (list : IsList values) (h : Listed values cs) :
    IsToken cs := by
  obtain ⟨pieces, padded, rfl⟩ := h
  refine .of_brackets fun c member => ?_
  rcases mem_intercalate member with rfl | ⟨piece, there, inside⟩
  · decide
  · obtain ⟨value, here, padded⟩ := padded.exists_left piece there
    have plain := (list.each value here).plain
    refine ⟨?_, ?_⟩
    · rintro rfl
      exact padded.plain (fun own => (plain _ own).2.1 rfl) (by decide) inside
    · rintro rfl
      exact padded.plain (fun own => (plain _ own).2.2.1 rfl) (by decide) inside

/-! ### Types -/

/-- Whether a type can be written: its values make a list, and the name of a definition is an
identifier that is no type by itself. -/
def IsType : FieldType → Prop
  | .oneOf values => IsList values
  | .listOf d => isIdentifier d.toList = true
  | .object d => isIdentifier d.toList = true ∧ isWord "TEXT" d.toList = false ∧
      isWord "MONEY" d.toList = false ∧ isWord "NUMBER" d.toList = false ∧
      isWord "BOOL" d.toList = false
  | _ => True

/-- The words that write a type. -/
inductive TypeWords : FieldType → List (List Char) → Prop where
  | text {w : List Char} : isWord "TEXT" w = true → TypeWords .text [w]
  | money {w : List Char} : isWord "MONEY" w = true → TypeWords .money [w]
  | number {w : List Char} : isWord "NUMBER" w = true → TypeWords .number [w]
  | yesNo {w : List Char} : isWord "YES/NO" w = true ∨ isWord "BOOL" w = true →
      TypeWords .yesNo [w]
  | oneOf {one of list : List Char} {values : List String} : isWord "ONE" one = true →
      isWord "OF" of = true → Listed values list → TypeWords (.oneOf values) [one, of, list]
  | listOf {list of : List Char} {d : String} : isWord "LIST" list = true →
      isWord "OF" of = true → TypeWords (.listOf d) [list, of, d.toList]
  | object (d : String) : TypeWords (.object d) [d.toList]

theorem TypeWords.ne_nil {type : FieldType} {words : List (List Char)} (h : TypeWords type words) :
    words ≠ [] := by
  cases h with
  | text | money | number | yesNo | oneOf | listOf | object => exact List.cons_ne_nil _ _

theorem TypeWords.isToken {type : FieldType} {words : List (List Char)} (h : TypeWords type words)
    (isType : IsType type) : ∀ w ∈ words, IsToken w := by
  cases h with
  | text word | money word | number word =>
      exact List.forall_mem_singleton.2 (.of_isWord word (by decide) (by decide))
  | yesNo word =>
      refine List.forall_mem_singleton.2 ?_
      rcases word with word | word
      · exact .of_isWord word (by decide) (by decide)
      · exact .of_isWord word (by decide) (by decide)
  | oneOf one of listed =>
      exact List.forall_mem_cons.2 ⟨.of_isWord one (by decide) (by decide),
        List.forall_mem_cons.2 ⟨.of_isWord of (by decide) (by decide),
          List.forall_mem_singleton.2 (.of_listed isType listed)⟩⟩
  | listOf list of =>
      exact List.forall_mem_cons.2 ⟨.of_isWord list (by decide) (by decide),
        List.forall_mem_cons.2 ⟨.of_isWord of (by decide) (by decide),
          List.forall_mem_singleton.2 (.of_isIdentifier isType)⟩⟩
  | object d => exact List.forall_mem_singleton.2 (.of_isIdentifier isType.1)

/-- No identifier is the word with a slash. -/
theorem isWord_yesNo_of_isIdentifier (h : isIdentifier w = true) : isWord "YES/NO" w = false := by
  by_contra word
  rw [Bool.not_eq_false] at word
  have same : w.map Char.toUpper = "YES/NO".toList := by simpa [isWord, upper] using word
  have slash : '/' ∈ w.map Char.toUpper := same ▸ (by decide)
  obtain ⟨c, member, eq⟩ := List.mem_map.1 slash
  have name := (isNameChar_of_isIdentifier h).2 c member
  have bound : c.toNat < 123 := Nat.lt_succ_of_le (toNat_of_isNameChar name).2.1
  have none : ∀ n : Fin 123, isNameChar (Char.ofNat n) = true → (Char.ofNat n).toUpper ≠ '/' := by
    decide
  refine none ⟨c.toNat, bound⟩ ?_ ?_
  · rwa [Char.ofNat_toNat]
  · rwa [Char.ofNat_toNat]

/-- A type is read as it was written. -/
theorem readType_of_words {type : FieldType} {words : List (List Char)} (h : TypeWords type words)
    (isType : IsType type) (spaced : Spaced words cs) : readType cs = .ok type := by
  have tokens := tokens_spaced spaced (h.isToken isType)
  cases h with
  | text word => simp [readType, tokens, word]
  | money word | number word => simp [readType, tokens, word, isWord_of_isWord word]
  | yesNo word =>
      rcases word with word | word
      · simp [readType, tokens, word, isWord_of_isWord word]
      · simp [readType, tokens, word, isWord_of_isWord word]
  | oneOf one of listed =>
      have list : IsEnumeration _ := (IsList.isChoice isType).isEnumeration
      simp only [readType, tokens, one, of, readList_of_listed list listed, Bool.and_self, if_true]
      rfl
  | listOf list of =>
      have name : isIdentifier _ = true := isType
      simp [readType, tokens, isWord_of_isWord list, of, name]
  | object d =>
      obtain ⟨name, text, money, number, bool⟩ := isType
      simp [readType, tokens, name, text, money, number, bool, isWord_yesNo_of_isIdentifier name]

end RecordInference.Declaration
