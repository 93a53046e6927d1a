import RecordInference.Json.Printer
import RecordInference.Json.Reader
import RecordInference.Proofs.Decimal.Distinct
import RecordInference.Proofs.Outcome

/-!
# JSON texts have one reading

What the compact text of a value leaves open is only which double it was that is not finite, since
all of them are written `null`: values with the same text are the same but for that
(`shown_of_compact`).

Reading takes back what quoting writes (`stringBody_quoted`), so a quoted text ends where its closing
quote stands. A word ends at the next mark, and different words show different values
(`WordOf.shown_eq`): numbers have letters of their own, integers have no fraction and doubles have
one. Lists and objects are then read element by element (`readable`).
-/

set_option autoImplicit false

namespace RecordInference.Json

open Decimal

/-! ### What a text shows -/

mutual

/-- The value that a text shows: numbers that are not finite are lost. -/
def shown : Json → Json
  | .float x => if x.isFinite then .float x else .null
  | .arr items => .arr (shownItems items)
  | .obj members => .obj (shownMembers members)
  | v => v

/-- The elements as a text shows them. -/
def shownItems : List Json → List Json
  | [] => []
  | v :: rest => shown v :: shownItems rest

/-- The members as a text shows them. -/
def shownMembers : List (String × Json) → List (String × Json)
  | [] => []
  | (k, v) :: rest => (k, shown v) :: shownMembers rest

end

theorem shownItems_eq_map (items : List Json) : shownItems items = items.map shown := by
  induction items with
  | nil => rfl
  | cons v rest ih => rw [shownItems, ih, List.map_cons]

theorem shownMembers_eq_map (members : List (String × Json)) :
    shownMembers members = members.map fun m => (m.1, m.2.shown) := by
  induction members with
  | nil => rfl
  | cons m rest ih => rw [shownMembers, ih, List.map_cons]

/-! ### Quoted texts -/

theorem hexValue?_hexDigit : ∀ n : Fin 16, hexValue? (hexDigit n) = some n.val := by decide

/-- A control character is read from its four digits. -/
theorem hexFour?_control {n : Nat} (small : n < 0x20) :
    hexFour? '0' '0' (hexDigit (n / 16)) (hexDigit (n % 16)) = some n := by
  have high := hexValue?_hexDigit ⟨n / 16, by omega⟩
  have low := hexValue?_hexDigit ⟨n % 16, by omega⟩
  simp only [hexFour?, high, low, show hexValue? '0' = some 0 from rfl, bind, Option.bind]
  exact congrArg some (by omega)

variable {cs cs' rest text : List Char} {c d : Char}

theorem stringBody_backslash (escaped : ∃ shorter, escape cs' = .ok ⟨d, cs, shorter⟩)
    (read : ∃ shorter, stringBody cs = .ok ⟨text, rest, shorter⟩) :
    ∃ shorter, stringBody ('\\' :: cs') = .ok ⟨d :: text, rest, shorter⟩ := by
  obtain ⟨shorter, escaped⟩ := escaped
  obtain ⟨shorter', read⟩ := read
  refine ⟨Nat.lt_succ_of_lt (Nat.lt_trans shorter' shorter), ?_⟩
  rw [stringBody, if_neg (by decide), if_pos rfl, escaped]
  simp only [read]

theorem stringBody_plain (quote : c ≠ '"') (backslash : c ≠ '\\') (printable : ¬ c.toNat < 0x20)
    (read : ∃ shorter, stringBody cs = .ok ⟨text, rest, shorter⟩) :
    ∃ shorter, stringBody (c :: cs) = .ok ⟨c :: text, rest, shorter⟩ := by
  obtain ⟨shorter, read⟩ := read
  refine ⟨Nat.lt_succ_of_lt shorter, ?_⟩
  rw [stringBody, if_neg quote, if_neg backslash, if_neg printable, read]

theorem escape_letter (cs : List Char) (letter : letter? c = some d) :
    ∃ shorter, escape (c :: cs) = .ok ⟨d, cs, shorter⟩ := by
  have other : c ≠ 'u' := by
    rintro rfl
    cases letter
  refine ⟨Nat.lt_succ_self _, ?_⟩
  rw [escape, letter]
  exact fun same => other same

theorem escape_control (cs : List Char) {n : Nat} (small : n < 0x20) : ∃ shorter,
    escape ('u' :: '0' :: '0' :: hexDigit (n / 16) :: hexDigit (n % 16) :: cs) =
      .ok ⟨Char.ofNat n, cs, shorter⟩ := by
  refine ⟨by simp only [List.length_cons]; omega, ?_⟩
  have low : ¬ (0xDC00 ≤ n) := by omega
  have high : ¬ (0xD800 ≤ n) := by omega
  simp only [escape, hexDigits, hexFour?_control small, low, high, decide_false, Bool.false_and,
    Bool.false_eq_true, if_false]

/-- A character stands in a quoted text as a letter behind a backslash, as the digits of a control
character, or as it is. -/
theorem escaped_cases (c : Char) :
    (∃ l, escaped c = ['\\', l] ∧ letter? l = some c) ∨
    (c.toNat < 0x20 ∧ escaped c =
      ['\\', 'u', '0', '0', hexDigit (c.toNat / 16), hexDigit (c.toNat % 16)]) ∨
    (c ≠ '"' ∧ c ≠ '\\' ∧ ¬ c.toNat < 0x20) ∧ escaped c = [c] := by
  rw [escaped]
  split
  · next same => exact Or.inl ⟨'"', rfl, congrArg some same.symm⟩
  next quote =>
  split
  · next same => exact Or.inl ⟨'\\', rfl, congrArg some same.symm⟩
  next backslash =>
  split
  · next same => exact Or.inl ⟨'n', rfl, congrArg some same.symm⟩
  split
  · next same => exact Or.inl ⟨'r', rfl, congrArg some same.symm⟩
  split
  · next same => exact Or.inl ⟨'t', rfl, congrArg some same.symm⟩
  split
  · next same => exact Or.inl ⟨'b', rfl, congrArg some same.symm⟩
  split
  · next same => exact Or.inl ⟨'f', rfl, congrArg some same.symm⟩
  split
  · next control => exact Or.inr (Or.inl ⟨control, rfl⟩)
  · next printable => exact Or.inr (Or.inr ⟨⟨quote, backslash, printable⟩, rfl⟩)

/-- A character is read as it stands in a quoted text. -/
theorem stringBody_escaped (c : Char)
    (read : ∃ shorter, stringBody cs = .ok ⟨text, rest, shorter⟩) :
    ∃ shorter, stringBody (escaped c ++ cs) = .ok ⟨c :: text, rest, shorter⟩ := by
  rcases escaped_cases c with ⟨l, eq, letter⟩ | ⟨control, eq⟩ | ⟨⟨quote, backslash, printable⟩, eq⟩
  · rw [eq]
    exact stringBody_backslash (escape_letter cs letter) read
  · rw [eq]
    have escaped := escape_control cs control
    rw [Char.ofNat_toNat] at escaped
    exact stringBody_backslash escaped read
  · rw [eq]
    exact stringBody_plain quote backslash printable read

/-- Reading gives back a text that was quoted, and what stands behind it. -/
theorem stringBody_quoted (text rest : List Char) : ∃ shorter,
    stringBody (text.flatMap escaped ++ '"' :: rest) = .ok ⟨text, rest, shorter⟩ := by
  induction text with
  | nil =>
      refine ⟨Nat.lt_succ_self _, ?_⟩
      show stringBody ('"' :: rest) = _
      rw [stringBody, if_pos rfl]
  | cons c text ih =>
      rw [List.flatMap_cons, List.append_assoc]
      exact stringBody_escaped c ih

/-- A quoted text ends where its closing quote stands. -/
theorem quoted_append_inj {s s' : String} {rest rest' : List Char}
    (same : quoted s ++ rest = quoted s' ++ rest') : s = s' ∧ rest = rest' := by
  obtain ⟨shorter, read⟩ := stringBody_quoted s.toList rest
  obtain ⟨shorter', read'⟩ := stringBody_quoted s'.toList rest'
  have body : s.toList.flatMap escaped ++ '"' :: rest =
      s'.toList.flatMap escaped ++ '"' :: rest' := by
    simpa [quoted] using same
  generalize s.toList.flatMap escaped ++ '"' :: rest = cs at body shorter read
  subst body
  rw [read', Except.ok.injEq, Taken.mk.injEq, String.toList_inj] at read
  exact ⟨read.1.symm, read.2.symm⟩

/-! ### Words -/

/-- Whether a character may stand in a number. -/
def isNumeral (c : Char) : Bool := c.isDigit || c = '-' || c = '+' || c = '.' || c = 'e'

/-- Whether a character may stand beside a word. -/
def isMark (c : Char) : Bool :=
  c = ',' || c = ':' || c = '"' || c = '[' || c = ']' || c = '{' || c = '}'

theorem isMark_of_isNumeral {c : Char} (h : isNumeral c = true) : isMark c = false := by
  rw [Bool.eq_false_iff]
  intro mark
  simp only [isMark, Bool.or_eq_true, decide_eq_true_eq] at mark
  rcases mark with (((((rfl | rfl) | rfl) | rfl) | rfl) | rfl) | rfl
  all_goals cases h

theorem isNumeral_of_isDigit {c : Char} (h : c.isDigit = true) : isNumeral c = true := by
  simp [isNumeral, h]

theorem isNumeral_toDigits (n : Nat) : ∀ c ∈ Nat.toDigits 10 n, isNumeral c = true :=
  fun c member => isNumeral_of_isDigit (isDigit_toDigits n c member)

theorem isNumeral_intChars (i : Int) : ∀ c ∈ intChars i, isNumeral c = true := by
  rw [intChars, List.forall_mem_append]
  refine ⟨?_, isNumeral_toDigits _⟩
  split
  · exact List.forall_mem_singleton.2 rfl
  · exact List.forall_mem_nil _

theorem isNumeral_magnitude (l : Layout) (d : Digits) :
    ∀ c ∈ l.magnitude d, isNumeral c = true := by
  have digits := isNumeral_toDigits d.digits
  have zeros : ∀ n, ∀ c ∈ Layout.zeros n, isNumeral c = true := fun n c member =>
    isNumeral_of_isDigit (Layout.isDigit_zeros n c member)
  simp only [Layout.magnitude]
  generalize d.exponent + (Nat.toDigits 10 d.digits).length - 1 = e
  generalize Nat.toDigits 10 d.digits = ds at digits
  split
  · rw [Layout.plain]
    split
    · exact List.forall_mem_append.2 ⟨List.forall_mem_append.2 ⟨List.all_eq_true.1 rfl, zeros _⟩,
        digits⟩
    · dsimp only
      split
      · refine List.forall_mem_append.2 ⟨List.forall_mem_append.2 ⟨digits, zeros _⟩, ?_⟩
        split
        · exact List.all_eq_true.1 rfl
        · exact List.forall_mem_nil _
      · refine List.forall_mem_append.2 ⟨fun c member => digits c (List.mem_of_mem_take member), ?_⟩
        exact List.forall_mem_cons.2 ⟨rfl, fun c member => digits c (List.mem_of_mem_drop member)⟩
  · refine List.forall_mem_append.2 ⟨?_, List.forall_mem_cons.2 ⟨rfl, List.forall_mem_cons.2 ⟨?_,
      isNumeral_toDigits _⟩⟩⟩
    · rcases ds with _ | ⟨d, _ | ⟨d', rest⟩⟩
      · exact digits
      · exact digits
      · obtain ⟨first, others⟩ := List.forall_mem_cons.1 digits
        exact List.forall_mem_cons.2 ⟨first, List.forall_mem_cons.2 ⟨rfl, others⟩⟩
    · split <;> rfl

/-- Where whole numbers keep a fraction the text of a decimal has a point or an exponent. -/
theorem point_or_exponent {l : Layout} (fraction : l.pointZero = true) (d : Digits) :
    '.' ∈ l.magnitude d ∨ 'e' ∈ l.magnitude d := by
  simp only [Layout.magnitude]
  split
  · refine Or.inl ?_
    rw [Layout.plain]
    split
    · simp
    · dsimp only
      split
      · simp
      · simp
  · refine Or.inr ?_
    simp [Layout.scientific]

theorem floatChars_eq {x : Float} (finite : x.isFinite = true) : floatChars x =
    (if Layout.signed x then ['-'] else []) ++ numberLayout.magnitude (numberLayout.digitsOf x) := by
  rw [floatChars, if_pos finite, Layout.write_of_isFinite _ finite]

theorem isNumeral_floatChars {x : Float} (finite : x.isFinite = true) :
    ∀ c ∈ floatChars x, isNumeral c = true := by
  rw [floatChars_eq finite, List.forall_mem_append]
  refine ⟨?_, isNumeral_magnitude _ _⟩
  split
  · exact List.forall_mem_singleton.2 rfl
  · exact List.forall_mem_nil _

/-- Integers are written without a fraction, and doubles with one. -/
theorem intChars_ne_floatChars (i : Int) {x : Float} (finite : x.isFinite = true) :
    intChars i ≠ floatChars x := by
  intro same
  have signs : ∀ c ∈ intChars i, c = '-' ∨ c.isDigit = true := by
    rw [intChars, List.forall_mem_append]
    refine ⟨?_, fun c member => Or.inr (isDigit_toDigits _ c member)⟩
    split
    · exact List.forall_mem_singleton.2 (Or.inl rfl)
    · exact List.forall_mem_nil _
  rw [same, floatChars_eq finite, List.forall_mem_append] at signs
  rcases point_or_exponent (l := numberLayout) rfl (numberLayout.digitsOf x) with point | exponent
  · exact absurd (signs.2 _ point) (by decide)
  · exact absurd (signs.2 _ exponent) (by decide)

theorem intChars_inj {i j : Int} (same : intChars i = intChars j) : i = j := by
  obtain ⟨c, cs, eq, -, unsigned⟩ := exists_toDigits_eq_cons i.natAbs
  obtain ⟨c', cs', eq', -, unsigned'⟩ := exists_toDigits_eq_cons j.natAbs
  have digits : ∀ {m n : Nat}, Nat.toDigits 10 m = Nat.toDigits 10 n → m = n := by
    intro m n same
    rw [← digitsValue_toDigits m, same, digitsValue_toDigits]
  rw [intChars, intChars] at same
  by_cases negative : i < 0
  · by_cases negative' : j < 0
    · rw [if_pos negative, if_pos negative'] at same
      have := digits (List.cons.inj same).2
      omega
    · rw [if_pos negative, if_neg negative', eq'] at same
      exact absurd (List.cons.inj same).1.symm unsigned'
  · by_cases negative' : j < 0
    · rw [if_neg negative, if_pos negative', eq] at same
      exact absurd (List.cons.inj same).1 unsigned
    · rw [if_neg negative, if_neg negative'] at same
      have := digits same
      omega

/-- Whether a value is written as a word. -/
def isWord : Json → Bool
  | .str _ | .arr _ | .obj _ => false
  | _ => true

/-- A word shows a value of letters, an integer or a finite double. -/
inductive WordOf (v : Json) : Prop
  | letters (u : Json) (which : u = .null ∨ u = .bool true ∨ u = .bool false)
      (shows : v.shown = u) (text : chars v = chars u)
  | int (i : Int) (shows : v.shown = .int i) (text : chars v = intChars i)
  | float (x : Float) (finite : x.isFinite = true) (shows : v.shown = .float x)
      (text : chars v = floatChars x)

theorem wordOf_isWord {v : Json} (word : v.isWord = true) : WordOf v := by
  cases v with
  | null => exact .letters .null (Or.inl rfl) rfl rfl
  | bool b =>
      cases b with
      | true => exact .letters (.bool true) (Or.inr (Or.inl rfl)) rfl rfl
      | false => exact .letters (.bool false) (Or.inr (Or.inr rfl)) rfl rfl
  | int i => exact .int i rfl rfl
  | float x =>
      by_cases finite : x.isFinite = true
      · exact .float x finite (if_pos finite) rfl
      · exact .letters .null (Or.inl rfl) (if_neg finite) (if_neg finite)
  | str | arr | obj => cases word

/-- A word has a character, and none that may stand beside a word. -/
theorem WordOf.chars {v : Json} (h : WordOf v) :
    chars v ≠ [] ∧ ∀ c ∈ chars v, isMark c = false := by
  cases h with
  | letters u which shows text =>
      rw [text]
      have apart : Json.chars u ≠ [] ∧ (Json.chars u).all (fun c => !isMark c) = true := by
        rcases which with rfl | rfl | rfl <;> decide
      exact ⟨apart.1, fun c member => by simpa using List.all_eq_true.1 apart.2 c member⟩
  | int i shows text =>
      rw [text]
      refine ⟨?_, fun c member => isMark_of_isNumeral (isNumeral_intChars i c member)⟩
      exact List.append_ne_nil_of_right_ne_nil _ Nat.toDigits_ne_nil
  | float x finite shows text =>
      rw [text]
      refine ⟨?_, fun c member => isMark_of_isNumeral (isNumeral_floatChars finite c member)⟩
      obtain ⟨c, cs, opens, -⟩ :=
        Layout.exists_magnitude_eq_cons numberLayout (numberLayout.digitsOf x)
      rw [floatChars_eq finite, opens]
      exact List.append_ne_nil_of_right_ne_nil _ (List.cons_ne_nil _ _)

/-- Letters are no number. -/
theorem letters_ne_number {u : Json} (which : u = .null ∨ u = .bool true ∨ u = .bool false)
    {cs : List Char} (number : ∀ c ∈ cs, isNumeral c = true) : Json.chars u ≠ cs := by
  rintro rfl
  rcases which with rfl | rfl | rfl
  · exact absurd (number 'n' (by decide)) (by decide)
  · exact absurd (number 't' (by decide)) (by decide)
  · exact absurd (number 'f' (by decide)) (by decide)

/-- Words with the same text show the same. -/
theorem WordOf.shown_eq {v w : Json} (h : WordOf v) (h' : WordOf w)
    (same : Json.chars v = Json.chars w) : v.shown = w.shown := by
  cases h with
  | letters u which shows text =>
      rw [text] at same
      cases h' with
      | letters u' which' shows' text' =>
          rw [text'] at same
          rw [shows, shows']
          rcases which with rfl | rfl | rfl <;> rcases which' with rfl | rfl | rfl
          all_goals first | rfl | cases same
      | int i' shows' text' =>
          rw [text'] at same
          exact absurd same (letters_ne_number which (isNumeral_intChars i'))
      | float x' finite' shows' text' =>
          rw [text'] at same
          exact absurd same (letters_ne_number which (isNumeral_floatChars finite'))
  | int i shows text =>
      rw [text] at same
      cases h' with
      | letters u' which' shows' text' =>
          rw [text'] at same
          exact absurd same.symm (letters_ne_number which' (isNumeral_intChars i))
      | int i' shows' text' =>
          rw [text'] at same
          rw [shows, shows', intChars_inj same]
      | float x' finite' shows' text' =>
          rw [text'] at same
          exact absurd same (intChars_ne_floatChars i finite')
  | float x finite shows text =>
      rw [text] at same
      cases h' with
      | letters u' which' shows' text' =>
          rw [text'] at same
          exact absurd same.symm (letters_ne_number which' (isNumeral_floatChars finite))
      | int i' shows' text' =>
          rw [text'] at same
          exact absurd same.symm (intChars_ne_floatChars i' finite)
      | float x' finite' shows' text' =>
          rw [text', floatChars, floatChars, if_pos finite, if_pos finite'] at same
          rw [shows, shows', Layout.eq_of_write finite finite' same]

/-! ### One reading -/

/-- Whether a text is empty or opens with what may stand beside a word. -/
def Stops (rest : List Char) : Prop := ∀ c tail, rest = c :: tail → isMark c = true

theorem Stops.cons {c : Char} (mark : isMark c = true) (rest : List Char) : Stops (c :: rest) := by
  intro c' tail eq
  cases eq
  exact mark

/-- A word ends where the next mark stands. -/
theorem word_append_inj {ds ds' rest rest' : List Char} (inside : ∀ c ∈ ds, isMark c = false)
    (inside' : ∀ c ∈ ds', isMark c = false) (stops : Stops rest) (stops' : Stops rest')
    (same : ds ++ rest = ds' ++ rest') : ds = ds' ∧ rest = rest' := by
  have stop : ∀ {rest : List Char}, Stops rest → ∀ c ∈ rest.head?, (!isMark c) = false := by
    intro rest stops c first
    obtain ⟨tail, eq⟩ := List.head?_eq_some_iff.1 first
    rw [stops c tail eq]
    rfl
  apply List.append_inj_of_stop ?_ ?_ (stop stops) (stop stops') same
  · simpa using inside
  · simpa using inside'

/-- Whether the text of a value has only one reading, whatever stands behind it. -/
def Readable (v : Json) : Prop :=
  ∀ w rest rest', Stops rest → Stops rest' → Json.chars v ++ rest = Json.chars w ++ rest' →
    v.shown = w.shown ∧ rest = rest'

/-- A text opens with a mark exactly if it is no word, and then the mark shows its form. -/
theorem opening (v : Json) : ∃ c cs, Json.chars v = c :: cs ∧
    ((v.isWord = true ∧ isMark c = false) ∨ (∃ s, v = .str s ∧ c = '"') ∨
      (∃ items, v = .arr items ∧ c = '[') ∨ ∃ members, v = .obj members ∧ c = '{') := by
  cases word : v.isWord with
  | true =>
      obtain ⟨some, inside⟩ := (wordOf_isWord word).chars
      obtain ⟨c, cs, eq⟩ := List.exists_cons_of_ne_nil some
      exact ⟨c, cs, eq, Or.inl ⟨rfl, inside c (eq ▸ List.mem_cons_self)⟩⟩
  | false =>
      cases v with
      | str s => exact ⟨_, _, rfl, Or.inr (Or.inl ⟨s, rfl, rfl⟩)⟩
      | arr items => exact ⟨_, _, rfl, Or.inr (Or.inr (Or.inl ⟨items, rfl, rfl⟩))⟩
      | obj members => exact ⟨_, _, rfl, Or.inr (Or.inr (Or.inr ⟨members, rfl, rfl⟩))⟩
      | null | bool | int | float => cases word

/-- No value opens as a list or an object closes. -/
theorem chars_append_ne_cons (v : Json) {c : Char} (closes : c = ']' ∨ c = '}')
    (rest rest' : List Char) : Json.chars v ++ rest ≠ c :: rest' := by
  intro same
  obtain ⟨d, cs, eq, form⟩ := opening v
  rw [eq, List.cons_append, List.cons.injEq] at same
  obtain ⟨rfl, -⟩ := same
  rcases form with ⟨-, inside⟩ | ⟨s, -, rfl⟩ | ⟨items, -, rfl⟩ | ⟨members, -, rfl⟩
  · rcases closes with rfl | rfl <;> cases inside
  all_goals rcases closes with other | other <;> cases other

theorem readable_word {v : Json} (word : v.isWord = true) : Readable v := by
  intro w rest rest' stops stops' same
  obtain ⟨some, inside⟩ := (wordOf_isWord word).chars
  obtain ⟨c, cs, eq⟩ := List.exists_cons_of_ne_nil some
  obtain ⟨c', cs', eq', form⟩ := opening w
  rcases form with ⟨word', -⟩ | other
  · obtain ⟨-, inside'⟩ := (wordOf_isWord word').chars
    obtain ⟨text, last⟩ := word_append_inj inside inside' stops stops' same
    exact ⟨(wordOf_isWord word).shown_eq (wordOf_isWord word') text, last⟩
  · -- the other value opens with a mark
    rw [eq, eq', List.cons_append, List.cons_append, List.cons.injEq] at same
    have unmarked := inside c (eq ▸ List.mem_cons_self)
    rw [same.1] at unmarked
    rcases other with ⟨s, -, rfl⟩ | ⟨items, -, rfl⟩ | ⟨members, -, rfl⟩ <;> cases unmarked

theorem readable_str (s : String) : Readable (.str s) := by
  intro w rest rest' stops stops' same
  obtain ⟨c, cs, eq, form⟩ := opening w
  have first := same
  rw [eq, List.cons_append, chars, quoted, List.cons_append, List.cons_append, List.cons.injEq]
    at first
  obtain ⟨rfl, -⟩ := first
  rcases form with ⟨-, inside⟩ | ⟨s', rfl, -⟩ | ⟨items, -, other⟩ | ⟨members, -, other⟩
  · cases inside
  · obtain ⟨rfl, last⟩ := quoted_append_inj same
    exact ⟨rfl, last⟩
  · cases other
  · cases other

/-- What stands behind an element: the others, or the closing bracket. -/
def itemRest (items : List Json) : List Char :=
  if items.isEmpty then [']'] else ',' :: itemChars items

theorem itemChars_cons (v : Json) (items : List Json) :
    itemChars (v :: items) = Json.chars v ++ itemRest items := by
  cases items with
  | nil => rfl
  | cons w items => rfl

theorem stops_itemRest (items : List Json) (rest : List Char) : Stops (itemRest items ++ rest) := by
  cases items with
  | nil => exact .cons rfl _
  | cons w items => exact .cons rfl _

/-- What stands behind a member: the others, or the closing brace. -/
def memberRest (members : List (String × Json)) : List Char :=
  if members.isEmpty then ['}'] else ',' :: memberChars members

theorem memberChars_cons (m : String × Json) (members : List (String × Json)) :
    memberChars (m :: members) = quoted m.1 ++ ':' :: (Json.chars m.2 ++ memberRest members) := by
  cases members with
  | nil => simp [memberChars, memberRest]
  | cons m' members => simp [memberChars, memberRest]

theorem stops_memberRest (members : List (String × Json)) (rest : List Char) :
    Stops (memberRest members ++ rest) := by
  cases members with
  | nil => exact .cons rfl _
  | cons m members => exact .cons rfl _

/-- Elements have one reading if each of them has. -/
theorem itemChars_append_inj {items items' : List Json} {rest rest' : List Char}
    (each : ∀ v ∈ items, Readable v) (same : itemChars items ++ rest = itemChars items' ++ rest') :
    items.map shown = items'.map shown ∧ rest = rest' := by
  induction items generalizing items' with
  | nil =>
      cases items' with
      | nil => exact ⟨rfl, (List.cons.inj same).2⟩
      | cons w items' =>
          rw [itemChars_cons, List.append_assoc] at same
          exact absurd same.symm (chars_append_ne_cons w (Or.inl rfl) _ _)
  | cons v items ih =>
      obtain ⟨here, later⟩ := List.forall_mem_cons.1 each
      cases items' with
      | nil =>
          rw [itemChars_cons, List.append_assoc] at same
          exact absurd same (chars_append_ne_cons v (Or.inl rfl) _ _)
      | cons w items' =>
          rw [itemChars_cons, itemChars_cons, List.append_assoc, List.append_assoc] at same
          obtain ⟨first, others⟩ :=
            here w _ _ (stops_itemRest items rest) (stops_itemRest items' rest') same
          rw [List.map_cons, List.map_cons, first, List.cons.injEq]
          -- either both lists end here or neither does
          cases items with
          | nil =>
              cases items' with
              | nil => exact ⟨⟨rfl, rfl⟩, (List.cons.inj others).2⟩
              | cons w' items' => cases (List.cons.inj others).1
          | cons v' items =>
              cases items' with
              | nil => cases (List.cons.inj others).1
              | cons w' items' =>
                  obtain ⟨tails, last⟩ := ih later (List.cons.inj others).2
                  exact ⟨⟨rfl, tails⟩, last⟩

/-- Members have one reading if each of their values has. -/
theorem memberChars_append_inj {members members' : List (String × Json)} {rest rest' : List Char}
    (each : ∀ m ∈ members, Readable m.2)
    (same : memberChars members ++ rest = memberChars members' ++ rest') :
    (members.map fun m => (m.1, m.2.shown)) = (members'.map fun m => (m.1, m.2.shown)) ∧
      rest = rest' := by
  induction members generalizing members' with
  | nil =>
      cases members' with
      | nil => exact ⟨rfl, (List.cons.inj same).2⟩
      | cons m members' =>
          rw [memberChars_cons] at same
          cases (List.cons.inj same).1
  | cons m members ih =>
      obtain ⟨here, later⟩ := List.forall_mem_cons.1 each
      cases members' with
      | nil =>
          rw [memberChars_cons] at same
          cases (List.cons.inj same).1
      | cons n members' =>
          rw [memberChars_cons, memberChars_cons, List.append_assoc, List.append_assoc] at same
          obtain ⟨name, value⟩ := quoted_append_inj same
          rw [List.cons_append, List.cons_append, List.cons.injEq, List.append_assoc,
            List.append_assoc] at value
          obtain ⟨first, others⟩ := here n.2 _ _ (stops_memberRest members rest)
            (stops_memberRest members' rest') value.2
          rw [List.map_cons, List.map_cons, first, name, List.cons.injEq]
          cases members with
          | nil =>
              cases members' with
              | nil => exact ⟨⟨rfl, rfl⟩, (List.cons.inj others).2⟩
              | cons n' members' => cases (List.cons.inj others).1
          | cons m' members =>
              cases members' with
              | nil => cases (List.cons.inj others).1
              | cons n' members' =>
                  obtain ⟨tails, last⟩ := ih later (List.cons.inj others).2
                  exact ⟨⟨rfl, tails⟩, last⟩

/-- The text of a value has one reading, whatever stands behind it. -/
theorem readable (v : Json) : Readable v := by
  induction v using Json.induction with
  | null | bool | int | float => exact readable_word rfl
  | str s => exact readable_str s
  | arr items ih =>
      intro w rest rest' stops stops' same
      obtain ⟨c, cs, eq, form⟩ := opening w
      have first := same
      rw [eq, List.cons_append, chars, List.cons_append, List.cons.injEq] at first
      obtain ⟨rfl, -⟩ := first
      rcases form with ⟨-, inside⟩ | ⟨s, -, other⟩ | ⟨items', rfl, -⟩ | ⟨members, -, other⟩
      · cases inside
      · cases other
      · obtain ⟨each, last⟩ := itemChars_append_inj ih (List.cons.inj same).2
        rw [shown, shown, shownItems_eq_map, shownItems_eq_map, each]
        exact ⟨rfl, last⟩
      · cases other
  | obj members ih =>
      intro w rest rest' stops stops' same
      obtain ⟨c, cs, eq, form⟩ := opening w
      have first := same
      rw [eq, List.cons_append, chars, List.cons_append, List.cons.injEq] at first
      obtain ⟨rfl, -⟩ := first
      rcases form with ⟨-, inside⟩ | ⟨s, -, other⟩ | ⟨items, -, other⟩ | ⟨members', rfl, -⟩
      · cases inside
      · cases other
      · cases other
      · obtain ⟨each, last⟩ := memberChars_append_inj ih (List.cons.inj same).2
        rw [shown, shown, shownMembers_eq_map, shownMembers_eq_map, each]
        exact ⟨rfl, last⟩

/-- Values with the same text show the same. -/
theorem shown_of_compact {v w : Json} (same : v.compact = w.compact) : v.shown = w.shown := by
  have text := String.ofList_injective same
  refine (readable v w [] [] nofun nofun ?_).1
  rw [List.append_nil, List.append_nil, text]

end RecordInference.Json
