import RecordInference.Json.Outline
import RecordInference.Proofs.Json.Grammar
import RecordInference.Proofs.Json.Unique

/-!
# What the grammar admits is read

A text in quotes is read to the end of its quotes (`reads_stringBody`), whatever stands behind it. A
number ends where blanks, a comma or a closing bracket follow (`Ends`), and that is what stands behind
every value. Lists and objects are read in the same four ways, with and without something in them
(`Collects`), so a row that the grammar admits is read if each of its items is
(`Collects.reads_enclosed`).

A value of which only the form counts is then read by recursion on how deep it is
(`reads_outline`): it is never deeper than it is long.
-/

set_option autoImplicit false

namespace RecordInference.Json

open Decimal

section

variable {α β : Type} {reader : Reader α} {a : α} {cs rest : List Char}

/-- Whether a reader takes a value off the front of a text and leaves the rest. -/
def Reads (reader : Reader α) (cs : List Char) (a : α) (rest : List Char) : Prop :=
  ∃ shorter, reader cs = .ok ⟨a, rest, shorter⟩

theorem Reads.map (h : Reads reader cs a rest) (f : α → β) :
    Reads (fun cs => (reader cs).map (Taken.map f)) cs (f a) rest := by
  obtain ⟨shorter, read⟩ := h
  refine ⟨shorter, ?_⟩
  show (reader cs).map (Taken.map f) = _
  rw [read]
  rfl

end

/-! ### Blanks and ends -/

/-- Whether nothing follows, or what may stand behind a value. -/
def Ends (rest : List Char) : Prop :=
  ∀ c tail, rest = c :: tail → isSpace c = true ∨ c = ',' ∨ c = ']' ∨ c = '}'

/-- Whether no digit follows. -/
def Stopped (rest : List Char) : Prop := ∀ c tail, rest = c :: tail → c.isDigit = false

section

variable {bs cs rest : List Char} {c : Char}

theorem skip_append (blank : Spaces bs) (cs : List Char) : skip (bs ++ cs) = skip cs :=
  List.dropWhile_append_of_pos blank

theorem skip_append_cons (blank : Spaces bs) (solid : isSpace c = false) (cs : List Char) :
    skip (bs ++ c :: cs) = c :: cs := by
  rw [skip_append blank, skip, List.dropWhile_cons_of_neg (by simp [solid])]

theorem Ends.nil : Ends [] := nofun

theorem Ends.cons (mark : c = ',' ∨ c = ']' ∨ c = '}') (cs : List Char) : Ends (c :: cs) := by
  rintro _ _ ⟨⟩
  exact Or.inr mark

theorem Ends.append (blank : Spaces bs) (h : Ends rest) : Ends (bs ++ rest) := by
  intro c tail eq
  cases bs with
  | nil => exact h c tail eq
  | cons b bs =>
      cases eq
      exact Or.inl (blank _ List.mem_cons_self)

/-- A character that may stand behind a value does not go on with a number. -/
theorem Ends.not_numeral (h : Ends (c :: rest)) :
    c.isDigit = false ∧ c ≠ '.' ∧ c ≠ 'e' ∧ c ≠ 'E' := by
  have apart : ∀ d : Char, (isSpace d = true ∨ d = ',' ∨ d = ']' ∨ d = '}') →
      d = ' ' ∨ d = '\t' ∨ d = '\n' ∨ d = '\r' ∨ d = ',' ∨ d = ']' ∨ d = '}' := by
    intro d
    simp only [isSpace, Bool.or_eq_true, decide_eq_true_eq]
    tauto
  rcases apart c (h c rest rfl) with rfl | rfl | rfl | rfl | rfl | rfl | rfl <;> decide

theorem Ends.stopped (h : Ends rest) : Stopped rest := by
  rintro c tail rfl
  exact h.not_numeral.1

end

/-! ### Texts in quotes -/

theorem escape_digits {n : Nat} {a b c d : Char} (value : hexFour? a b c d = some n)
    (whole : n < 0xD800 ∨ 0xDFFF < n) (cs : List Char) :
    Reads escape ('u' :: a :: b :: c :: d :: cs) (Char.ofNat n) cs := by
  refine ⟨by simp only [List.length_cons]; omega, ?_⟩
  have low : (decide (0xDC00 ≤ n) && decide (n ≤ 0xDFFF)) = false := by
    rw [Bool.and_eq_false_iff, decide_eq_false_iff_not, decide_eq_false_iff_not]
    omega
  have high : (decide (0xD800 ≤ n) && decide (n ≤ 0xDBFF)) = false := by
    rw [Bool.and_eq_false_iff, decide_eq_false_iff_not, decide_eq_false_iff_not]
    omega
  simp only [escape, hexDigits, value, low, high, Bool.false_eq_true, if_false]

theorem escape_halves {high low : Nat} {a b c d a' b' c' d' : Char}
    (value : hexFour? a b c d = some high) (first : 0xD800 ≤ high ∧ high ≤ 0xDBFF)
    (value' : hexFour? a' b' c' d' = some low) (second : 0xDC00 ≤ low ∧ low ≤ 0xDFFF)
    (cs : List Char) :
    Reads escape ('u' :: a :: b :: c :: d :: '\\' :: 'u' :: a' :: b' :: c' :: d' :: cs)
      (Char.ofNat (0x10000 + (high - 0xD800) * 0x400 + (low - 0xDC00))) cs := by
  refine ⟨by simp only [List.length_cons]; omega, ?_⟩
  have other : (decide (0xDC00 ≤ high) && decide (high ≤ 0xDFFF)) = false := by
    rw [Bool.and_eq_false_iff, decide_eq_false_iff_not, decide_eq_false_iff_not]
    omega
  simp only [escape, lowSurrogate, hexDigits, value, value', other, first, second, decide_true,
    Bool.and_self, if_true, Bool.false_eq_true, if_false, Taken.weaken]

/-- A character is read from its spelling. -/
theorem reads_letter {c : Char} {w cs text rest : List Char} (letter : Letter c w)
    (read : Reads stringBody cs text rest) : Reads stringBody (w ++ cs) (c :: text) rest := by
  cases letter with
  | plain quote backslash printable => exact stringBody_plain quote backslash printable read
  | letter stands => exact stringBody_backslash (escape_letter cs stands) read
  | digits value whole => exact stringBody_backslash (escape_digits value whole cs) read
  | halves value first value' second =>
      exact stringBody_backslash (escape_halves value first value' second cs) read

/-- Characters are read from their spelling up to the closing quote. -/
theorem reads_stringBody {text w : List Char} (letters : Letters text w) (rest : List Char) :
    Reads stringBody (w ++ '"' :: rest) text rest := by
  induction letters with
  | nil =>
      refine ⟨Nat.lt_succ_self _, ?_⟩
      show stringBody ('"' :: rest) = _
      rw [stringBody, if_pos rfl]
  | cons first letters ih =>
      rw [List.append_assoc]
      exact reads_letter first ih

theorem reads_mark {w cs rest : List Char} (mark : Mark w) (read : Reads textOutline cs () rest) :
    Reads textOutline (w ++ cs) () rest := by
  obtain ⟨shorter, read⟩ := read
  cases mark with
  | @plain c quote backslash printable =>
      refine ⟨Nat.lt_succ_of_lt shorter, ?_⟩
      show textOutline (c :: cs) = _
      rw [textOutline, if_neg quote, if_neg backslash, if_neg printable, read]
      rfl
  | @letter l c stands =>
      refine ⟨Nat.lt_succ_of_lt (Nat.lt_succ_of_lt shorter), ?_⟩
      -- the letter u opens four digits instead
      have other : l ≠ 'u' := by
        rintro rfl
        cases stands
      have escaped : escapeOutline (l :: cs) = .ok ⟨(), cs, Nat.lt_succ_self _⟩ := by
        rw [escapeOutline.eq_3 l cs other, if_pos (by rw [stands]; rfl)]
      show textOutline ('\\' :: l :: cs) = _
      rw [textOutline, if_neg (by decide), if_pos rfl, escaped]
      simp only [read]
      rfl
  | @digits n a b c d value =>
      refine ⟨by simp only [List.length_append, List.length_cons]; omega, ?_⟩
      have escaped : escapeOutline ('u' :: a :: b :: c :: d :: cs) =
          .ok ⟨(), cs, by simp only [List.length_cons]; omega⟩ := by
        simp only [escapeOutline, hexDigits, value]
      show textOutline ('\\' :: 'u' :: a :: b :: c :: d :: cs) = _
      rw [textOutline, if_neg (by decide), if_pos rfl, escaped]
      simp only [read]
      rfl

theorem reads_textOutline {w : List Char} (marks : Marks w) (rest : List Char) :
    Reads textOutline (w ++ '"' :: rest) () rest := by
  induction marks with
  | nil =>
      refine ⟨Nat.lt_succ_self _, ?_⟩
      show textOutline ('"' :: rest) = _
      rw [textOutline, if_pos rfl]
  | cons first marks ih =>
      rw [List.append_assoc]
      exact reads_mark first ih

/-! ### Numbers -/

section

variable {ds rest w f : List Char} {e : Int}

theorem Exponent.stopped (h : Exponent e w) (ends : Ends rest) : Stopped (w ++ rest) := by
  cases h with
  | none => exact ends.stopped
  | up mark | down mark =>
      rintro c tail ⟨⟩
      rcases mark with rfl | rfl <;> rfl

theorem afterSomeDigits_append (digits : IsDigits ds) (stopped : Stopped rest) :
    afterSomeDigits (ds ++ rest) = .ok rest := by
  obtain ⟨some, all⟩ := digits
  obtain ⟨c, cs, rfl⟩ := List.exists_cons_of_ne_nil some
  obtain ⟨first, others⟩ := List.forall_mem_cons.1 all
  rw [List.cons_append, afterSomeDigits, if_pos first, (takeWhile_digits rest others stopped).2]

theorem afterExponent_append (h : Exponent e w) (ends : Ends rest) :
    afterExponent (w ++ rest) = .ok rest := by
  cases h with
  | none =>
      rw [List.nil_append]
      cases rest with
      | nil => rfl
      | cons c rest =>
          obtain ⟨-, -, lower, upper⟩ := ends.not_numeral
          simp [afterExponent, lower, upper]
  | @up mark sign ds isMark plus digits =>
      have isMark : (decide (mark = 'e') || decide (mark = 'E')) = true := by simpa using isMark
      have read := afterSomeDigits_append digits ends.stopped
      obtain ⟨some, all⟩ := digits
      obtain ⟨c, cs, rfl⟩ := List.exists_cons_of_ne_nil some
      have digit := all c List.mem_cons_self
      rw [List.cons_append, List.append_assoc]
      unfold afterExponent
      dsimp only
      rw [if_pos isMark]
      rcases plus with rfl | rfl
      · -- the first digit is no sign
        split
        · next eq =>
          cases eq
          cases digit
        · next eq =>
          cases eq
          cases digit
        · exact read
      · exact read
  | @down mark ds isMark digits =>
      have isMark : (decide (mark = 'e') || decide (mark = 'E')) = true := by simpa using isMark
      rw [List.cons_append]
      unfold afterExponent
      dsimp only
      rw [if_pos isMark]
      exact afterSomeDigits_append digits ends.stopped

theorem afterFraction_append (fraction : Fraction ds f) (exponent : Exponent e w)
    (ends : Ends rest) : afterFraction (f ++ (w ++ rest)) = .ok rest := by
  have read := afterExponent_append exponent ends
  cases fraction with
  | none =>
      rw [List.nil_append]
      unfold afterFraction
      split
      · next digits eq =>
        -- neither an exponent nor what stands behind a value opens with a point
        cases exponent with
        | none =>
            cases eq
            exact absurd rfl ends.not_numeral.2.1
        | up mark | down mark =>
            cases eq
            rcases mark with other | other <;> cases other
      · exact read
  | digits digits =>
      rw [List.cons_append, afterFraction, afterSomeDigits_append digits (exponent.stopped ends)]
      exact read

theorem Fraction.stopped (h : Fraction ds f) (exponent : Exponent e w) (ends : Ends rest) :
    Stopped (f ++ (w ++ rest)) := by
  cases h with
  | none => exact exponent.stopped ends
  | digits =>
      rintro c tail ⟨⟩
      rfl

/-- A numeral is read from its first digit on to its end. -/
theorem afterNumber_append {d : Digits} (numeral : Numeral d w) (ends : Ends rest) :
    ∃ c cs, w = c :: cs ∧ c.isDigit = true ∧ afterNumber c (cs ++ rest) = .ok rest := by
  obtain @⟨whole, ds, fraction, exponent, e, first, second, third⟩ := numeral
  have stopped := second.stopped third ends
  have read := afterFraction_append second third ends
  cases first with
  | zero =>
      refine ⟨'0', fraction ++ exponent, rfl, rfl, ?_⟩
      -- a zero is the whole number by itself, so no digit may follow it
      rw [afterNumber, if_pos rfl, List.append_assoc, if_neg]
      · exact read
      · rw [Bool.not_eq_true, Option.any_eq_false]
        intro c first
        obtain ⟨tail, eq⟩ := List.head?_eq_some_iff.1 first
        simp [stopped c tail eq]
  | @digits c cs digit leading others =>
      refine ⟨c, cs ++ (fraction ++ exponent), rfl, digit, ?_⟩
      rw [afterNumber, if_neg leading, List.append_assoc, List.append_assoc,
        (takeWhile_digits _ others stopped).2]
      exact read

end

/-! ### Lists and objects -/

section

variable {ι κ κ' α β : Type} {closing : Char} {reader : Reader β}
  {several whole : Reader (List β)} {item : ι → List Char → Prop} {f : ι → β} {bound : Nat}

/-- How lists and objects are read behind their opening bracket: with nothing in them, with
something in them, and what is in them up to the last thing and behind a comma. -/
structure Collects (closing : Char) (reader : Reader β) (several whole : Reader (List β)) :
    Prop where
  none {bs rest : List Char} (blank : Spaces bs) : Reads whole (bs ++ closing :: rest) [] rest
  some {bs cs rest : List Char} {c : Char} {items : List β} (blank : Spaces bs)
    (solid : isSpace c = false) (open_ : c ≠ closing) (read : Reads several (c :: cs) items rest) :
    Reads whole (bs ++ c :: cs) items rest
  last {cs bs rest : List Char} {b : β} (read : Reads reader cs b (bs ++ closing :: rest))
    (blank : Spaces bs) : Reads several cs [b] rest
  more {cs after before cs' rest : List Char} {b : β} {c : Char} {items : List β}
    (read : Reads reader cs b (after ++ ',' :: (before ++ c :: cs'))) (blank : Spaces after)
    (blank' : Spaces before) (solid : isSpace c = false) (open_ : c ≠ closing)
    (read' : Reads several (c :: cs') items rest) : Reads several cs (b :: items) rest

theorem collects_list (reader : Reader β) :
    Collects ']' reader (elements reader) (list reader) where
  none {bs rest} blank := by
    refine ⟨by simp only [List.length_append, List.length_cons]; omega, ?_⟩
    have skipped := skip_append_cons blank (c := ']') rfl rest
    simp only [list]
    split
    · next empty => cases skipped.symm.trans empty
    · next found =>
      cases skipped.symm.trans found
      rfl
  some {bs cs rest c items} blank solid open_ read := by
    obtain ⟨shorter, read⟩ := read
    refine ⟨by simp only [List.length_append, List.length_cons] at shorter ⊢; omega, ?_⟩
    have skipped := skip_append_cons blank solid cs
    simp only [list]
    split
    · next empty => cases skipped.symm.trans empty
    · next found =>
      cases skipped.symm.trans found
      rw [if_neg open_, read]
      rfl
  last {cs bs rest b} read blank := by
    obtain ⟨shorter, read⟩ := read
    refine ⟨by simp only [List.length_append, List.length_cons] at shorter ⊢; omega, ?_⟩
    have skipped := skip_append_cons blank (c := ']') rfl rest
    rw [elements, read]
    dsimp only
    split
    · next empty => cases skipped.symm.trans empty
    · next found =>
      cases skipped.symm.trans found
      rfl
  more {cs after before cs' rest b c items} read blank blank' solid open_ read' := by
    obtain ⟨shorter, read⟩ := read
    obtain ⟨shorter', read'⟩ := read'
    refine ⟨by simp only [List.length_append, List.length_cons] at shorter shorter' ⊢; omega, ?_⟩
    have skipped := skip_append_cons blank (c := ',') rfl (before ++ c :: cs')
    have skipped' := skip_append_cons blank' solid cs'
    rw [elements, read]
    dsimp only
    split
    · next empty => cases skipped.symm.trans empty
    · next found =>
      cases skipped.symm.trans found
      rw [if_neg (by decide), if_pos rfl]
      split
      · next empty => cases skipped'.symm.trans empty
      · next found =>
        cases skipped'.symm.trans found
        rw [if_neg open_, read']

theorem collects_object (name : Reader κ) (value : κ → Reader α) :
    Collects '}' (member name value) (members name value) (object name value) where
  none {bs rest} blank := by
    refine ⟨by simp only [List.length_append, List.length_cons]; omega, ?_⟩
    have skipped := skip_append_cons blank (c := '}') rfl rest
    simp only [object]
    split
    · next empty => cases skipped.symm.trans empty
    · next found =>
      cases skipped.symm.trans found
      rfl
  some {bs cs rest c items} blank solid open_ read := by
    obtain ⟨shorter, read⟩ := read
    refine ⟨by simp only [List.length_append, List.length_cons] at shorter ⊢; omega, ?_⟩
    have skipped := skip_append_cons blank solid cs
    simp only [object]
    split
    · next empty => cases skipped.symm.trans empty
    · next found =>
      cases skipped.symm.trans found
      rw [if_neg open_, read]
      rfl
  last {cs bs rest b} read blank := by
    obtain ⟨shorter, read⟩ := read
    refine ⟨by simp only [List.length_append, List.length_cons] at shorter ⊢; omega, ?_⟩
    have skipped := skip_append_cons blank (c := '}') rfl rest
    rw [members, read]
    dsimp only
    split
    · next empty => cases skipped.symm.trans empty
    · next found =>
      cases skipped.symm.trans found
      rfl
  more {cs after before cs' rest b c items} read blank blank' solid open_ read' := by
    obtain ⟨shorter, read⟩ := read
    obtain ⟨shorter', read'⟩ := read'
    refine ⟨by simp only [List.length_append, List.length_cons] at shorter shorter' ⊢; omega, ?_⟩
    have skipped := skip_append_cons blank (c := ',') rfl (before ++ c :: cs')
    have skipped' := skip_append_cons blank' solid cs'
    rw [members, read]
    dsimp only
    split
    · next empty => cases skipped.symm.trans empty
    · next found =>
      cases skipped.symm.trans found
      rw [if_neg (by decide), if_pos rfl]
      split
      · next empty => cases skipped'.symm.trans empty
      · next found =>
        cases skipped'.symm.trans found
        rw [if_neg open_, read']

/-- Whether something opens with no blank and with no closing bracket. -/
def Opens (w : List Char) : Prop :=
  ∃ c tail, w = c :: tail ∧ isSpace c = false ∧ c ≠ ']' ∧ c ≠ '}'

theorem Opens.of_closing {w : List Char} (h : Opens w) (closes : closing = ']' ∨ closing = '}') :
    ∃ c tail, w = c :: tail ∧ isSpace c = false ∧ c ≠ closing := by
  obtain ⟨c, tail, rfl, solid, bracket, brace⟩ := h
  refine ⟨c, tail, rfl, solid, ?_⟩
  rcases closes with rfl | rfl
  · exact bracket
  · exact brace

/-- Whether a reader takes what is spelled with up to so many characters, as long as a value may end
there. -/
structure Takes (bound : Nat) (item : ι → List Char → Prop) (f : ι → β) (reader : Reader β) :
    Prop where
  opens {i : ι} {w : List Char} (spelled : item i w) : Opens w
  reads {i : ι} {w rest : List Char} (spelled : item i w) (short : w.length ≤ bound)
    (ends : Ends rest) : Reads reader (w ++ rest) (f i) rest

theorem Row.opens (opens : ∀ {i w}, item i w → Opens w) {is : List ι} {ws : List Char}
    (row : Row item is ws) : Opens ws := by
  cases row with
  | last spelled blank =>
      obtain ⟨c, tail, rfl, opens⟩ := opens spelled
      exact ⟨c, _, rfl, opens⟩
  | more spelled blank blank' rest =>
      obtain ⟨c, tail, rfl, opens⟩ := opens spelled
      exact ⟨c, _, rfl, opens⟩

/-- A row is read if each of its items is. -/
theorem Collects.reads_row (h : Collects closing reader several whole)
    (closes : closing = ']' ∨ closing = '}') (takes : Takes bound item f reader) {is : List ι}
    {ws : List Char} (row : Row item is ws) (short : ws.length ≤ bound) (rest : List Char) :
    Reads several (ws ++ closing :: rest) (is.map f) rest := by
  -- a comma or the closing bracket stands behind every item, so each of them may end there
  induction row with
  | last spelled blank =>
      rw [List.length_append] at short
      rw [List.append_assoc]
      exact h.last (takes.reads spelled (by omega) (.append blank (.cons (Or.inr closes) _))) blank
  | @more i is w ws after before spelled blank blank' row ih =>
      simp only [List.length_append, List.length_cons] at short
      have later := ih (by omega)
      obtain ⟨c, tail, rfl, solid, open_⟩ := (row.opens takes.opens).of_closing closes
      have ends : Ends (after ++ ',' :: (before ++ c :: (tail ++ closing :: rest))) :=
        .append blank (.cons (Or.inl rfl) _)
      have first := takes.reads spelled (by omega) ends
      have all := h.more first blank blank' solid open_ later
      simpa using all

/-- What stands behind an opening bracket is read if each of its items is. -/
theorem Collects.reads_enclosed (h : Collects closing reader several whole)
    (closes : closing = ']' ∨ closing = '}') (takes : Takes bound item f reader) {is : List ι}
    {w : List Char} (enclosed : Enclosed closing item is w) (short : w.length ≤ bound)
    (rest : List Char) : Reads whole (w ++ rest) (is.map f) rest := by
  cases enclosed with
  | none blank =>
      rw [List.append_assoc]
      exact h.none blank
  | @some is before ws blank row =>
      simp only [List.length_append, List.length_cons] at short
      have read := h.reads_row closes takes row (by omega) rest
      obtain ⟨c, tail, rfl, solid, open_⟩ := (row.opens takes.opens).of_closing closes
      have all := h.some blank solid open_ read
      simpa using all

/-- A member is read if its name and its value are. -/
theorem reads_pair {name : κ → List Char → Prop} {value : α → List Char → Prop} {k : κ} {a : α}
    {k' : κ'} {b : β} {names : Reader κ'} {values : κ' → Reader β} {w rest : List Char}
    (pair : Pair name value (k, a) w)
    (named : ∀ {w}, name k w → ∃ tail, w = '"' :: tail ∧ ∀ rest, Reads names (tail ++ rest) k' rest)
    (valued : ∀ {v before}, value a v → v.length ≤ w.length → Spaces before →
      Reads (values k') (before ++ (v ++ rest)) b rest) :
    Reads (member names values) (w ++ rest) (k', b) rest := by
  cases pair with
  | @colon _ _ wk wv after before isName blank blank' spelled =>
      obtain ⟨tail, rfl, reads⟩ := named isName
      obtain ⟨shorter, read⟩ := reads (after ++ ':' :: (before ++ (wv ++ rest)))
      obtain ⟨shorter', read'⟩ := valued spelled
        (by simp only [List.length_append, List.length_cons]; omega) blank'
      have skipped := skip_append_cons blank (c := ':') rfl (before ++ (wv ++ rest))
      have text : '"' :: tail ++ (after ++ ':' :: (before ++ wv)) ++ rest =
          '"' :: (tail ++ (after ++ ':' :: (before ++ (wv ++ rest)))) := by simp
      rw [text]
      refine ⟨by simp only [List.length_append, List.length_cons] at shorter shorter' ⊢; omega, ?_⟩
      rw [member, if_pos rfl, read]
      dsimp only
      split
      · next empty => cases skipped.symm.trans empty
      · next found =>
        cases skipped.symm.trans found
        rw [if_pos rfl, read']

end

/-! ### Values -/

section

variable {α : Type}
  {scalars : (c : Char) → (cs : List Char) → Except Fault (Taken α (c :: cs))}
  {items entries : Reader α} {a : α} {c : Char} {bs cs rest : List Char}

theorem reads_valueWith_list (blank : Spaces bs) (read : Reads items cs a rest) :
    Reads (valueWith scalars items entries) (bs ++ '[' :: cs) a rest := by
  obtain ⟨shorter, read⟩ := read
  refine ⟨by simp only [List.length_append, List.length_cons]; omega, ?_⟩
  have skipped := skip_append_cons blank (c := '[') rfl cs
  simp only [valueWith]
  split
  · next empty => cases skipped.symm.trans empty
  · next found =>
    cases skipped.symm.trans found
    rw [if_pos rfl, read]
    rfl

theorem reads_valueWith_object (blank : Spaces bs) (read : Reads entries cs a rest) :
    Reads (valueWith scalars items entries) (bs ++ '{' :: cs) a rest := by
  obtain ⟨shorter, read⟩ := read
  refine ⟨by simp only [List.length_append, List.length_cons]; omega, ?_⟩
  have skipped := skip_append_cons blank (c := '{') rfl cs
  simp only [valueWith]
  split
  · next empty => cases skipped.symm.trans empty
  · next found =>
    cases skipped.symm.trans found
    rw [if_neg (by decide), if_pos rfl, read]
    rfl

theorem reads_valueWith_scalar (blank : Spaces bs) (solid : isSpace c = false) (list : c ≠ '[')
    (object : c ≠ '{') (read : ∃ shorter, scalars c cs = .ok ⟨a, rest, shorter⟩) :
    Reads (valueWith scalars items entries) (bs ++ c :: cs) a rest := by
  obtain ⟨shorter, read⟩ := read
  refine ⟨by simp only [List.length_append, List.length_cons] at shorter ⊢; omega, ?_⟩
  have skipped := skip_append_cons blank solid cs
  simp only [valueWith]
  split
  · next empty => cases skipped.symm.trans empty
  · next found =>
    cases skipped.symm.trans found
    rw [if_neg list, if_neg object, read]
    rfl

end

/-! ### Forms -/

theorem isSpace_of_isDigit {c : Char} (digit : c.isDigit = true) :
    isSpace c = false ∧ c ≠ '[' ∧ c ≠ '{' ∧ c ≠ '"' ∧ c ≠ '-' ∧ c ≠ ']' ∧ c ≠ '}' := by
  have spaces : isSpace c = false := by
    rw [Bool.eq_false_iff]
    intro space
    simp only [isSpace, Bool.or_eq_true, decide_eq_true_eq] at space
    rcases space with ((rfl | rfl) | rfl) | rfl <;> cases digit
  refine ⟨spaces, ?_, ?_, ?_, ?_, ?_, ?_⟩
  all_goals
    rintro rfl
    cases digit

section

variable {bs w rest : List Char}

theorem ScalarForm.opens (h : ScalarForm w) : Opens w := by
  cases h with
  | null | yes | no => exact ⟨_, _, rfl, rfl, by decide, by decide⟩
  | positive numeral =>
      obtain ⟨c, cs, rfl, digit, -⟩ := afterNumber_append numeral .nil
      obtain ⟨space, -, -, -, -, bracket, brace⟩ := isSpace_of_isDigit digit
      exact ⟨c, cs, rfl, space, bracket, brace⟩
  | negative => exact ⟨_, _, rfl, rfl, by decide, by decide⟩
  | text quoted =>
      cases quoted
      exact ⟨_, _, rfl, rfl, by decide, by decide⟩

theorem reads_scalarForm (h : ScalarForm w) (blank : Spaces bs) (ends : Ends rest)
    (items entries : Outline) :
    Reads (valueWith scalarOutline items entries) (bs ++ (w ++ rest)) () rest := by
  have word (c : Char) (cs : List Char) (solid : isSpace c = false) (list : c ≠ '[')
      (object : c ≠ '{') (read : ∃ shorter, scalarOutline c (cs ++ rest) = .ok ⟨(), rest, shorter⟩) :
      Reads (valueWith scalarOutline items entries) (bs ++ (c :: cs ++ rest)) () rest :=
    reads_valueWith_scalar blank solid list object read
  have short (c : Char) (cs : List Char) : rest.length < (c :: (cs ++ rest)).length := by
    simp only [List.length_cons, List.length_append]
    omega
  cases h with
  | null => exact word 'n' "ull".toList rfl (by decide) (by decide) ⟨short _ _, rfl⟩
  | yes => exact word 't' "rue".toList rfl (by decide) (by decide) ⟨short _ _, rfl⟩
  | no => exact word 'f' "alse".toList rfl (by decide) (by decide) ⟨short _ _, rfl⟩
  | positive numeral =>
      obtain ⟨c, cs, rfl, digit, read⟩ := afterNumber_append numeral ends
      obtain ⟨space, list, object, quote, minus, -, -⟩ := isSpace_of_isDigit digit
      refine word c cs space list object ⟨short c cs, ?_⟩
      unfold scalarOutline
      rw [if_neg quote, if_neg minus, if_pos digit]
      split
      · next failed => cases read.symm.trans failed
      · next found =>
        cases read.symm.trans found
        rfl
  | negative numeral =>
      obtain ⟨c, cs, rfl, digit, read⟩ := afterNumber_append numeral ends
      refine word '-' (c :: cs) rfl (by decide) (by decide) ⟨short '-' (c :: cs), ?_⟩
      unfold scalarOutline
      rw [if_neg (by decide), if_pos rfl]
      dsimp only [List.cons_append]
      rw [if_pos digit]
      split
      · next failed => cases read.symm.trans failed
      · next found =>
        cases read.symm.trans found
        rfl
  | text quoted =>
      obtain ⟨marks⟩ := quoted
      obtain ⟨shorter, read⟩ := reads_textOutline marks rest
      rw [List.cons_append, List.append_assoc, List.singleton_append]
      refine reads_valueWith_scalar blank rfl (by decide) (by decide)
        ⟨Nat.lt_succ_of_lt shorter, ?_⟩
      unfold scalarOutline
      rw [if_pos rfl, read]
      rfl

theorem Form.opens {n : Nat} (h : Form n () w) : Opens w := by
  cases n with
  | zero => exact ScalarForm.opens h
  | succ n =>
      rcases h with scalar | ⟨units, ws, rfl, -⟩ | ⟨units, ws, rfl, -⟩
      · exact scalar.opens
      · exact ⟨_, _, rfl, rfl, by decide, by decide⟩
      · exact ⟨_, _, rfl, rfl, by decide, by decide⟩

theorem outline_eq (depth : Nat) :
    ∃ items entries, outline depth = valueWith scalarOutline items entries := by
  cases depth with
  | zero => exact ⟨_, _, rfl⟩
  | succ depth => exact ⟨_, _, rfl⟩

/-- What has the form of a value is read, where at least as many brackets may be open as it has
characters. -/
theorem reads_outline {n depth : Nat} (form : Form n () w) (short : w.length ≤ depth)
    (blank : Spaces bs) (ends : Ends rest) : Reads (outline depth) (bs ++ (w ++ rest)) () rest := by
  -- each bracket of the form is a character too, so the bound on the length goes down with it
  induction n generalizing depth w bs rest with
  | zero =>
      obtain ⟨items, entries, eq⟩ := outline_eq depth
      rw [eq]
      exact reads_scalarForm form blank ends items entries
  | succ n ih =>
      rcases form with scalar | ⟨units, ws, rfl, enclosed⟩ | ⟨units, ws, rfl, enclosed⟩
      · obtain ⟨items, entries, eq⟩ := outline_eq depth
        rw [eq]
        exact reads_scalarForm scalar blank ends items entries
      · obtain ⟨depth, rfl⟩ := Nat.exists_eq_add_of_le' (Nat.lt_of_lt_of_le (Nat.succ_pos _) short)
        have inside : ws.length ≤ depth := Nat.le_of_succ_le_succ short
        have takes : Takes ws.length (Form n) (fun _ => ()) (outline depth) :=
          ⟨Form.opens, fun form fits ends => ih form (by omega) spaces_nil ends⟩
        have read := (collects_list (outline depth)).reads_enclosed (Or.inl rfl) takes enclosed
          (Nat.le_refl _) rest
        exact reads_valueWith_list blank (read.map fun _ => ())
      · obtain ⟨depth, rfl⟩ := Nat.exists_eq_add_of_le' (Nat.lt_of_lt_of_le (Nat.succ_pos _) short)
        have inside : ws.length ≤ depth := Nat.le_of_succ_le_succ short
        have takes : Takes ws.length (Pair QuotedForm (Form n)) (fun _ => ((), ()))
            (member textOutline fun _ => outline depth) := by
          refine ⟨?_, fun {m} w rest pair fits ends => ?_⟩
          · rintro _ _ ⟨⟨⟩⟩
            exact ⟨_, _, rfl, rfl, by decide, by decide⟩
          · refine reads_pair pair ?_ ?_
            · rintro w ⟨marks⟩
              refine ⟨_, rfl, fun rest => ?_⟩
              rw [List.append_assoc]
              exact reads_textOutline marks rest
            · intro v before form le blank
              exact ih form (by omega) blank ends
        have read := (collects_object textOutline fun _ => outline depth).reads_enclosed (Or.inr rfl)
          takes enclosed (Nat.le_refl _) rest
        exact reads_valueWith_object blank (read.map fun _ => ())

end

end RecordInference.Json
