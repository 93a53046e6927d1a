import RecordInference.Proofs.Declaration.Listing

/-!
# Types read again as they are displayed

A type is displayed with one blank behind the commas of its list. Where all brackets are closed in
front of such a comma, that blank ends the token (`FieldType.ClosesEarly`), although the list is read
without it. This is the only way in which a type that is read is not read again from what is displayed
for it (`readType_written_iff`).

The tokens of a text are unbroken (`unbroken_of_mem_tokens`), and blanks and commas open and close no
bracket. So the brackets of a list are as deep in the values as they are in the pieces that the values
were read from, and the list can break at the blanks behind its commas only
(`unbroken_intercalate_iff`).
-/

set_option autoImplicit false

namespace RecordInference

open Text Declaration

namespace Declaration

/-- Whether all brackets are closed behind some of the values, in front of further ones, if `depth`
are open in front of them. -/
def ClosesEarly (depth : Nat) (values : List (List Char)) : Prop :=
  ∃ front back, values = front ++ back ∧ front ≠ [] ∧ back ≠ [] ∧
    bracketDepth depth front.flatten = 0

end Declaration

/-- Whether the bracket that opens the list of a type is closed in front of a further value. -/
def FieldType.ClosesEarly : FieldType → Prop
  | .oneOf values => Declaration.ClosesEarly 1 (values.map String.toList)
  | _ => False

namespace Declaration

variable {depth : Nat} {cs t value piece : List Char}

/-! ### Brackets of a value -/

theorem plain_of_blanks (blank : Blanks cs) : Plain cs := by
  intro c member
  have here := blank c member
  refine ⟨?_, ?_⟩
  · rintro rfl
    cases here
  · rintro rfl
    cases here

/-- The blanks around a value open and close no bracket. -/
theorem Padded.bracketDepth_eq (padded : Padded value piece) :
    bracketDepth depth piece = bracketDepth depth value := by
  obtain ⟨bs, bs', blank, blank', rfl⟩ := padded
  rw [bracketDepth_append, bracketDepth_append, bracketDepth_of_plain (plain_of_blanks blank),
    bracketDepth_of_plain (plain_of_blanks blank')]

theorem Padded.unbroken (padded : Padded value piece) (unbroken : Unbroken depth piece) :
    Unbroken depth value := by
  obtain ⟨bs, bs', blank, -, rfl⟩ := padded
  obtain ⟨front, -⟩ := unbroken_append.1 unbroken
  have own := (unbroken_append.1 front).2
  rwa [bracketDepth_of_plain (plain_of_blanks blank)] at own

/-! ### Brackets of a list -/

theorem not_closesEarly_singleton (value : List Char) : ¬ ClosesEarly depth [value] := by
  rintro ⟨front, back, split, some, more, -⟩
  have lengths := congrArg List.length split
  have some := List.length_pos_iff.2 some
  have more := List.length_pos_iff.2 more
  rw [List.length_append, List.length_singleton] at lengths
  omega

/-- The brackets are closed behind the first value, or further on. -/
theorem closesEarly_cons_cons {next : List Char} {rest : List (List Char)} :
    ClosesEarly depth (value :: next :: rest) ↔
      bracketDepth depth value = 0 ∨ ClosesEarly (bracketDepth depth value) (next :: rest) := by
  constructor
  · rintro ⟨front, back, split, some, more, closed⟩
    obtain ⟨first, front, rfl⟩ := List.exists_cons_of_ne_nil some
    obtain ⟨rfl, others⟩ := List.cons.inj split
    rw [List.flatten_cons, bracketDepth_append] at closed
    rcases List.eq_nil_or_concat' front with rfl | ⟨front, last, rfl⟩
    · exact Or.inl closed
    · refine Or.inr ⟨_, back, others, ?_, more, closed⟩
      exact List.append_ne_nil_of_right_ne_nil front (List.cons_ne_nil last [])
  · rintro (closed | ⟨front, back, split, some, more, closed⟩)
    · refine ⟨[value], next :: rest, rfl, List.cons_ne_nil _ _, List.cons_ne_nil _ _, ?_⟩
      rwa [List.flatten_singleton]
    · refine ⟨value :: front, back, ?_, List.cons_ne_nil _ _, more, ?_⟩
      · rw [split, List.cons_append]
      · rwa [List.flatten_cons, bracketDepth_append]

/-- With one blank behind its commas, a list that is unbroken as it was written stays so unless its
brackets are closed early. -/
theorem unbroken_intercalate_iff {values pieces : List (List Char)}
    (padded : List.Forall₂ Padded values pieces)
    (unbroken : Unbroken depth ([','].intercalate pieces)) :
    Unbroken depth ([',', ' '].intercalate values) ↔ ¬ ClosesEarly depth values := by
  induction padded generalizing depth with
  | nil =>
      refine iff_of_true trivial ?_
      rintro ⟨front, back, split, some, -⟩
      exact some (List.append_eq_nil_iff.1 split.symm).1
  | @cons value piece values pieces first others ih =>
      cases others with
      | nil =>
          rw [List.intercalate_singleton] at unbroken ⊢
          exact iff_of_true (first.unbroken unbroken) (not_closesEarly_singleton value)
      | @cons next piece' values pieces second others =>
          -- behind the value the brackets are as deep as behind its piece
          rw [List.intercalate_cons_cons, unbroken_append, unbroken_append, bracketDepth_append,
            first.bracketDepth_eq] at unbroken
          obtain ⟨⟨here, -⟩, later⟩ := unbroken
          have comma : bracketDepth (bracketDepth depth value) [','] = bracketDepth depth value :=
            bracketDepth_of_plain (by decide)
          have gap : bracketDepth (bracketDepth depth value) [',', ' '] =
              bracketDepth depth value := bracketDepth_of_plain (by decide)
          have blank : Unbroken (bracketDepth depth value) [',', ' '] ↔
              bracketDepth depth value ≠ 0 := by
            constructor
            · intro kept
              exact kept.2.1 rfl
            · intro opened
              exact ⟨fun _ => opened, fun _ => opened, trivial⟩
          rw [comma] at later
          rw [List.intercalate_cons_cons, unbroken_append, unbroken_append, bracketDepth_append, gap,
            blank, ih later, closesEarly_cons_cons, not_or]
          exact and_congr_left' (and_iff_right (first.unbroken here))

/-- What stands between the brackets of a list is unbroken behind the first of them. -/
theorem unbroken_bracketed_iff : Unbroken 0 ('[' :: cs ++ [']']) ↔ Unbroken 1 cs := by
  rw [List.cons_append, Unbroken, unbroken_append]
  constructor
  · rintro ⟨-, inside, -⟩
    exact inside
  · intro inside
    -- the brackets themselves are no blanks
    exact ⟨fun blank => absurd blank (by decide), inside, fun blank => absurd blank (by decide),
      trivial⟩

/-- A type of a list that is read has unbroken values unless the list closes early. -/
theorem unbroken_iff_of_readList {values : List String} (read : readList t = .ok values)
    (unbroken : Unbroken 0 t) :
    (FieldType.oneOf values).Unbroken ↔ ¬ (FieldType.oneOf values).ClosesEarly := by
  obtain ⟨pieces, padded, rfl⟩ := listed_of_readList read
  have padded : List.Forall₂ Padded (values.map String.toList) pieces :=
    List.forall₂_map_left_iff.2 padded
  rw [unbroken_bracketed_iff] at unbroken
  rw [FieldType.Unbroken, toList_bracketed, unbroken_bracketed_iff,
    unbroken_intercalate_iff padded unbroken, FieldType.ClosesEarly]

/-! ### Types -/

/-- A list of values that is displayed broken has too many words. -/
theorem readType_oneOf_of_broken {values : List String}
    (broken : ¬ (FieldType.oneOf values).Unbroken) :
    readType (FieldType.oneOf values).written.toList =
      .error (.fieldType (FieldType.oneOf values).written) := by
  obtain ⟨front, ts, split, t, member, -⟩ :=
    exists_of_broken (getLast?_bracketed values) broken (head?_bracketed values) []
  obtain ⟨next, rest, rfl⟩ := List.exists_cons_of_ne_nil (List.ne_nil_of_mem member)
  rw [List.append_nil] at split
  simp only [readType, tokens_oneOf, split, String.ofList_toList]

/-- A type that is read is read again from what is displayed for it, unless the bracket that opens its
list is closed in front of a further value: then what is displayed is no type. -/
theorem readType_written_iff {text : List Char} {type : FieldType}
    (accepted : readType text = .ok type) :
    (readType type.written.toList = .ok type ↔ ¬ type.ClosesEarly) ∧
      (type.ClosesEarly →
        readType type.written.toList = .error (.fieldType type.written)) := by
  rcases regular_or_list_of_readType accepted with ⟨other, regular⟩ | ⟨values, t, token, list, rfl⟩
  · -- only a list has brackets
    obtain ⟨unbroken, closed⟩ : type.Unbroken ∧ ¬ type.ClosesEarly := by
      cases type with
      | oneOf values => exact absurd rfl (other values)
      | text | money | number | yesNo | listOf | object => exact ⟨trivial, id⟩
    exact ⟨iff_of_true (readType_written regular unbroken) closed, fun early => absurd early closed⟩
  · have both := unbroken_iff_of_readList list (unbroken_of_mem_tokens token)
    constructor
    · rw [← both]
      exact ⟨unbroken_of_readType, readType_oneOf (isEnumeration_of_readList list)⟩
    · intro early
      apply readType_oneOf_of_broken
      intro unbroken
      exact both.1 unbroken early

theorem readType_written_iff_nested :
    readType "one of [ car [new] ,van]".toList = .ok (.oneOf ["car [new]", "van"]) ∧
      readType "ONE OF [car [new], van]".toList = .ok (.oneOf ["car [new]", "van"]) ∧
      ¬ (FieldType.oneOf ["car [new]", "van"]).ClosesEarly := by
  have accepted : readType "one of [ car [new] ,van]".toList =
      .ok (.oneOf ["car [new]", "van"]) := by decide +kernel
  have again : readType "ONE OF [car [new], van]".toList =
      .ok (.oneOf ["car [new]", "van"]) := by decide +kernel
  exact ⟨accepted, again, (readType_written_iff accepted).1.1 again⟩

/-- A list may be read whose bracket is closed in front of a comma, and not as it is displayed. -/
theorem not_readType_written_of_closed :
    readType "ONE OF [a],b]".toList = .ok (.oneOf ["a]", "b"]) ∧
      (FieldType.oneOf ["a]", "b"]).written = "ONE OF [a], b]" ∧
      readType (FieldType.oneOf ["a]", "b"]).written.toList ≠ .ok (.oneOf ["a]", "b"]) := by
  refine ⟨by decide +kernel, by decide +kernel, by decide +kernel⟩

end Declaration

end RecordInference
