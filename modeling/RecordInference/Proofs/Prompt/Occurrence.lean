import RecordInference.Proofs.Prompt.Template
import RecordInference.Proofs.Text.Dotted

/-!
# Occurrences of placeholders

A placeholder is written as an opening brace, a dotted sequence of identifiers and a closing brace.
Where one is written in a text, no other begins before it ends, since a path has no brace in it
(`occurs_braced_append_iff`). So a text is gaps with its placeholders between them, and these are
all that occur in it, in order and once each; filling the template keeps the gaps and puts a value
in the place of each placeholder (`exists_marks`).
-/

set_option autoImplicit false

namespace RecordInference.Template

open Text (Dotted)

variable {cs rest path : List Char} {c : Char}

/-- A placeholder as it is written. -/
def braced (path : List Char) : List Char := '{' :: (path ++ ['}'])

/-- The path of a placeholder, and characters in front of the placeholder. -/
structure Mark where
  front : List Char
  path : List Char

/-- The mark with more characters in front. -/
def Mark.after (cs : List Char) (mark : Mark) : Mark := { mark with front := cs ++ mark.front }

/-- Whether the text begins with the characters of the mark and then its placeholder. -/
def Occurs (cs : List Char) (mark : Mark) : Prop :=
  Dotted mark.path ∧ mark.front ++ braced mark.path <+: cs

/-- Gaps with something for a path between them. -/
def spliced (value : List Char → List Char) : List Mark → List Char → List Char
  | [], last => last
  | mark :: rest, last => mark.front ++ value mark.path ++ spliced value rest last

/-- Marks with all that is in front of them, from marks with the gap in front of each. -/
def spots : List Mark → List Mark
  | [] => []
  | mark :: rest => mark :: (spots rest).map (Mark.after (mark.front ++ braced mark.path))

/-- What stands for a path in a filled template: the value there, or the placeholder. -/
def standIn (record : Record) (path : List Char) : List Char :=
  match record.lookup? (String.ofList path) with
  | some v => v.render.toList
  | none => braced path

/-! ### A placeholder at the start of a text -/

theorem isPath_iff : isPath path = true ↔ Dotted path := by
  rw [Text.dotted_iff, isPath, List.all_eq_true]

theorem isPlain_of_dotted (h : Dotted path) : ∀ c ∈ path, isPlain c = true := by
  intro c member
  have opening : c ≠ '{' := fun same => h.not_mem (by decide) (same ▸ member)
  have closing : c ≠ '}' := fun same => h.not_mem (by decide) (same ▸ member)
  simp [isPlain, opening, closing]

theorem placeholder?_eq_some_iff {after : List Char} :
    placeholder? cs = some (path, after) ↔ Dotted path ∧ cs = path ++ '}' :: after := by
  constructor
  · intro h
    rw [placeholder?] at h
    split at h
    · next rest stop =>
      split at h
      · next names =>
        cases h
        refine ⟨isPath_iff.1 names, ?_⟩
        rw [← stop, List.takeWhile_append_dropWhile]
      · cases h
    · cases h
  · rintro ⟨dotted, rfl⟩
    have plain := isPlain_of_dotted dotted
    have front : (path ++ '}' :: after).takeWhile isPlain = path := by
      rw [List.takeWhile_append_of_pos plain, List.takeWhile_cons_of_neg (by decide),
        List.append_nil]
    have behind : (path ++ '}' :: after).dropWhile isPlain = '}' :: after := by
      rw [List.dropWhile_append_of_pos plain, List.dropWhile_cons_of_neg (by decide)]
    rw [placeholder?, behind, front]
    exact if_pos (isPath_iff.2 dotted)

/-! ### Where placeholders occur -/

theorem not_occurs_nil (mark : Mark) : ¬ Occurs [] mark := by
  rintro ⟨-, written⟩
  have none := List.prefix_nil.1 written
  rw [List.append_eq_nil_iff] at none
  cases none.2

/-- A placeholder begins at the first character, or it occurs behind that character. -/
theorem occurs_cons_iff {mark : Mark} : Occurs (c :: rest) mark ↔
    (c = '{' ∧ mark.front = [] ∧ ∃ after, placeholder? rest = some (mark.path, after)) ∨
      ∃ later, Occurs rest later ∧ mark = later.after [c] := by
  obtain ⟨front, path⟩ := mark
  cases front with
  | nil =>
      constructor
      · rintro ⟨dotted, after, same⟩
        obtain ⟨rfl, rfl⟩ := List.cons.inj same
        left
        refine ⟨rfl, rfl, after, placeholder?_eq_some_iff.2 ⟨dotted, ?_⟩⟩
        exact List.append_assoc path ['}'] after
      · rintro (⟨rfl, -, after, found⟩ | ⟨later, -, same⟩)
        · obtain ⟨dotted, rfl⟩ := placeholder?_eq_some_iff.1 found
          exact ⟨dotted, after, congrArg _ (List.append_assoc path ['}'] after)⟩
        · cases same
  | cons d front =>
      constructor
      · rintro ⟨dotted, written⟩
        obtain ⟨rfl, behind⟩ := List.cons_prefix_cons.1 written
        right
        exact ⟨⟨front, path⟩, ⟨dotted, behind⟩, rfl⟩
      · rintro (⟨-, none, -⟩ | ⟨later, ⟨dotted, written⟩, same⟩)
        · cases none
        · cases same
          exact ⟨dotted, List.cons_prefix_cons.2 ⟨rfl, written⟩⟩

/-- No placeholder begins among characters that are no opening brace. -/
theorem occurs_append_iff {front : List Char} (plain : '{' ∉ front) {mark : Mark} :
    Occurs (front ++ rest) mark ↔ ∃ later, Occurs rest later ∧ mark = later.after front := by
  induction front generalizing mark with
  | nil =>
      constructor
      · intro occurs
        exact ⟨mark, occurs, rfl⟩
      · rintro ⟨later, occurs, rfl⟩
        exact occurs
  | cons d front ih =>
      rw [List.mem_cons, not_or] at plain
      rw [List.cons_append, occurs_cons_iff]
      constructor
      · rintro (⟨opening, -⟩ | ⟨between, inside, rfl⟩)
        · exact absurd opening.symm plain.1
        · obtain ⟨later, occurs, rfl⟩ := (ih plain.2).1 inside
          exact ⟨later, occurs, rfl⟩
      · rintro ⟨later, occurs, rfl⟩
        right
        exact ⟨later.after front, (ih plain.2).2 ⟨later, occurs, rfl⟩, rfl⟩

/-- Behind a placeholder the text is searched from its end on. -/
theorem occurs_braced_append_iff (dotted : Dotted path) {mark : Mark} :
    Occurs (braced path ++ rest) mark ↔
      mark = ⟨[], path⟩ ∨ ∃ later, Occurs rest later ∧ mark = later.after (braced path) := by
  -- the opening brace is the only one up to the end of the placeholder
  have plain : '{' ∉ path ++ ['}'] := by
    intro member
    rcases List.mem_append.1 member with inside | last
    · exact dotted.not_mem (by decide) inside
    · cases List.mem_singleton.1 last
  have found : placeholder? ((path ++ ['}']) ++ rest) = some (path, rest) :=
    placeholder?_eq_some_iff.2 ⟨dotted, List.append_assoc path ['}'] rest⟩
  rw [braced, List.cons_append, occurs_cons_iff, found]
  constructor
  · rintro (⟨-, start, after, same⟩ | ⟨between, inside, rfl⟩)
    · left
      obtain ⟨front, path'⟩ := mark
      cases start
      cases same
      rfl
    · right
      obtain ⟨later, occurs, rfl⟩ := (occurs_append_iff plain).1 inside
      exact ⟨later, occurs, rfl⟩
  · rintro (rfl | ⟨later, occurs, rfl⟩)
    · exact Or.inl ⟨rfl, rfl, rest, rfl⟩
    · right
      exact ⟨later.after (path ++ ['}']), (occurs_append_iff plain).2 ⟨later, occurs, rfl⟩, rfl⟩

/-! ### Gaps and marks -/

/-- A piece with its path, if it has one, written in some way. -/
def Piece.written (value : List Char → List Char) : Piece → List Char
  | char c => [c]
  | field path => value path.toList

theorem fill_eq_written (record : Record) (piece : Piece) :
    piece.fill record = piece.written (standIn record) := by
  cases piece with
  | char c => rfl
  | field path =>
      rw [Piece.fill, Piece.written, standIn, String.ofList_toList]
      rfl

/-- The gaps and placeholders of pieces: each mark has the gap in front of it. -/
def marks : List Piece → List Mark × List Char
  | [] => ([], [])
  | .char c :: rest =>
    match marks rest with
    | ([], last) => ([], c :: last)
    | (mark :: later, last) => (mark.after [c] :: later, last)
  | .field path :: rest => (⟨[], path.toList⟩ :: (marks rest).1, (marks rest).2)

theorem spliced_marks (value : List Char → List Char) (pieces : List Piece) :
    spliced value (marks pieces).1 (marks pieces).2 = pieces.flatMap (Piece.written value) := by
  induction pieces with
  | nil => rfl
  | cons piece rest ih =>
      rw [List.flatMap_cons, ← ih]
      cases piece with
      | field path => rfl
      | char c =>
          rw [marks]
          split
          · next last none => rw [none]; rfl
          · next mark later last some => rw [some]; simp [spliced, Mark.after, Piece.written]

theorem spots_marks_char (c : Char) (rest : List Piece) :
    spots (marks (.char c :: rest)).1 = (spots (marks rest).1).map (Mark.after [c]) := by
  rw [marks]
  split
  · next last none => rw [none]; rfl
  · next mark later last some =>
    rw [some, spots, spots, List.map_cons, List.map_map]
    rfl

/-- Each placeholder ends before the next one begins. -/
theorem pairwise_spots (marks : List Mark) :
    (spots marks).Pairwise fun mark later => mark.front ++ braced mark.path <+: later.front := by
  induction marks with
  | nil => exact List.Pairwise.nil
  | cons mark rest ih =>
      rw [spots, List.pairwise_cons, List.pairwise_map]
      constructor
      · intro later member
        obtain ⟨next, -, rfl⟩ := List.mem_map.1 member
        exact List.prefix_append _ next.front
      · refine ih.imp fun {first second} before => ?_
        rw [Mark.after, Mark.after, List.append_assoc]
        exact (List.prefix_append_right_inj _).2 before

theorem paths_eq_spots (pieces : List Piece) :
    pieces.filterMap Piece.path? =
      (spots (marks pieces).1).map fun mark => String.ofList mark.path := by
  induction pieces with
  | nil => rfl
  | cons piece rest ih =>
      cases piece with
      | char c =>
          rw [spots_marks_char, List.map_map]
          exact ih
      | field path =>
          rw [marks, spots, List.map_cons, List.map_map, String.ofList_toList]
          exact congrArg (path :: ·) ih

/-! ### The placeholders of a template -/

/-- The pieces of a text written down are the text. -/
theorem flatMap_written_pieces (cs : List Char) :
    (pieces cs).flatMap (Piece.written braced) = cs := by
  fun_induction pieces cs with
  | case1 => rfl
  | case2 rest path after found ih =>
      obtain ⟨-, rfl⟩ := placeholder?_eq_some_iff.1 found
      rw [List.flatMap_cons, ih, Piece.written, String.toList_ofList]
      simp [braced]
  | case3 rest none ih =>
      rw [List.flatMap_cons, ih]
      rfl
  | case4 c rest other ih =>
      rw [List.flatMap_cons, ih]
      rfl

/-- The marks of a text are its occurrences of placeholders. -/
theorem mem_spots_iff (cs : List Char) (mark : Mark) :
    mark ∈ spots (marks (pieces cs)).1 ↔ Occurs cs mark := by
  fun_induction pieces cs generalizing mark with
  | case1 => exact iff_of_false List.not_mem_nil (not_occurs_nil mark)
  | case2 rest path after found ih =>
      obtain ⟨dotted, rfl⟩ := placeholder?_eq_some_iff.1 found
      have same : '{' :: (path ++ '}' :: after) = braced path ++ after := by simp [braced]
      rw [same, occurs_braced_append_iff dotted, marks, spots, List.mem_cons, List.mem_map,
        String.toList_ofList, List.nil_append]
      simp only [ih, eq_comm]
  | case3 rest none ih =>
      rw [spots_marks_char, List.mem_map, occurs_cons_iff, none]
      simp [ih, eq_comm]
  | case4 c rest other ih =>
      rw [spots_marks_char, List.mem_map, occurs_cons_iff]
      simp [ih, eq_comm, other]

/-- A text is gaps with placeholders between them. These are the occurrences of placeholders in the
text, in order and once each, and their paths are those of the template. Filling the template from
a record keeps the gaps and has, for every placeholder, the value at its path as it is rendered, or
the placeholder where there is no value. -/
theorem exists_marks (text : String) :
    ∃ (marks : List Mark) (last : List Char),
      text.toList = spliced braced marks last ∧
      (∀ mark, mark ∈ spots marks ↔ Occurs text.toList mark) ∧
      ((spots marks).Pairwise fun mark later => mark.front ++ braced mark.path <+: later.front) ∧
      paths text = (spots marks).map (fun mark => String.ofList mark.path) ∧
      ∀ record : Record, (fill text record).toList = spliced (standIn record) marks last := by
  refine ⟨(marks (pieces text.toList)).1, (marks (pieces text.toList)).2, ?_,
    mem_spots_iff text.toList, pairwise_spots _, paths_eq_spots _, ?_⟩
  · rw [spliced_marks, flatMap_written_pieces]
  · intro record
    have written : Piece.fill record = Piece.written (standIn record) :=
      funext (fill_eq_written record)
    rw [spliced_marks, ← written, fill, String.toList_ofList]

/-- A value that has braces in it is put in as it is. -/
example : fill "\x7b\x7bx\x7d\x7by\x7d \x7bz\x7d" [("x", .text "\x7by\x7d"), ("y", .text "1")] =
    "\x7b\x7by\x7d1 \x7bz\x7d" := by
  decide +kernel

end RecordInference.Template
