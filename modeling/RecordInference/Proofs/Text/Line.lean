import RecordInference.Proofs.Text.Blank

/-!
# Line ends

Where a text is cut behind a line end its lines are those of the two parts (`lines_append`). The
characters up to a line end are one line (`lines_append_newline`), less a carriage return right
before the end. At a separator the pieces of a text are those of its two parts
(`splitOn_append_cons`). Pieces that are joined with a separator are split off again
(`splitOn_intercalate`), and the pieces of a text with the separator between them are the text
(`intercalate_splitOn`).
-/

set_option autoImplicit false

namespace RecordInference.Text

/-- What follows the text starts a new line. -/
def EndsLine (cs : List Char) : Prop := cs = [] ∨ cs.getLast? = some '\n'

/-- The text without a carriage return at its end. -/
def dropReturn (cs : List Char) : List Char :=
  if cs.getLast? = some '\r' then cs.dropLast else cs

theorem dropReturn_cons (c : Char) {rest : List Char} (more : rest ≠ []) :
    dropReturn (c :: rest) = c :: dropReturn rest := by
  obtain ⟨d, rest, rfl⟩ := List.exists_cons_of_ne_nil more
  rw [dropReturn, dropReturn, List.getLast?_cons_cons]
  split
  · rfl
  · rfl

/-- All that may go at the end is a blank. -/
theorem exists_eq_dropReturn_append (cs : List Char) :
    ∃ bs, Blanks bs ∧ cs = dropReturn cs ++ bs := by
  rw [dropReturn]
  split
  · next last =>
    obtain ⟨front, rfl⟩ := List.getLast?_eq_some_iff.1 last
    refine ⟨['\r'], List.forall_mem_singleton.2 (by decide), ?_⟩
    rw [List.dropLast_concat]
  · exact ⟨[], List.forall_mem_nil _, (List.append_nil _).symm⟩

theorem trim_dropReturn (cs : List Char) : trim (dropReturn cs) = trim cs := by
  obtain ⟨bs, blank, eq⟩ := exists_eq_dropReturn_append cs
  conv_rhs => rw [eq, trim_append_blanks blank]

theorem lines_cons {c : Char} {rest : List Char} (inside : c ≠ '\n')
    (more : c = '\r' → rest.head? ≠ some '\n') : lines (c :: rest) =
      match lines rest with
      | [] => [[c]]
      | line :: lines => (c :: line) :: lines := by
  refine lines.eq_4 c rest inside fun rest' same eq => more same ?_
  rw [eq, List.head?_cons]

theorem lines_append_newline {line : List Char} (whole : '\n' ∉ line) (cs : List Char) :
    lines (line ++ '\n' :: cs) = dropReturn line :: lines cs := by
  induction line with
  | nil => rfl
  | cons c rest ih =>
      simp only [List.mem_cons, not_or] at whole
      obtain ⟨inside, whole⟩ := whole
      cases rest with
      | nil =>
          by_cases last : c = '\r'
          · subst last
            rfl
          · rw [List.singleton_append, lines_cons (Ne.symm inside) (fun same => absurd same last)]
            simp [lines, dropReturn, last]
      | cons d rest =>
          have next : d ≠ '\n' := fun same => whole (same ▸ List.mem_cons_self)
          rw [List.cons_append, lines_cons (Ne.symm inside) (fun _ => by simpa using next), ih whole,
            dropReturn_cons c (List.cons_ne_nil d rest)]

/-- The characters behind the last line end are a line as they stand. -/
theorem lines_of_not_mem {line : List Char} (whole : '\n' ∉ line) (more : line ≠ []) :
    lines line = [line] := by
  induction line with
  | nil => exact absurd rfl more
  | cons c rest ih =>
      simp only [List.mem_cons, not_or] at whole
      obtain ⟨inside, whole⟩ := whole
      have next : rest.head? ≠ some '\n' := fun same => whole (List.mem_of_head? same)
      rw [lines_cons (Ne.symm inside) (fun _ => next)]
      cases rest with
      | nil => rfl
      | cons d rest => rw [ih whole (List.cons_ne_nil d rest)]

/-- A text is what ends at a line end, and the characters behind the last one. -/
theorem exists_endsLine_append (cs : List Char) :
    ∃ front line, cs = front ++ line ∧ EndsLine front ∧ '\n' ∉ line := by
  induction cs with
  | nil => exact ⟨[], [], rfl, Or.inl rfl, List.not_mem_nil⟩
  | cons c rest ih =>
      obtain ⟨front, line, rfl, ends, whole⟩ := ih
      rcases ends with rfl | ends
      · by_cases inside : c = '\n'
        · exact ⟨[c], line, rfl, Or.inr (by simp [inside]), whole⟩
        · refine ⟨[], c :: line, rfl, Or.inl rfl, ?_⟩
          simpa [Ne.symm inside] using whole
      · refine ⟨c :: front, line, rfl, Or.inr ?_, whole⟩
        rw [List.getLast?_cons, ends]
        rfl

/-- Behind a line end the lines are counted anew. -/
theorem lines_append {front : List Char} (ends : EndsLine front) (cs : List Char) :
    lines (front ++ cs) = lines front ++ lines cs := by
  -- the characters of the current line are passed on until its end is reached
  suffices h : ∀ line, '\n' ∉ line → front.getLast? = some '\n' →
      lines (line ++ front ++ cs) = lines (line ++ front) ++ lines cs by
    rcases ends with rfl | ends
    · rfl
    · exact h [] List.not_mem_nil ends
  clear ends
  induction front with
  | nil => simp
  | cons c rest ih =>
      intro line whole ends
      by_cases inside : c = '\n'
      · subst inside
        rw [List.append_assoc, List.cons_append, lines_append_newline whole,
          lines_append_newline whole, List.cons_append]
        rcases List.eq_nil_or_concat' rest with rfl | ⟨more, last, rfl⟩
        · rfl
        · rw [← List.cons_append, List.getLast?_concat] at ends
          have rest := ih [] List.not_mem_nil (by rw [List.getLast?_concat, ends])
          exact congrArg _ rest
      · have more : rest ≠ [] := by
          rintro rfl
          exact inside (Option.some.inj ends)
        obtain ⟨d, rest, rfl⟩ := List.exists_cons_of_ne_nil more
        rw [List.getLast?_cons_cons] at ends
        have longer := ih (line ++ [c]) (by simp [whole, Ne.symm inside]) ends
        simpa using longer

/-- No line has a line end in it. -/
theorem not_mem_of_mem_lines {cs line : List Char} (h : line ∈ lines cs) : '\n' ∉ line := by
  fun_induction lines cs generalizing line with
  | case1 => cases h
  | case2 rest ih | case3 rest ih =>
      rcases List.mem_cons.1 h with rfl | later
      · exact List.not_mem_nil
      · exact ih later
  | case4 c rest inside more none ih =>
      rw [List.mem_singleton.1 h]
      exact fun same => inside (List.mem_singleton.1 same).symm
  | case5 c rest inside more first others split ih =>
      rw [split] at ih
      rcases List.mem_cons.1 h with rfl | later
      · intro member
        rcases List.mem_cons.1 member with same | member
        · exact inside same.symm
        · exact ih List.mem_cons_self member
      · exact ih (List.mem_cons_of_mem _ later)

/-! ### Pieces -/

theorem splitOn_of_not_mem {sep : Char} {piece : List Char} (whole : sep ∉ piece) :
    splitOn sep piece = [piece] := by
  induction piece with
  | nil => rfl
  | cons c rest ih =>
      simp only [List.mem_cons, not_or] at whole
      rw [splitOn, if_neg (Ne.symm whole.1), ih whole.2]

/-- No piece has the separator in it. -/
theorem not_mem_of_mem_splitOn {sep : Char} {cs piece : List Char} (h : piece ∈ splitOn sep cs) :
    sep ∉ piece := by
  induction cs generalizing piece with
  | nil =>
      rw [List.mem_singleton.1 h]
      exact List.not_mem_nil
  | cons c rest ih =>
      rw [splitOn] at h
      split at h
      · rcases List.mem_cons.1 h with rfl | later
        · exact List.not_mem_nil
        · exact ih later
      · next other =>
        -- the character goes in front of the first piece behind it
        split at h
        · rw [List.mem_singleton.1 h]
          exact fun same => other (List.mem_singleton.1 same).symm
        · next first pieces split =>
          have whole : ∀ piece ∈ first :: pieces, sep ∉ piece := fun piece member =>
            ih (split ▸ member)
          rcases List.mem_cons.1 h with rfl | later
          · intro member
            rcases List.mem_cons.1 member with same | inside
            · exact other same.symm
            · exact whole first List.mem_cons_self inside
          · exact whole piece (List.mem_cons_of_mem _ later)

/-- A piece has no characters of its own. -/
theorem subset_of_mem_splitOn {sep : Char} {cs piece : List Char} (h : piece ∈ splitOn sep cs) :
    piece ⊆ cs := by
  induction cs generalizing piece with
  | nil =>
      rw [List.mem_singleton.1 h]
      exact List.Subset.refl []
  | cons c rest ih =>
      rw [splitOn] at h
      split at h
      · rcases List.mem_cons.1 h with rfl | later
        · exact List.nil_subset _
        · exact List.subset_cons_of_subset c (ih later)
      · split at h
        · rw [List.mem_singleton.1 h]
          exact List.cons_subset_cons c (List.nil_subset rest)
        · next first pieces split =>
          have inside : ∀ piece ∈ first :: pieces, piece ⊆ rest := fun piece member =>
            ih (split ▸ member)
          rcases List.mem_cons.1 h with rfl | later
          · exact List.cons_subset_cons c (inside first List.mem_cons_self)
          · exact List.subset_cons_of_subset c (inside piece (List.mem_cons_of_mem _ later))

/-- At a separator the pieces are those of the two parts. -/
theorem splitOn_append_cons (sep : Char) (front cs : List Char) :
    splitOn sep (front ++ sep :: cs) = splitOn sep front ++ splitOn sep cs := by
  induction front with
  | nil =>
      rw [List.nil_append, splitOn.eq_2, if_pos rfl]
      rfl
  | cons c rest ih =>
      obtain ⟨piece, pieces, split⟩ := List.exists_cons_of_ne_nil (splitOn_ne_nil sep rest)
      rw [split, List.cons_append] at ih
      rw [List.cons_append, splitOn, splitOn, ih, split]
      split
      · rfl
      · rfl

theorem splitOn_append {sep : Char} {piece : List Char} (whole : sep ∉ piece) (cs : List Char) :
    splitOn sep (piece ++ sep :: cs) = piece :: splitOn sep cs := by
  rw [splitOn_append_cons, splitOn_of_not_mem whole]
  rfl

/-- Characters in front that are no separators belong to the first piece. -/
theorem splitOn_append_of_not_mem {sep : Char} {front : List Char} (whole : sep ∉ front)
    {cs piece : List Char} {pieces : List (List Char)} (split : splitOn sep cs = piece :: pieces) :
    splitOn sep (front ++ cs) = (front ++ piece) :: pieces := by
  induction front with
  | nil => exact split
  | cons c rest ih =>
      simp only [List.mem_cons, not_or] at whole
      rw [List.cons_append, splitOn, if_neg (Ne.symm whole.1), ih whole.2]
      rfl

/-- Pieces that are joined with a separator are split off again. -/
theorem splitOn_intercalate {sep : Char} {pieces : List (List Char)} (some : pieces ≠ [])
    (whole : ∀ piece ∈ pieces, sep ∉ piece) :
    splitOn sep ([sep].intercalate pieces) = pieces := by
  induction pieces with
  | nil => exact absurd rfl some
  | cons piece rest ih =>
      obtain ⟨first, others⟩ := List.forall_mem_cons.1 whole
      cases rest with
      | nil => rw [List.intercalate_singleton, splitOn_of_not_mem first]
      | cons next rest =>
          rw [List.intercalate_cons_cons, List.append_assoc, List.singleton_append,
            splitOn_append first, ih (List.cons_ne_nil next rest) others]

theorem mem_intercalate {sep c : Char} {pieces : List (List Char)}
    (h : c ∈ [sep].intercalate pieces) : c = sep ∨ ∃ piece ∈ pieces, c ∈ piece := by
  induction pieces with
  | nil => cases h
  | cons piece rest ih =>
      cases rest with
      | nil =>
          rw [List.intercalate_singleton] at h
          exact Or.inr ⟨piece, List.mem_singleton_self piece, h⟩
      | cons next rest =>
          rw [List.intercalate_cons_cons, List.append_assoc, List.mem_append] at h
          rcases h with first | later
          · exact Or.inr ⟨piece, List.mem_cons_self, first⟩
          · rcases List.mem_cons.1 later with rfl | later
            · exact Or.inl rfl
            · rcases ih later with comma | ⟨other, there, inside⟩
              · exact Or.inl comma
              · exact Or.inr ⟨other, List.mem_cons_of_mem _ there, inside⟩

/-- The pieces of a text with the separator between them are the text. -/
theorem intercalate_splitOn (sep : Char) (cs : List Char) :
    [sep].intercalate (splitOn sep cs) = cs := by
  induction cs with
  | nil => rfl
  | cons c rest ih =>
      obtain ⟨piece, pieces, split⟩ := List.exists_cons_of_ne_nil (splitOn_ne_nil sep rest)
      rw [split] at ih
      rw [splitOn, split]
      split
      · next here => rw [List.intercalate_cons_cons, ih, here, List.nil_append, List.singleton_append]
      · -- the character goes in front of the first piece
        cases pieces with
        | nil => rw [← ih, List.intercalate_singleton, List.intercalate_singleton]
        | cons next pieces =>
            rw [← ih, List.intercalate_cons_cons, List.intercalate_cons_cons, List.cons_append,
              List.cons_append]

end RecordInference.Text
