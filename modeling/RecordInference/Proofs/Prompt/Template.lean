import RecordInference.Prompt.Template

/-!
# Templates without remainder

If every path of a template has a value in a record, filling the template replaces every
placeholder by the value at its path (`fill_of_paths`). Nothing else of the record is used
(`fill_congr`).
-/

set_option autoImplicit false

namespace RecordInference.Template

/-- What stands for a piece once it is filled: nothing if it is a placeholder without a value. -/
def Piece.value? (record : Record) : Piece → Option (List Char)
  | char c => some [c]
  | field path => (record.lookup? path).map fun v => v.render.toList

theorem Piece.fill_eq {record : Record} {piece : Piece} {cs : List Char}
    (h : piece.value? record = some cs) : piece.fill record = cs := by
  cases piece with
  | char c =>
      cases h
      rfl
  | field path =>
      obtain ⟨v, found, rfl⟩ := Option.map_eq_some_iff.1 h
      rw [fill, found]

theorem values_of_paths {record : Record} {pieces : List Piece}
    (resolved : ∀ path ∈ pieces.filterMap Piece.path?, (record.lookup? path).isSome = true) :
    ∃ values, pieces.mapM (Piece.value? record) = some values ∧
      pieces.flatMap (Piece.fill record) = values.flatten := by
  induction pieces with
  | nil => exact ⟨[], rfl, rfl⟩
  | cons piece rest ih =>
      -- a character stands for itself, and a placeholder for the value at its path
      have first : ∃ cs, piece.value? record = some cs := by
        cases piece with
        | char c => exact ⟨[c], rfl⟩
        | field path =>
            obtain ⟨v, found⟩ := Option.isSome_iff_exists.1 (resolved path List.mem_cons_self)
            exact ⟨v.render.toList, by rw [Piece.value?, found, Option.map_some]⟩
      have later : ∀ path ∈ rest.filterMap Piece.path?, (record.lookup? path).isSome = true := by
        intro path member
        obtain ⟨piece', listed, found⟩ := List.mem_filterMap.1 member
        exact resolved path (List.mem_filterMap.2 ⟨piece', List.mem_cons_of_mem _ listed, found⟩)
      obtain ⟨cs, value⟩ := first
      obtain ⟨values, mapped, filled⟩ := ih later
      refine ⟨cs :: values, ?_, ?_⟩
      · rw [List.mapM_cons, value, mapped]
        rfl
      · rw [List.flatMap_cons, Piece.fill_eq value, filled, List.flatten_cons]

/-- Filling leaves no placeholder as it is written if every path has a value. -/
theorem fill_of_paths {record : Record} {text : String}
    (resolved : ∀ path ∈ paths text, (record.lookup? path).isSome = true) :
    ∃ values, (pieces text.toList).mapM (Piece.value? record) = some values ∧
      fill text record = String.ofList values.flatten := by
  obtain ⟨values, mapped, filled⟩ := values_of_paths resolved
  exact ⟨values, mapped, congrArg String.ofList filled⟩

/-- Filling uses only what is at the paths of the template. -/
theorem fill_congr {text : String} {record record' : Record}
    (agree : ∀ path ∈ paths text, record.lookup? path = record'.lookup? path) :
    fill text record = fill text record' := by
  have each : ∀ piece ∈ pieces text.toList, piece.fill record = piece.fill record' := by
    intro piece member
    cases piece with
    | char c => rfl
    | field path =>
        have named : path ∈ paths text := List.mem_filterMap.2 ⟨.field path, member, rfl⟩
        rw [Piece.fill, Piece.fill, agree path named]
  rw [fill, fill, List.flatMap_def, List.flatMap_def, List.map_congr_left each]

end RecordInference.Template
