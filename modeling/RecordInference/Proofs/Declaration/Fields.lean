import RecordInference.Declaration.Reading
import RecordInference.Proofs.Outcome

/-!
# Fields of definitions

Within a definition that is read from a declaration the names of fields differ
(`distinct_of_read`). Every line keeps this of the closed definitions and of the open one.
-/

set_option autoImplicit false

namespace RecordInference

/-- Whether the names of the fields of a definition differ. -/
def Definition.Distinct (d : Definition) : Prop := (d.fields.map (·.name)).Nodup

namespace Declaration

/-- Whether the names of fields differ within every definition read so far. -/
def State.Distinct (s : State) : Prop := ∀ d ∈ s.allDefinitions, d.Distinct

theorem State.allDefinitions_close (s : State) : s.close.allDefinitions = s.allDefinitions :=
  List.append_nil _

theorem State.Distinct.close {s : State} (h : s.Distinct) : s.close.Distinct := by
  intro d member
  rw [s.allDefinitions_close] at member
  exact h d member

theorem distinct_of_addField {d d' : Definition} {f : Field} (h : d.Distinct)
    (added : addField d f = .ok d') : d'.Distinct := by
  simp only [addField] at added
  split at added
  · cases added
  · next fresh =>
    -- the name of the new field is that of no other
    cases added
    simp only [Bool.not_eq_true, List.any_eq_false, decide_eq_true_eq] at fresh
    simp only [Definition.Distinct]
    rw [List.map_append, List.map_singleton, List.nodup_append]
    refine ⟨h, List.nodup_cons.2 ⟨List.not_mem_nil, List.nodup_nil⟩, ?_⟩
    intro name old name' new
    obtain ⟨g, found, rfl⟩ := List.mem_map.1 old
    rw [List.mem_singleton.1 new]
    exact fresh g found

variable {line indent : Nat} {s s' : State}

theorem distinct_of_define {rest : List Char} (h : s.Distinct)
    (defined : define line indent rest s = .ok s') : s'.Distinct := by
  simp only [define] at defined
  split at defined
  · cases defined
  · split at defined
    · cases defined
    · -- a definition is opened without fields
      cases defined
      intro d member
      rcases List.mem_append.1 member with closed | opened
      · exact h d (List.mem_append_left _ closed)
      · rw [List.mem_singleton.1 opened]
        exact List.nodup_nil

theorem distinct_of_set {o : Override} (h : s.Distinct) : (set line o s).Distinct := by
  simp only [set]
  split
  · exact h
  · split
    · exact h
    · exact h

theorem distinct_of_modifyLast {text : List Char} (h : s.Distinct)
    (modified : modifyLast text s = .ok s') : s'.Distinct := by
  obtain ⟨pipeline, -, amended⟩ := Except.bind_eq_ok_iff.1 modified
  split at amended
  · cases amended
    exact h
  · cases amended

theorem distinct_of_construct {keyword : Keyword} {text rest : List Char} (h : s.Distinct)
    (taken : construct line indent keyword text rest s = .ok s') : s'.Distinct := by
  have h' : State.Distinct { s with inRun := false } := h
  cases keyword with
  | define => exact distinct_of_define h' taken
  | set =>
      obtain ⟨o, -, rfl⟩ := Except.map_eq_ok_iff.1 taken
      exact distinct_of_set h
  | modifier kind => exact distinct_of_modifyLast h' taken
  | source | output | step | flag =>
      obtain ⟨_, -, rfl⟩ := Except.map_eq_ok_iff.1 taken
      exact h'

theorem distinct_of_topLine {text : List Char} (h : s.Distinct)
    (taken : topLine line indent text s = .ok s') : s'.Distinct := by
  simp only [topLine] at taken
  split at taken
  · exact distinct_of_construct h taken
  · split at taken
    · cases taken
    · cases taken

theorem distinct_of_readLine {raw : List Char} (h : s.Distinct)
    (taken : readLine line raw s = .ok s') : s'.Distinct := by
  simp only [readLine] at taken
  split at taken
  · cases taken
    exact h
  · split at taken
    · next block opened =>
      split at taken
      · -- a field goes into the open definition, which stands last
        obtain ⟨f, -, taken⟩ := Except.bind_eq_ok_iff.1 taken
        obtain ⟨definition, added, taken⟩ := Except.bind_eq_ok_iff.1 taken
        cases taken
        have parts : s.allDefinitions = s.definitions ++ [block.definition] := by
          rw [State.allDefinitions, opened]
          rfl
        have old : ∀ d ∈ s.definitions ++ [block.definition], d.Distinct := parts ▸ h
        obtain ⟨closed, last⟩ := List.forall_mem_append.1 old
        refine List.forall_mem_append.2 ⟨closed, ?_⟩
        exact List.forall_mem_singleton.2
          (distinct_of_addField (List.forall_mem_singleton.1 last) added)
      · exact distinct_of_topLine h.close taken
    · exact distinct_of_topLine h taken

theorem distinct_of_readLines {raws : List (List Char)} (h : s.Distinct)
    (taken : readLines line raws s = .ok s') : s'.Distinct := by
  induction raws generalizing line s with
  | nil =>
      cases taken
      exact h
  | cons raw rest ih =>
      rw [readLines] at taken
      split at taken
      · cases taken
      · next first => exact ih (distinct_of_readLine h first) taken

/-- The names of fields differ within every definition of a declaration. -/
theorem distinct_of_read {text : String} {program : Program} (h : read text = .ok program) :
    ∀ d ∈ program.definitions, d.Distinct := by
  obtain ⟨s, taken, rfl⟩ := Except.map_eq_ok_iff.1 h
  exact distinct_of_readLines (s := {}) nofun taken

end Declaration

end RecordInference
