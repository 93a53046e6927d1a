import RecordInference.Proofs.Declaration.Fields
import RecordInference.Proofs.Schema.Conformance
import RecordInference.Schema.Resolution

/-!
# Distinct fields of schemas

Where the names of fields differ within every definition they differ within every object of the
schemas (`distinct_of_resolve`). Every visit of a definition keeps this of the schemas that are
finished.
-/

set_option autoImplicit false

namespace RecordInference

namespace Keyed

variable {α : Type} {P : α → Prop}

theorem forall_insert {k : String} {v : α} {m : Keyed α} (new : P v) (each : ∀ e ∈ m, P e.2) :
    ∀ e ∈ insert k v m, P e.2 := by
  induction m with
  | nil => exact List.forall_mem_singleton.2 new
  | cons e rest ih =>
      obtain ⟨k', v'⟩ := e
      obtain ⟨old, later⟩ := List.forall_mem_cons.1 each
      rw [insert]
      split
      · exact List.forall_mem_cons.2 ⟨new, later⟩
      · exact List.forall_mem_cons.2 ⟨old, ih later⟩

end Keyed

namespace Schema

/-- A way to visit definitions that gives schemas with distinct fields, if the finished ones
have them. -/
def VisitsDistinct
    (visit : String → Keyed Schema → Except SchemaError (Schema × Keyed Schema)) : Prop :=
  ∀ {name : String} {done done' : Keyed Schema} {schema : Schema}, (∀ e ∈ done, e.2.Distinct) →
    visit name done = .ok (schema, done') → schema.Distinct ∧ ∀ e ∈ done', e.2.Distinct

section

variable {visit : String → Keyed Schema → Except SchemaError (Schema × Keyed Schema)}
  {done done' : Keyed Schema}

theorem distinct_of_visitType (visits : VisitsDistinct visit) {type : FieldType} {schema : Schema}
    (finished : ∀ e ∈ done, e.2.Distinct)
    (h : visitType visit done type = .ok (schema, done')) :
    schema.Distinct ∧ ∀ e ∈ done', e.2.Distinct := by
  cases type with
  | text | money | number | yesNo | oneOf =>
      cases h
      exact ⟨trivial, finished⟩
  | object d => exact visits finished h
  | listOf d =>
      obtain ⟨⟨items, after⟩, visited, eq⟩ := Except.map_eq_ok_iff.1 h
      cases eq
      show items.Distinct ∧ ∀ e ∈ done', e.2.Distinct
      exact visits finished visited

theorem distinct_of_visitFields (visits : VisitsDistinct visit) {fields : List Field}
    {schemas : List (String × Schema)} (finished : ∀ e ∈ done, e.2.Distinct)
    (h : visitFields visit fields done = .ok (schemas, done')) :
    Keyed.keys schemas = fields.map (·.name) ∧ FieldsDistinct schemas ∧
      ∀ e ∈ done', e.2.Distinct := by
  induction fields generalizing done schemas with
  | nil =>
      cases h
      exact ⟨rfl, trivial, finished⟩
  | cons f rest ih =>
      rw [visitFields] at h
      obtain ⟨⟨schema, between⟩, first, h⟩ := Except.bind_eq_ok_iff.1 h
      obtain ⟨⟨later, last⟩, found, h⟩ := Except.bind_eq_ok_iff.1 h
      cases h
      obtain ⟨here, finished'⟩ := distinct_of_visitType visits finished first
      obtain ⟨keys, inside, finished'⟩ := ih finished' found
      exact ⟨congrArg (f.name :: ·) keys, ⟨here, inside⟩, finished'⟩

end

theorem visitsDistinct_visit {definitions : List Definition}
    (distinct : ∀ d ∈ definitions, d.Distinct) (room : Nat) (stack : List String) :
    VisitsDistinct (visit definitions room stack) := by
  -- a visit of what is not finished visits the types of its fields with less room
  induction room generalizing stack with
  | zero =>
      intro name done done' schema finished h
      rw [visit] at h
      split at h
      · next found =>
        cases h
        exact ⟨finished _ (Keyed.mem_of_get? found), finished⟩
      · cases h
  | succ room ih =>
      intro name done done' schema finished h
      rw [visit] at h
      split at h
      · next found =>
        cases h
        exact ⟨finished _ (Keyed.mem_of_get? found), finished⟩
      · split at h
        · -- a cycle has no schema
          cases h
        · obtain ⟨⟨fields, after⟩, visited, h⟩ := Except.bind_eq_ok_iff.1 h
          cases h
          obtain ⟨keys, inside, finished'⟩ := distinct_of_visitFields (ih _) finished visited
          have names : (Keyed.keys fields).Nodup := by
            -- a name that is not defined has no fields
            rw [keys]
            cases found : definitions.find? fun d => d.name = name with
            | none => exact List.nodup_nil
            | some d => exact distinct d (List.mem_of_find?_eq_some found)
          have object : (Schema.object name fields).Distinct := ⟨names, inside⟩
          exact ⟨object, Keyed.forall_insert object finished'⟩

theorem distinct_of_visitAll {definitions : List Definition}
    (distinct : ∀ d ∈ definitions, d.Distinct) {names : List String} {done : Keyed Schema}
    {schemas : List (String × Schema)} (finished : ∀ e ∈ done, e.2.Distinct)
    (h : visitAll definitions names done = .ok schemas) : ∀ e ∈ schemas, e.2.Distinct := by
  induction names generalizing done schemas with
  | nil =>
      cases h
      exact nofun
  | cons name rest ih =>
      obtain ⟨⟨schema, between⟩, first, h⟩ := Except.bind_eq_ok_iff.1 h
      obtain ⟨later, found, h⟩ := Except.bind_eq_ok_iff.1 h
      cases h
      obtain ⟨here, finished'⟩ := visitsDistinct_visit distinct _ _ finished first
      exact List.forall_mem_cons.2 ⟨here, ih finished' found⟩

/-- The names of fields differ within every object of the schemas of definitions whose fields
differ. -/
theorem distinct_of_resolve {definitions : List Definition}
    (distinct : ∀ d ∈ definitions, d.Distinct) {schemas : Keyed Schema}
    (h : resolve definitions = .ok schemas) : ∀ e ∈ schemas, e.2.Distinct := by
  simp only [resolve] at h
  split at h
  · cases h
  · split at h
    · cases h
    · exact distinct_of_visitAll distinct (List.forall_mem_nil _) h

end Schema

end RecordInference
