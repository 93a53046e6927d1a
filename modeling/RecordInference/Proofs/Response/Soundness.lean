import RecordInference.Proofs.Json.Finite
import RecordInference.Proofs.Outcome
import RecordInference.Proofs.Schema.Conformance
import RecordInference.Response.Validation

/-!
# Accepted responses

What the check of a response yields is a value of the schema (`conforms_of_check`): a number is
finite because the numbers of a decoded text are, and an object has exactly the declared fields,
in their order, because their names differ. The same holds for the response to a step, whether it
stands for one field or for all of them (`conforms_of_checkStep`).
-/

set_option autoImplicit false

namespace RecordInference.Response

theorem collect_eq_ok_iff {α : Type} {first : Except (List Violation) α}
    {rest : Except (List Violation) (List α)} {all : List α} :
    collect first rest = .ok all ↔ ∃ a as, first = .ok a ∧ rest = .ok as ∧ all = a :: as := by
  cases first with
  | error e =>
      cases rest with
      | error e' => simp [collect]
      | ok as => simp [collect]
  | ok a =>
      cases rest with
      | error e' => simp [collect]
      | ok as => simp [collect, eq_comm]

theorem isFinite_of_number? {v : Json} {x : Float} (finite : v.Finite) (h : number? v = some x) :
    x.isFinite = true := by
  cases finite with
  | int low high =>
      -- only 64 bits make sure that the nearest double is finite
      cases h
      exact Decimal.isFinite_ofInt low high
  | float finite =>
      cases h
      exact finite
  | str s => exact (Option.filter_eq_some_iff.1 h).2
  | null | bool | arr | obj => cases h

theorem forall_of_checkItems {check : Json → String → Verdict} {P : Value → Prop} {path : String}
    {items : List Json} (each : ∀ v ∈ items, ∀ path t, check v path = .ok t → P t) {i : Nat}
    {ts : List Value} (h : checkItems check path i items = .ok ts) : ∀ t ∈ ts, P t := by
  induction items generalizing i ts with
  | nil =>
      cases h
      exact nofun
  | cons v rest ih =>
      obtain ⟨a, as, first, later, rfl⟩ := collect_eq_ok_iff.1 h
      obtain ⟨here, there⟩ := List.forall_mem_cons.1 each
      exact List.forall_mem_cons.2 ⟨here _ a first, ih there later⟩

mutual

/-- A value that the check of a schema yields is of the schema. -/
theorem conforms_of_check {schema : Schema} {v : Json} {path : String} {t : Value}
    (distinct : schema.Distinct) (finite : v.Finite) (h : check schema v path = .ok t) :
    Conforms schema t := by
  cases schema with
  | text =>
      simp only [check] at h
      split at h
      · cases h
        exact .text _
      · cases h
  | money =>
      simp only [check] at h
      split at h
      · next number =>
        cases h
        exact .money (isFinite_of_number? finite number)
      · cases h
  | number =>
      simp only [check] at h
      split at h
      · next number =>
        cases h
        exact .number (isFinite_of_number? finite number)
      · cases h
  | yesNo =>
      simp only [check] at h
      split at h
      · cases h
        exact .yesNo _
      · cases h
  | oneOf values =>
      simp only [check] at h
      split at h
      · split at h
        · next member =>
          cases h
          exact .oneOf member
        · cases h
      · cases h
  | list items =>
      simp only [check] at h
      split at h
      · next elements =>
        obtain ⟨ts, checked, rfl⟩ := Except.map_eq_ok_iff.1 h
        cases finite with
        | arr each =>
            have conform : ∀ v ∈ elements, ∀ path t, check items v path = .ok t →
                Conforms items t :=
              fun v member _ _ found => conforms_of_check distinct (each v member) found
            exact .list (forall_of_checkItems conform checked)
      · cases h
  | object name fields =>
      simp only [check] at h
      split at h
      · obtain ⟨ts, checked, rfl⟩ := Except.map_eq_ok_iff.1 h
        cases finite with
        | obj each =>
            have conform := fieldsConform_of_checkFields distinct.2 each checked
            -- the checked fields have the declared names, so none of them is written over
            have keys : (Keyed.keys ts).Nodup := by
              rw [conform.keys_eq]
              exact distinct.1
            rw [Keyed.ofList_eq_self keys]
            exact .object name conform
      · cases h
termination_by sizeOf schema

theorem fieldsConform_of_checkFields {fields : List (String × Schema)}
    {members : List (String × Json)} {path : String} {ts : List (String × Value)}
    (distinct : Schema.FieldsDistinct fields) (finite : ∀ m ∈ members, m.2.Finite)
    (h : checkFields fields members path = .ok ts) : FieldsConform fields ts := by
  match fields, distinct, h with
  | [], _, h =>
      cases h
      exact .nil
  | (name, schema) :: rest, distinct, h =>
      obtain ⟨a, as, first, later, rfl⟩ := collect_eq_ok_iff.1 h
      obtain ⟨t, checked, rfl⟩ := Except.map_eq_ok_iff.1 first
      split at checked
      · next v found =>
        exact .cons name
          (conforms_of_check distinct.1 (finite _ (Keyed.mem_of_get? found)) checked)
          (fieldsConform_of_checkFields distinct.2 finite later)
      · cases checked
termination_by sizeOf fields

end

/-! ### Responses to steps -/

theorem finite_of_decode {raw : String} {v : Json} (h : decode raw = .ok v) : v.Finite := by
  simp only [decode] at h
  split at h
  · next read =>
    cases h
    exact (Json.finite_of_read read).sorted
  · cases h

theorem finite_of_fieldValue {verb : Verb} {schema : Schema} {field raw : String} {v : Json}
    (h : fieldValue verb schema field raw = .ok v) : v.Finite := by
  unfold fieldValue at h
  split at h
  · next decoded =>
    split at h
    · next found =>
      cases h
      cases finite_of_decode decoded with
      | obj each => exact each _ (Keyed.mem_of_get? found)
    · cases h
  · cases h
    exact .str _
  · cases h
    exact .str _
  · next decoded _ _ =>
    cases h
    exact finite_of_decode decoded
  · cases h

/-- What the check of a response to a step yields is of the schema of the step. -/
theorem conforms_of_checkStep {verb : Verb} {schema : Schema} {output : StepOutput} {raw : String}
    {t : Value} (distinct : schema.Distinct) (h : checkStep verb schema output raw = .ok t) :
    Conforms schema t := by
  unfold checkStep at h
  split at h
  · split at h
    · next decoded => exact conforms_of_check distinct (finite_of_decode decoded) h
    · cases h
  · split at h
    · next found => exact conforms_of_check distinct (finite_of_fieldValue found) h
    · cases h

end RecordInference.Response
