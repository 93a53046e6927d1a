/-!
# Keyed entries

Pairs of a name and a value, kept in the order in which the names first arrived.
Writing under a name that is already present replaces the value in place, so the
order of the names is the order of first arrival.
-/

set_option autoImplicit false

namespace RecordInference

/-- Values under names, in order of first arrival. -/
abbrev Keyed (α : Type) := List (String × α)

namespace Keyed

variable {α : Type}

/-- Writes `v` under `k`: in place if `k` is present, else at the end. -/
def insert (k : String) (v : α) : Keyed α → Keyed α
  | [] => [(k, v)]
  | (k', v') :: rest => if k' = k then (k', v) :: rest else (k', v') :: insert k v rest

/-- The value of the first entry named `k`. -/
def get? (k : String) : Keyed α → Option α
  | [] => none
  | (k', v) :: rest => if k' = k then some v else get? k rest

/-- The names, in order. -/
def keys (m : Keyed α) : List String := m.map (·.1)

/-- Writes the entries of `new` one after the other. -/
def extend (m : Keyed α) (new : List (String × α)) : Keyed α :=
  new.foldl (fun m e => insert e.1 e.2 m) m

/-- Entries written one after the other: the first position of a name, its last value. -/
def ofList (entries : List (String × α)) : Keyed α := extend [] entries

theorem get?_insert_self (k : String) (v : α) (m : Keyed α) : get? k (insert k v m) = some v := by
  induction m with
  | nil => simp [insert, get?]
  | cons e rest ih =>
      obtain ⟨k', v'⟩ := e
      by_cases h : k' = k
      · simp [insert, get?, h]
      · simp [insert, get?, h, ih]

theorem get?_insert_of_ne {k k' : String} (h : k' ≠ k) (v : α) (m : Keyed α) :
    get? k' (insert k v m) = get? k' m := by
  induction m with
  | nil => simp [insert, get?, Ne.symm h]
  | cons e rest ih =>
      obtain ⟨n, w⟩ := e
      by_cases hn : n = k
      · subst hn
        simp [insert, get?, Ne.symm h]
      · by_cases hk : n = k'
        · subst hk
          simp [insert, get?, hn]
        · simp [insert, get?, hn, hk, ih]

theorem keys_append (m m' : Keyed α) : keys (m ++ m') = keys m ++ keys m' := List.map_append

theorem get?_eq_none_iff {k : String} {m : Keyed α} : get? k m = none ↔ k ∉ keys m := by
  induction m with
  | nil => simp [get?, keys]
  | cons e rest ih =>
      obtain ⟨k', v⟩ := e
      by_cases h : k' = k
      · simp [get?, keys, h]
      · have h' : k ≠ k' := Ne.symm h
        simpa [get?, keys, h, h'] using ih

theorem mem_of_get? {k : String} {v : α} {m : Keyed α} (h : get? k m = some v) : (k, v) ∈ m := by
  induction m with
  | nil => simp [get?] at h
  | cons e rest ih =>
      obtain ⟨k', w⟩ := e
      simp only [get?] at h
      split at h
      · next same =>
        simp only [Option.some.injEq] at h
        rw [same, h]
        exact List.mem_cons_self
      · exact List.mem_cons_of_mem _ (ih h)

theorem get?_of_mem {k : String} {v : α} {m : Keyed α} (distinct : (keys m).Nodup)
    (member : (k, v) ∈ m) : get? k m = some v := by
  induction m with
  | nil => cases member
  | cons e rest ih =>
      obtain ⟨k', w⟩ := e
      simp only [keys, List.map_cons, List.nodup_cons] at distinct
      rcases List.mem_cons.1 member with here | later
      · cases here
        simp [get?]
      · have other : k' ≠ k := by
          rintro rfl
          exact distinct.1 (List.mem_map_of_mem later)
        simpa [get?, other] using ih distinct.2 later

/-- A key stands with one value where the keys are distinct. -/
theorem eq_of_mem {k : String} {v v' : α} {m : Keyed α} (distinct : (keys m).Nodup)
    (member : (k, v) ∈ m) (member' : (k, v') ∈ m) : v = v' := by
  have found := get?_of_mem distinct member
  rw [get?_of_mem distinct member'] at found
  exact (Option.some.inj found).symm

theorem mem_keys_iff {k : String} {m : Keyed α} : k ∈ keys m ↔ ∃ v, get? k m = some v := by
  rw [← Option.ne_none_iff_exists', Ne, get?_eq_none_iff, Classical.not_not]

section

variable {β : Type} (f : α → β)

theorem keys_map (m : Keyed α) : keys (m.map fun e => (e.1, f e.2)) = keys m := by
  simp [keys]

theorem get?_map (k : String) (m : Keyed α) :
    get? k (m.map fun e => (e.1, f e.2)) = (get? k m).map f := by
  induction m with
  | nil => rfl
  | cons e rest ih =>
      obtain ⟨k', v⟩ := e
      by_cases same : k' = k
      · simp [get?, same]
      · simpa [get?, same] using ih

end

/-- Writing under a new name puts the entry at the end. -/
theorem insert_eq_append {k : String} {m : Keyed α} (h : k ∉ keys m) (v : α) :
    insert k v m = m ++ [(k, v)] := by
  induction m with
  | nil => rfl
  | cons e rest ih =>
      obtain ⟨k', w⟩ := e
      simp only [keys, List.map_cons, List.mem_cons, not_or] at h
      have fresh : k' ≠ k := fun same => h.1 same.symm
      simp only [insert, if_neg fresh, List.cons_append, List.cons.injEq, true_and]
      exact ih h.2

/-- Writing entries under distinct new names puts them at the end, in their order. -/
theorem extend_eq_append {m : Keyed α} {new : List (String × α)} (distinct : (keys new).Nodup)
    (fresh : ∀ k ∈ keys new, k ∉ keys m) : extend m new = m ++ new := by
  induction new generalizing m with
  | nil => simp [extend]
  | cons e rest ih =>
      obtain ⟨k, v⟩ := e
      simp only [keys, List.map_cons, List.nodup_cons] at distinct
      have here : k ∉ keys m := fresh k (by simp [keys])
      have later : ∀ k' ∈ keys rest, k' ∉ keys (m ++ [(k, v)]) := by
        intro k' member
        have old : k' ∉ keys m := fresh k' (by simp [keys] at member ⊢; exact Or.inr member)
        have new : k' ≠ k := fun same => distinct.1 (same ▸ member)
        simp only [keys, List.map_append, List.map_cons, List.map_nil, List.mem_append,
          List.mem_singleton, not_or]
        exact ⟨old, new⟩
      -- the first entry is put at the end, and the others are new behind it
      show extend (insert k v m) rest = _
      rw [insert_eq_append here, ih distinct.2 later]
      simp

/-- Entries under distinct names are kept as they are. -/
theorem ofList_eq_self {entries : List (String × α)} (distinct : (keys entries).Nodup) :
    ofList entries = entries := by
  rw [ofList, extend_eq_append distinct (by simp [keys]), List.nil_append]

end Keyed

end RecordInference
