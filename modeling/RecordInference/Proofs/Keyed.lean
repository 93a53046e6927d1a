import Mathlib.Data.List.Forall2
import Mathlib.Data.List.Induction
import Mathlib.Data.List.Nodup
import RecordInference.Keyed

/-!
# Entries written one after the other

Entries that are written one after the other leave each name in the place where it came first
(`keys_ofList`), with the value that came last (`get?_ofList`), and no name twice. Two lists of
entries that agree under some relation are written alike (`forall₂_ofList`).
-/

set_option autoImplicit false

namespace RecordInference.Keyed

variable {α β : Type}

theorem keys_insert_of_mem {k : String} {m : Keyed α} (present : k ∈ keys m) (v : α) :
    keys (insert k v m) = keys m := by
  induction m with
  | nil => cases present
  | cons e rest ih =>
      obtain ⟨k', w⟩ := e
      by_cases same : k' = k
      · rw [insert, if_pos same]
        rfl
      · rw [insert, if_neg same]
        have later : k ∈ keys rest := by
          rcases List.mem_cons.1 present with here | later
          · exact absurd here.symm same
          · exact later
        exact congrArg (k' :: ·) (ih later)

theorem nodup_keys_insert {k : String} {m : Keyed α} (distinct : (keys m).Nodup) (v : α) :
    (keys (insert k v m)).Nodup := by
  by_cases present : k ∈ keys m
  · rwa [keys_insert_of_mem present]
  · rw [insert_eq_append present, keys_append]
    exact List.nodup_append_comm.1 (List.nodup_cons.2 ⟨present, distinct⟩)

theorem ofList_concat (es : List (String × α)) (e : String × α) :
    ofList (es ++ [e]) = insert e.1 e.2 (ofList es) :=
  List.foldl_append

theorem nodup_keys_ofList (es : List (String × α)) : (keys (ofList es)).Nodup := by
  induction es using List.reverseRecOn with
  | nil => exact List.nodup_nil
  | append_singleton es e ih =>
      rw [ofList_concat]
      exact nodup_keys_insert ih e.2

/-- Each name is in the place where it came first. -/
theorem keys_ofList (es : List (String × α)) : keys (ofList es) = (keys es).eraseDups := by
  induction es using List.reverseRecOn with
  | nil => rfl
  | append_singleton es e ih =>
      -- the map has the names of the entries so far, so a name that is new to one is new to both
      have known : e.1 ∈ keys (ofList es) ↔ e.1 ∈ keys es := by rw [ih, List.mem_eraseDups]
      rw [ofList_concat, keys_append, List.eraseDups_append, ← ih]
      by_cases old : e.1 ∈ keys es
      · rw [keys_insert_of_mem (known.2 old)]
        simp [keys, List.removeAll, List.mem_map.1 old]
      · rw [insert_eq_append (mt known.1 old), keys_append]
        have alone : [e.1].removeAll (keys es) = [e.1] := by simp [List.removeAll, old]
        show _ = keys (ofList es) ++ ([e.1].removeAll (keys es)).eraseDups
        rw [alone]
        rfl

theorem mem_of_mem_insert {k : String} {v : α} {m : Keyed α} {e : String × α}
    (h : e ∈ insert k v m) : e = (k, v) ∨ e ∈ m := by
  induction m with
  | nil => exact Or.inl (List.mem_singleton.1 h)
  | cons e' rest ih =>
      obtain ⟨k', w⟩ := e'
      rw [insert] at h
      split at h
      · next same =>
        rcases List.mem_cons.1 h with here | later
        · exact Or.inl (same ▸ here)
        · exact Or.inr (List.mem_cons_of_mem _ later)
      · rcases List.mem_cons.1 h with here | later
        · exact Or.inr (here ▸ List.mem_cons_self)
        · exact (ih later).imp_right (List.mem_cons_of_mem _)

theorem mem_of_mem_ofList {es : List (String × α)} {e : String × α} (h : e ∈ ofList es) :
    e ∈ es := by
  induction es using List.reverseRecOn with
  | nil => cases h
  | append_singleton es e' ih =>
      rw [ofList_concat] at h
      rw [List.mem_append, List.mem_singleton]
      rcases mem_of_mem_insert h with here | old
      · exact Or.inr here
      · exact Or.inl (ih old)

/-- Of a name the value counts that came last. -/
theorem get?_ofList (k : String) (es : List (String × α)) :
    get? k (ofList es) = get? k es.reverse := by
  induction es using List.reverseRecOn with
  | nil => rfl
  | append_singleton es e ih =>
      rw [ofList_concat, List.reverse_concat, get?]
      split
      · next same =>
        rw [← same, get?_insert_self]
      · next other => rw [get?_insert_of_ne (Ne.symm other), ih]

theorem get?_eq_find? (k : String) (m : Keyed α) :
    get? k m = (m.find? fun e => e.1 = k).map (·.2) := by
  induction m with
  | nil => rfl
  | cons e rest ih =>
      rw [get?, List.find?_cons]
      by_cases same : e.1 = k
      · simp [same]
      · simp [same, ih]

/-- The values are those under the names, in their order. -/
theorem map_snd_eq {m : Keyed α} (distinct : (keys m).Nodup) :
    m.map (·.2) = (keys m).filterMap fun k => get? k m := by
  induction m with
  | nil => rfl
  | cons e rest ih =>
      obtain ⟨k, v⟩ := e
      obtain ⟨new, distinct⟩ := List.nodup_cons.1 distinct
      have later : ((keys rest).filterMap fun k' => get? k' ((k, v) :: rest)) =
          (keys rest).filterMap fun k' => get? k' rest := by
        refine List.filterMap_congr fun k' member => ?_
        rw [get?, if_neg]
        rintro rfl
        exact new member
      rw [keys, List.map_cons, List.map_cons, List.filterMap_cons_some (b := v) (by simp [get?])]
      exact congrArg (v :: ·) ((ih distinct).trans later.symm)

/-! ### Entries that are alike -/

section

variable {R : String × α → String × β → Prop} {m : Keyed α} {m' : Keyed β}

theorem forall₂_insert (names : ∀ e e', R e e' → e.1 = e'.1) (h : List.Forall₂ R m m') {k : String}
    {v : α} {v' : β} (new : R (k, v) (k, v')) :
    List.Forall₂ R (insert k v m) (insert k v' m') := by
  induction h with
  | nil => exact .cons new .nil
  | @cons e e' m m' here others ih =>
      obtain ⟨k', w⟩ := e
      obtain ⟨k'', w'⟩ := e'
      cases names _ _ here
      rw [insert, insert]
      split
      · next same =>
        subst same
        exact .cons new others
      · exact .cons here ih

theorem forall₂_ofList (names : ∀ e e', R e e' → e.1 = e'.1) (h : List.Forall₂ R m m') :
    List.Forall₂ R (ofList m) (ofList m') := by
  suffices ∀ {a b}, List.Forall₂ R a b → List.Forall₂ R (extend a m) (extend b m') from this .nil
  induction h with
  | nil => exact fun start => start
  | @cons e e' m m' here others ih =>
      intro a b start
      obtain ⟨k, v⟩ := e
      obtain ⟨k', v'⟩ := e'
      cases names _ _ here
      exact ih (forall₂_insert names start here)

end

end RecordInference.Keyed
