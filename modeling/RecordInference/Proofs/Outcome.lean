import Mathlib.Data.List.Forall2

/-!
# Chains that succeed

A chain of computations that may fail succeeds exactly when each of its links does, and chains of
related computations end in related results. Relations between options and between lists are turned
around and joined where this can be done for what they hold, and what holds of every element of a
list and those before it is carried along the list. `Except.bimap` changes both what a computation
yields and why it fails.
-/

set_option autoImplicit false

namespace Except

variable {ε ε' α β : Type}

theorem bind_eq_ok_iff {x : Except ε α} {f : α → Except ε β} {b : β} :
    x >>= f = .ok b ↔ ∃ a, x = .ok a ∧ f a = .ok b := by
  cases x with
  | error e => simp [bind, Except.bind]
  | ok a => simp [bind, Except.bind]

theorem map_eq_ok_iff {x : Except ε α} {f : α → β} {b : β} :
    x.map f = .ok b ↔ ∃ a, x = .ok a ∧ f a = b := by
  cases x with
  | error e => simp [Except.map]
  | ok a => simp [Except.map]

theorem mapError_eq_ok_iff {x : Except ε α} {f : ε → ε'} {a : α} :
    x.mapError f = .ok a ↔ x = .ok a := by
  cases x with
  | error e => simp [Except.mapError]
  | ok a => simp [Except.mapError]

theorem exists_of_isOk {x : Except ε α} (h : x.isOk = true) : ∃ a, x = .ok a := by
  cases x with
  | error e => cases h
  | ok a => exact ⟨a, rfl⟩

theorem toOption_eq_some_iff {x : Except ε α} {a : α} : x.toOption = some a ↔ x = .ok a := by
  cases x with
  | error e => exact ⟨nofun, nofun⟩
  | ok b => simp [Except.toOption]

theorem toOption_bind (x : Except ε α) (f : α → Except ε β) :
    (x >>= f).toOption = x.toOption.bind fun a => (f a).toOption := by
  cases x with
  | error e => rfl
  | ok a => rfl

/-- The outcome with its error and its value changed. -/
def bimap (g : ε → ε') (h : α → β) : Except ε α → Except ε' β
  | .error e => .error (g e)
  | .ok a => .ok (h a)

section

variable {γ δ : Type} {g : ε → ε'} {h : α → β} {h' : γ → δ}

@[simp]
theorem bimap_error (e : ε) : (error e : Except ε α).bimap g h = .error (g e) := rfl

@[simp]
theorem bimap_ok (a : α) : (ok a : Except ε α).bimap g h = .ok (h a) := rfl

/-- Chains whose links are changed alike are changed as a whole. -/
theorem bimap_bind {x : Except ε α} {k : α → Except ε γ} {k' : β → Except ε' δ}
    (goOn : ∀ a, k' (h a) = (k a).bimap g h') :
    x.bimap g h >>= k' = (x >>= k).bimap g h' := by
  cases x with
  | error e => rfl
  | ok a => exact goOn a

/-- Outcomes that are the same once their errors are changed are the same value, or errors that are
changed to the same. -/
theorem eq_ok_or_eq_error_of_bimap {ε'' : Type} {g' : ε'' → ε'} {x : Except ε α}
    {y : Except ε'' α} (same : x.bimap g id = y.bimap g' id) :
    (∃ a, x = .ok a ∧ y = .ok a) ∨ ∃ e e', x = .error e ∧ y = .error e' ∧ g e = g' e' := by
  cases x with
  | ok a =>
      cases y with
      | ok b =>
          cases same
          exact Or.inl ⟨a, rfl, rfl⟩
      | error e => cases same
  | error e =>
      cases y with
      | ok b => cases same
      | error e' => exact Or.inr ⟨e, e', rfl, rfl, error.inj same⟩

theorem map_bimap {x : Except ε α} {k : α → γ} {k' : β → δ} (goOn : ∀ a, k' (h a) = h' (k a)) :
    (x.bimap g h).map k' = (x.map k).bimap g h' := by
  cases x with
  | error e => rfl
  | ok a => exact congrArg ok (goOn a)

end

end Except

namespace Option

/-- Related options stay related when related functions go on from them. -/
theorem Rel.bind {α β γ δ : Type} {r : α → β → Prop} {r' : γ → δ → Prop} {x : Option α}
    {y : Option β} {f : α → Option γ} {g : β → Option δ} (h : Rel r x y)
    (step : ∀ a b, r a b → Rel r' (f a) (g b)) : Rel r' (x.bind f) (y.bind g) := by
  cases h with
  | some related => exact step _ _ related
  | none => exact .none

theorem Rel.exists_of_some {α β : Type} {r : α → β → Prop} {a : α} {y : Option β}
    (h : Rel r (Option.some a) y) : ∃ b, y = Option.some b ∧ r a b := by
  cases h with
  | some related => exact ⟨_, rfl, related⟩

theorem Rel.exists_some_iff {α β : Type} {r : α → β → Prop} {x : Option α} {y : Option β}
    (h : Rel r x y) : (∃ a, x = Option.some a) ↔ ∃ b, y = Option.some b := by
  cases h with
  | some related => exact ⟨fun _ => ⟨_, rfl⟩, fun _ => ⟨_, rfl⟩⟩
  | none => exact ⟨nofun, nofun⟩

theorem Rel.mono_of {α β : Type} {r r' : α → β → Prop} {x : Option α} {y : Option β}
    (h : Rel r x y) (weaken : ∀ a ∈ x, ∀ b, r a b → r' a b) : Rel r' x y := by
  cases h with
  | some related => exact .some (weaken _ rfl _ related)
  | none => exact .none

theorem Rel.of_map {α β γ δ : Type} {r : γ → δ → Prop} {f : α → γ} {g : β → δ} {x : Option α}
    {y : Option β} (h : Rel r (x.map f) (y.map g)) : Rel (fun a b => r (f a) (g b)) x y := by
  cases x with
  | none =>
      cases y with
      | none => exact .none
      | some b => cases h
  | some a =>
      cases y with
      | none => cases h
      | some b =>
          cases h with
          | some related => exact .some related

theorem Rel.symm_of {α β : Type} {r : α → β → Prop} {r' : β → α → Prop} {x : Option α}
    {y : Option β} (h : Rel r x y) (turn : ∀ a ∈ x, ∀ b, r a b → r' b a) : Rel r' y x := by
  cases h with
  | some related => exact .some (turn _ rfl _ related)
  | none => exact .none

theorem Rel.trans_of {α β γ : Type} {r : α → β → Prop} {r' : β → γ → Prop} {r'' : α → γ → Prop}
    {x : Option α} {y : Option β} {z : Option γ} (h : Rel r x y) (h' : Rel r' y z)
    (join : ∀ a ∈ x, ∀ b c, r a b → r' b c → r'' a c) : Rel r'' x z := by
  cases h with
  | some related =>
      cases h' with
      | some related' => exact .some (join _ rfl _ _ related related')
  | none =>
      cases h'
      exact .none

end Option

namespace List

variable {α β γ : Type} {r : α → β → Prop} {as : List α} {bs : List β}

/-- Where every element has a partner there is a list of partners. -/
theorem exists_forall₂ {p : α → Prop} (each : ∀ b ∈ bs, ∃ a, p a ∧ r a b) :
    ∃ as, (∀ a ∈ as, p a) ∧ Forall₂ r as bs := by
  induction bs with
  | nil => exact ⟨[], nofun, .nil⟩
  | cons b rest ih =>
      obtain ⟨⟨a, suits, related⟩, later⟩ := forall_mem_cons.1 each
      obtain ⟨as, suit, all⟩ := ih later
      exact ⟨a :: as, forall_mem_cons.2 ⟨suits, suit⟩, .cons related all⟩

theorem Forall₂.exists_left (h : Forall₂ r as bs) : ∀ b ∈ bs, ∃ a ∈ as, r a b := by
  induction h with
  | nil => exact nofun
  | cons first rest ih =>
      intro b member
      rcases mem_cons.1 member with rfl | later
      · exact ⟨_, mem_cons_self, first⟩
      · obtain ⟨a, member, related⟩ := ih b later
        exact ⟨a, mem_cons_of_mem _ member, related⟩

theorem Forall₂.symm_of {r' : β → α → Prop} (h : Forall₂ r as bs)
    (turn : ∀ a ∈ as, ∀ b, r a b → r' b a) : Forall₂ r' bs as := by
  induction h with
  | nil => exact .nil
  | cons first rest ih =>
      obtain ⟨here, later⟩ := forall_mem_cons.1 turn
      exact .cons (here _ first) (ih later)

theorem Forall₂.trans_of {r' : β → γ → Prop} {r'' : α → γ → Prop} {cs : List γ}
    (h : Forall₂ r as bs) (h' : Forall₂ r' bs cs)
    (join : ∀ a ∈ as, ∀ b c, r a b → r' b c → r'' a c) : Forall₂ r'' as cs := by
  induction h generalizing cs with
  | nil =>
      cases h'
      exact .nil
  | cons first rest ih =>
      obtain ⟨here, later⟩ := forall_mem_cons.1 join
      cases h' with
      | cons first' rest' => exact .cons (here _ _ first first') (ih rest' later)

theorem Forall₂.eq_filterMap {f : α → Option β} (h : Forall₂ (fun a b => f a = some b) as bs) :
    bs = as.filterMap f := by
  induction h with
  | nil => rfl
  | cons first rest ih => rw [filterMap_cons_some first, ← ih]

/-- Two lists that go on from elements of one kind with an element of another kind, or not at all,
have the same front. -/
theorem append_inj_of_stop {p : α → Bool} {front front' rest rest' : List α}
    (inside : ∀ a ∈ front, p a = true) (inside' : ∀ a ∈ front', p a = true)
    (stop : ∀ a ∈ rest.head?, p a = false) (stop' : ∀ a ∈ rest'.head?, p a = false)
    (same : front ++ rest = front' ++ rest') : front = front' ∧ rest = rest' := by
  have cut : ∀ {front rest : List α}, (∀ a ∈ front, p a = true) →
      (∀ a ∈ rest.head?, p a = false) → (front ++ rest).takeWhile p = front := by
    intro front rest inside stop
    rw [takeWhile_append_of_pos inside]
    cases rest with
    | nil => exact append_nil front
    | cons a rest =>
        have other := stop a rfl
        rw [takeWhile_cons_of_neg (by simp [other]), append_nil]
  -- the front is what can be taken off before the stop
  have fronts : front = front' := by
    rw [← cut inside stop, same, cut inside' stop']
  rw [fronts] at same
  exact ⟨fronts, append_cancel_left same⟩

theorem forall_split_nil {P : List α → α → Prop} :
    ∀ before a after, [] = before ++ a :: after → P before a := by
  intro before a after eq
  simp at eq

/-- With one more element something holds of every element and those before it exactly if it did so
far and does of the last one. -/
theorem forall_split_concat_iff {P : List α → α → Prop} {l : List α} {last : α} :
    (∀ before a after, l ++ [last] = before ++ a :: after → P before a) ↔
      (∀ before a after, l = before ++ a :: after → P before a) ∧ P l last := by
  constructor
  · intro each
    refine ⟨?_, each l last [] rfl⟩
    rintro before a after rfl
    exact each before a (after ++ [last]) (by simp)
  · rintro ⟨each, here⟩ before a after eq
    -- either the split is at the last element, or it is at one of those before it
    rcases eq_nil_or_concat after with rfl | ⟨after', final, rfl⟩
    · obtain ⟨rfl, same⟩ := append_inj' eq rfl
      cases same
      exact here
    · rw [concat_eq_append, ← cons_append, ← append_assoc] at eq
      obtain ⟨rfl, -⟩ := append_inj' eq rfl
      exact each before a after' rfl

/-- With one more element something holds of an element and those before it exactly if it did so far
or does of the last one. -/
theorem exists_split_concat_iff {P : List α → α → Prop} {l : List α} {last : α} :
    (∃ before a after, l ++ [last] = before ++ a :: after ∧ P before a) ↔
      (∃ before a after, l = before ++ a :: after ∧ P before a) ∨ P l last := by
  have none := @forall_split_concat_iff α (fun before a => ¬ P before a) l last
  rw [← not_iff_not]
  simpa only [not_exists, not_and, not_or] using none

end List
