import Mathlib.Data.List.Chain
import Mathlib.Logic.Relation
import RecordInference.Schema.Resolution

/-!
# References between definitions

A definition refers to another one if the type of one of its fields does (`Refers`). Schemas exist
if no name is defined twice, every reference is to a definition (`Resolved`) and the references are
acyclic (`Acyclic`). The first two conditions are checked before the search, and a check that fails
names the first name that occurs again (`firstRepeated_of_eq_some`) or the first reference that
leads nowhere (`firstUnresolved_of_eq_some`).

`IsCycle r path` says that the path goes around a simple cycle of a relation and ends where it
started. On a cycle every name is reached from every name (`IsCycle.transGen`), so nothing stands
in the path that only leads to the cycle.
-/

set_option autoImplicit false

namespace RecordInference

/-! ### Cycles -/

/-- A simple cycle of a relation, from one of its members around to the same. -/
structure IsCycle {α : Type} (r : α → α → Prop) (path : List α) : Prop where
  length : 2 ≤ path.length
  closed : path.head? = path.getLast?
  distinct : path.dropLast.Nodup
  linked : path.IsChain r

/-- A cycle is a member, what follows it, and the member again. -/
theorem IsCycle.exists_eq {α : Type} {r : α → α → Prop} {path : List α} (h : IsCycle r path) :
    ∃ a rest, path = a :: (rest ++ [a]) := by
  have length := h.length
  have closed := h.closed
  cases path with
  | nil => simp at length
  | cons a tail =>
      rcases List.eq_nil_or_concat' tail with rfl | ⟨rest, b, rfl⟩
      · simp at length
      · rw [List.head?_cons, ← List.cons_append, List.getLast?_concat] at closed
        cases closed
        exact ⟨a, rest, rfl⟩

/-- Every member of a cycle is reached from every member. -/
theorem IsCycle.transGen {α : Type} {r : α → α → Prop} {path : List α} (h : IsCycle r path) :
    ∀ a ∈ path, ∀ b ∈ path, Relation.TransGen r a b := by
  have chain := h.linked.imp fun _ _ step => Relation.TransGen.single step
  have ordered : path.Pairwise (Relation.TransGen r) := List.isChain_iff_pairwise.1 chain
  obtain ⟨c, rest, rfl⟩ := h.exists_eq
  -- from the start of the path everything is reached, and from everything the end, which is the
  -- start again
  have leaves : ∀ b ∈ rest ++ [c], Relation.TransGen r c b := (List.pairwise_cons.1 ordered).1
  have returns : ∀ a ∈ c :: rest, Relation.TransGen r a c := by
    rw [← List.cons_append] at ordered
    intro a member
    exact (List.pairwise_append.1 ordered).2.2 a member c List.mem_cons_self
  have around : Relation.TransGen r c c := leaves c (by simp)
  intro a first b last
  have back : Relation.TransGen r a c := by
    rcases List.mem_cons.1 first with rfl | member
    · exact around
    · rcases List.mem_append.1 member with inner | final
      · exact returns a (List.mem_cons_of_mem _ inner)
      · rw [List.mem_singleton.1 final]
        exact around
  have forth : Relation.TransGen r c b := by
    rcases List.mem_cons.1 last with rfl | member
    · exact around
    · exact leaves b member
  exact back.trans forth

/-! ### References -/

/-- The definition `a` has a field whose type refers to `b`. -/
def Refers (definitions : List Definition) (a b : String) : Prop :=
  ∃ d ∈ definitions, d.name = a ∧ ∃ f ∈ d.fields, f.type.reference? = some b

/-- No definition is reached from itself. -/
def Acyclic (definitions : List Definition) : Prop :=
  ∀ name, ¬ Relation.TransGen (Refers definitions) name name

theorem IsCycle.not_acyclic {definitions : List Definition} {path : List String}
    (h : IsCycle (Refers definitions) path) :
    ¬ Acyclic definitions := by
  obtain ⟨a, rest, rfl⟩ := h.exists_eq
  intro acyclic
  exact acyclic a (h.transGen a List.mem_cons_self a List.mem_cons_self)

/-- The reference of the type, if there is one, is to one of the names. -/
def Field.Resolved (names : List String) (f : Field) : Prop :=
  ∀ r, f.type.reference? = some r → r ∈ names

/-- Every reference in a definition is to one of the names. -/
def Definition.Resolved (names : List String) (d : Definition) : Prop :=
  ∀ f ∈ d.fields, f.Resolved names

/-- Every reference is to a definition. -/
def Resolved (definitions : List Definition) : Prop :=
  ∀ d ∈ definitions, d.Resolved (definitions.map (·.name))

namespace Schema

/-! ### Names that are defined twice -/

/-- The first name that occurs before, with nothing before it occurring twice. -/
def FirstRepeated (names : List String) (name : String) : Prop :=
  ∃ before after, names = before ++ name :: after ∧ before.Nodup ∧ name ∈ before

theorem firstRepeated?_eq_none_iff {seen names : List String} :
    firstRepeated? seen names = none ↔ (∀ name ∈ names, name ∉ seen) ∧ names.Nodup := by
  induction names generalizing seen with
  | nil => simp [firstRepeated?]
  | cons name rest ih =>
      rw [firstRepeated?]
      split
      · next old => simp [old]
      · next new =>
        rw [ih, List.forall_mem_cons, List.nodup_cons]
        constructor
        · rintro ⟨fresh, distinct⟩
          have apart : ∀ other ∈ rest, other ≠ name ∧ other ∉ seen := by
            simpa [not_or] using fresh
          exact ⟨⟨new, fun other member => (apart other member).2⟩,
            fun member => (apart name member).1 rfl, distinct⟩
        · rintro ⟨⟨-, fresh⟩, single, distinct⟩
          refine ⟨?_, distinct⟩
          intro other member
          rw [List.mem_cons, not_or]
          refine ⟨?_, fresh other member⟩
          rintro rfl
          exact single member

theorem exists_of_firstRepeated? {seen names : List String} {name : String}
    (h : firstRepeated? seen names = some name) :
    ∃ before after, names = before ++ name :: after ∧ before.Nodup ∧
      (∀ other ∈ before, other ∉ seen) ∧ (name ∈ seen ∨ name ∈ before) := by
  induction names generalizing seen with
  | nil => cases h
  | cons first rest ih =>
      rw [firstRepeated?] at h
      split at h
      · next old =>
        cases h
        exact ⟨[], rest, rfl, List.nodup_nil, nofun, Or.inl old⟩
      · next new =>
        obtain ⟨before, after, rfl, distinct, fresh, occurs⟩ := ih h
        have apart : ∀ other ∈ before, other ≠ first ∧ other ∉ seen := by
          simpa [not_or] using fresh
        refine ⟨first :: before, after, rfl, ?_, ?_, ?_⟩
        · exact List.nodup_cons.2 ⟨fun member => (apart first member).1 rfl, distinct⟩
        · rw [List.forall_mem_cons]
          exact ⟨new, fun other member => (apart other member).2⟩
        · rw [List.mem_cons] at occurs ⊢
          tauto

theorem firstRepeated_of_eq_some {names : List String} {name : String}
    (h : firstRepeated? [] names = some name) : FirstRepeated names name := by
  obtain ⟨before, after, split, distinct, -, occurs⟩ := exists_of_firstRepeated? h
  exact ⟨before, after, split, distinct, occurs.resolve_left List.not_mem_nil⟩

/-! ### References that lead nowhere -/

/-- The first reference, in order of declaration, that is to no definition: it stands in the given
field of the given definition. -/
def FirstUnresolved (definitions : List Definition) (definition field reference : String) : Prop :=
  ∃ before d after fieldsBefore f fieldsAfter,
    definitions = before ++ d :: after ∧ d.fields = fieldsBefore ++ f :: fieldsAfter ∧
    (∀ d' ∈ before, d'.Resolved (definitions.map (·.name))) ∧
    (∀ f' ∈ fieldsBefore, f'.Resolved (definitions.map (·.name))) ∧
    d.name = definition ∧ f.name = field ∧ f.type.reference? = some reference ∧
    reference ∉ definitions.map (·.name)

section

variable {names : List String} {definition : String} {f : Field}

theorem dangling_eq_none_iff :
    (f.type.reference?.bind fun r => if r ∈ names then none else some (definition, f.name, r)) =
      none ↔ f.Resolved names := by
  simp only [Field.Resolved, Option.bind_eq_none_iff]
  refine forall₂_congr fun r _ => ?_
  split
  · next known => simp [known]
  · next unknown => simp [unknown]

theorem dangling_of_eq_some {x : String × String × String}
    (h : (f.type.reference?.bind fun r =>
      if r ∈ names then none else some (definition, f.name, r)) = some x) :
    ∃ r, f.type.reference? = some r ∧ r ∉ names ∧ x = (definition, f.name, r) := by
  obtain ⟨r, refers, h⟩ := Option.bind_eq_some_iff.1 h
  split at h
  · cases h
  · next unknown =>
    cases h
    exact ⟨r, refers, unknown, rfl⟩

end

theorem firstUnresolved?_eq_none_iff {names : List String} {definitions : List Definition} :
    firstUnresolved? names definitions = none ↔ ∀ d ∈ definitions, d.Resolved names := by
  simp only [firstUnresolved?, List.findSome?_eq_none_iff, dangling_eq_none_iff,
    Definition.Resolved]

theorem firstUnresolved_of_eq_some {definitions : List Definition}
    {definition field reference : String}
    (h : firstUnresolved? (definitions.map (·.name)) definitions =
      some (definition, field, reference)) :
    FirstUnresolved definitions definition field reference := by
  obtain ⟨before, d, after, split, h, clean⟩ := List.findSome?_eq_some_iff.1 h
  obtain ⟨fieldsBefore, f, fieldsAfter, splitFields, h, cleanFields⟩ :=
    List.findSome?_eq_some_iff.1 h
  obtain ⟨r, refers, unknown, same⟩ := dangling_of_eq_some h
  cases same
  refine ⟨before, d, after, fieldsBefore, f, fieldsAfter, split, splitFields, ?_, ?_, rfl, rfl,
    refers, unknown⟩
  · intro d' member f' declared
    exact dangling_eq_none_iff.1 (List.findSome?_eq_none_iff.1 (clean d' member) f' declared)
  · intro f' member
    exact dangling_eq_none_iff.1 (cleanFields f' member)

end Schema

end RecordInference
