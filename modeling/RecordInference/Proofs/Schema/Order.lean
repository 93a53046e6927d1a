import RecordInference.Proofs.Declaration.Renumbering
import RecordInference.Proofs.Schema.Correctness

/-!
# Definitions in order

Definitions stand in order if no two have the same name and each refers only to definitions before
it (`Ordered`). The places then go down along references, so there is no cycle, and definitions in
order have schemas (`Ordered.exists_resolve`).
-/

set_option autoImplicit false

namespace RecordInference

theorem Definition.Resolved.mono {names names' : List String} {d : Definition}
    (h : d.Resolved names) (more : names ⊆ names') : d.Resolved names' :=
  fun f field r refers => more (h f field r refers)

/-- Every reference in a definition is to a definition before it. -/
def Backward (definitions : List Definition) : Prop :=
  ∀ before d after, definitions = before ++ d :: after → d.Resolved (before.map (·.name))

/-- Whether definitions are in order: no name is defined twice, and every reference is to a
definition before it. -/
structure Ordered (definitions : List Definition) : Prop where
  distinct : (definitions.map (·.name)).Nodup
  backward : Backward definitions

section

variable {definitions : List Definition}

theorem Backward.nil : Backward [] := List.forall_split_nil

theorem backward_concat_iff {d : Definition} : Backward (definitions ++ [d]) ↔
    Backward definitions ∧ d.Resolved (definitions.map (·.name)) :=
  List.forall_split_concat_iff

theorem Definition.resolved_renumber_iff {f : Nat → Nat} {names : List String} {d : Definition} :
    (d.renumber f).Resolved names ↔ d.Resolved names := by
  simp [Definition.Resolved, Definition.renumber, Field.Resolved, Field.renumber]

/-- Lines do not count for the order. -/
theorem ordered_renumber_iff {f : Nat → Nat} :
    Ordered (definitions.map (Definition.renumber f)) ↔ Ordered definitions := by
  have names : ∀ ds : List Definition,
      (ds.map (Definition.renumber f)).map (·.name) = ds.map (·.name) := by
    intro ds
    rw [List.map_map]
    rfl
  constructor
  · rintro ⟨distinct, backward⟩
    refine ⟨names definitions ▸ distinct, ?_⟩
    rintro before d after rfl
    have moved := backward (before.map (Definition.renumber f)) (d.renumber f)
      (after.map (Definition.renumber f)) (by rw [List.map_append, List.map_cons])
    rwa [names, Definition.resolved_renumber_iff] at moved
  · rintro ⟨distinct, backward⟩
    refine ⟨(names definitions).symm ▸ distinct, ?_⟩
    intro before d after split
    -- a split of the definitions on other lines is one of the definitions
    obtain ⟨before', rest, rfl, rfl, tail⟩ := List.map_eq_append_iff.1 split
    obtain ⟨d', after', rfl, rfl, rfl⟩ := List.map_eq_cons_iff.1 tail
    rw [names, Definition.resolved_renumber_iff]
    exact backward before' d' after' rfl

namespace Ordered

theorem resolved (h : Ordered definitions) : Resolved definitions := by
  intro d declared
  obtain ⟨before, after, rfl⟩ := List.append_of_mem declared
  refine (h.backward before d after rfl).mono ?_
  rw [List.map_append]
  exact List.subset_append_left _ _

/-- A definition stands behind what it refers to. -/
theorem idxOf_lt_of_refers (h : Ordered definitions) {a b : String}
    (refers : Refers definitions a b) :
    (definitions.map (·.name)).idxOf b < (definitions.map (·.name)).idxOf a := by
  obtain ⟨d, declared, rfl, f, field, refers⟩ := refers
  obtain ⟨before, after, rfl⟩ := List.append_of_mem declared
  have earlier : b ∈ before.map (·.name) := h.backward before d after rfl f field b refers
  have first : d.name ∉ before.map (·.name) := by
    have distinct := h.distinct
    rw [List.map_append, List.map_cons, List.nodup_append] at distinct
    exact fun member => distinct.2.2 _ member _ List.mem_cons_self rfl
  rw [List.map_append, List.idxOf_append_of_mem earlier, List.idxOf_append_of_notMem first]
  exact (List.idxOf_lt_length_of_mem earlier).trans_le (Nat.le_add_right _ _)

theorem acyclic (h : Ordered definitions) : Acyclic definitions := by
  have below : ∀ a b, Relation.TransGen (Refers definitions) a b →
      (definitions.map (·.name)).idxOf b < (definitions.map (·.name)).idxOf a := by
    intro a b path
    induction path with
    | single refers => exact h.idxOf_lt_of_refers refers
    | tail _ refers ih => exact (h.idxOf_lt_of_refers refers).trans ih
  exact fun name path => lt_irrefl _ (below name name path)

theorem exists_resolve (h : Ordered definitions) :
    ∃ schemas, Schema.resolve definitions = .ok schemas := by
  rcases Schema.resolve_of_resolved h.distinct h.resolved with ⟨path, -, cycle⟩ | ⟨schemas, ok, -⟩
  · exact absurd h.acyclic cycle.not_acyclic
  · exact ⟨schemas, ok⟩

end Ordered

end

end RecordInference
