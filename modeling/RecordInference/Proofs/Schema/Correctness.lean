import Mathlib.Data.List.Nodup
import RecordInference.Proofs.Schema.Search

/-!
# Which definitions have schemas

Definitions have schemas exactly if no name is defined twice, every reference is to a definition and
the references are acyclic; and the schemas are then the definitions, expanded (`resolve_correct`).
That a search without a cycle leaves none to be found is seen on the schemas: a definition that
refers to another one has the larger schema (`IsExpansion.smaller_of_refers`), so no definition is
reached from itself.

Where a cycle is reported, it is a simple cycle of references, and it holds nothing else
(`simpleCycle_of_resolve`).
-/

set_option autoImplicit false

namespace RecordInference.Schema

/-! ### Schemas exclude cycles -/

/-- The schema of a reference is found, and it is no larger than the type expanded. -/
theorem exists_of_reference? {schemas : Keyed Schema} {type : FieldType} {r : String}
    {schema : Schema} (refers : type.reference? = some r)
    (expanded : type.expanded? schemas = some schema) :
    ∃ schema', Keyed.get? r schemas = some schema' ∧ sizeOf schema' ≤ sizeOf schema := by
  cases type with
  | text | money | number | yesNo | oneOf => cases refers
  | object d =>
      cases refers
      exact ⟨schema, expanded, le_refl _⟩
  | listOf d =>
      cases refers
      obtain ⟨items, found, rfl⟩ := Option.map_eq_some_iff.1 expanded
      refine ⟨items, found, ?_⟩
      rw [Schema.list.sizeOf_spec]
      omega

/-- The schemas are those of the definitions, in their order, each expanded from the others. -/
structure IsExpansion (definitions : List Definition) (schemas : Keyed Schema) : Prop where
  keys : Keyed.keys schemas = definitions.map (·.name)
  expands : ∀ d ∈ definitions, ∃ schema,
    Keyed.get? d.name schemas = some schema ∧ d.Expands schemas schema

namespace IsExpansion

variable {definitions : List Definition} {schemas : Keyed Schema}

/-- A definition that refers to another one has the larger schema. -/
theorem smaller_of_refers (h : IsExpansion definitions schemas) {a b : String}
    (refers : Refers definitions a b) :
    ∃ s t, Keyed.get? a schemas = some s ∧ Keyed.get? b schemas = some t ∧
      sizeOf t < sizeOf s := by
  obtain ⟨d, declared, rfl, f, field, refers⟩ := refers
  obtain ⟨_, found, fields, rfl, expand⟩ := h.expands d declared
  have turned : List.Forall₂ (fun e f => e.1 = f.name ∧ f.type.expanded? schemas = some e.2)
      fields d.fields := expand.symm_of fun _ _ _ same => same
  obtain ⟨⟨name, schema⟩, member, -, expanded⟩ := turned.exists_left f field
  obtain ⟨schema', found', small⟩ := exists_of_reference? refers expanded
  refine ⟨_, schema', found, found', ?_⟩
  have inside := List.sizeOf_lt_of_mem member
  simp only [Prod.mk.sizeOf_spec, Schema.object.sizeOf_spec] at inside small ⊢
  omega

theorem smaller_of_transGen (h : IsExpansion definitions schemas) {a b : String}
    (path : Relation.TransGen (Refers definitions) a b) :
    ∃ s t, Keyed.get? a schemas = some s ∧ Keyed.get? b schemas = some t ∧
      sizeOf t < sizeOf s := by
  induction path with
  | single refers => exact h.smaller_of_refers refers
  | tail _ refers ih =>
      obtain ⟨s, t, found, middle, larger⟩ := ih
      obtain ⟨t', u, middle', found', smaller⟩ := h.smaller_of_refers refers
      rw [middle] at middle'
      cases middle'
      exact ⟨s, u, found, found', smaller.trans larger⟩

theorem acyclic (h : IsExpansion definitions schemas) : Acyclic definitions := by
  intro name path
  obtain ⟨s, t, found, found', smaller⟩ := h.smaller_of_transGen path
  rw [found] at found'
  cases found'
  exact lt_irrefl _ smaller

/-- The schema of a definition is an object. -/
theorem eq_object (h : IsExpansion definitions schemas) {name : String} {schema : Schema}
    (found : Keyed.get? name schemas = some schema) :
    ∃ d ∈ definitions, d.name = name ∧
      ∃ fields, schema = .object d.name fields ∧ FieldsExpand schemas d.fields fields := by
  have named : name ∈ definitions.map (·.name) := h.keys ▸ Keyed.mem_keys_iff.2 ⟨schema, found⟩
  obtain ⟨d, declared, rfl⟩ := List.mem_map.1 named
  obtain ⟨schema', found', expands⟩ := h.expands d declared
  rw [found] at found'
  cases found'
  exact ⟨d, declared, rfl, expands⟩

/-- What holds of types without references, of an object if it does of its fields and of a list if it
does of its elements, holds of every type and the schema that it is expanded to. -/
theorem induction (h : IsExpansion definitions schemas) {motive : FieldType → Schema → Prop}
    (plain : ∀ type schema, type.reference? = none → type.expanded? schemas = some schema →
      motive type schema)
    (object : ∀ d ∈ definitions, ∀ fields : List (String × Schema),
      List.Forall₂ (fun f e => e.1 = f.name ∧ motive f.type e.2) d.fields fields →
        motive (.object d.name) (.object d.name fields))
    (listOf : ∀ name fields, motive (.object name) (.object name fields) →
      motive (.listOf name) (.list (.object name fields)))
    {type : FieldType} {schema : Schema} (expanded : type.expanded? schemas = some schema) :
    motive type schema := by
  -- the parts of a schema are expanded from types too
  induction size : sizeOf schema using Nat.strong_induction_on generalizing type schema with
  | _ n ih =>
    subst size
    cases type with
    | text | money | number | yesNo | oneOf => exact plain _ _ rfl expanded
    | object name =>
        obtain ⟨d, declared, rfl, fields, rfl, expand⟩ := h.eq_object expanded
        have turned : List.Forall₂ (fun e f => e.1 = f.name ∧ f.type.expanded? schemas = some e.2)
            fields d.fields := expand.symm_of fun _ _ _ same => same
        refine object d declared fields (turned.symm_of fun e member f same => ?_)
        have inside := List.sizeOf_lt_of_mem member
        obtain ⟨name, part⟩ := e
        refine ⟨same.1, ih (sizeOf part) ?_ same.2 rfl⟩
        simp only [Prod.mk.sizeOf_spec, Schema.object.sizeOf_spec] at inside ⊢
        omega
    | listOf name =>
        obtain ⟨items, found, rfl⟩ := Option.map_eq_some_iff.1 expanded
        obtain ⟨d, declared, rfl, fields, rfl, expand⟩ := h.eq_object found
        have element : (FieldType.object d.name).expanded? schemas =
          some (.object d.name fields) := found
        refine listOf d.name fields (ih _ ?_ element rfl)
        rw [Schema.list.sizeOf_spec]
        omega

end IsExpansion

/-! ### The outcomes of the resolution -/

section

variable {definitions : List Definition}

theorem resolve_of_repeated (repeated : ¬ (definitions.map (·.name)).Nodup) :
    ∃ name, resolve definitions = .error (.duplicate name) ∧
      FirstRepeated (definitions.map (·.name)) name := by
  cases first : firstRepeated? [] (definitions.map (·.name)) with
  | none => exact absurd (firstRepeated?_eq_none_iff.1 first).2 repeated
  | some name =>
      refine ⟨name, ?_, firstRepeated_of_eq_some first⟩
      simp only [resolve, first]

theorem resolve_of_unresolved (distinct : (definitions.map (·.name)).Nodup)
    (unresolved : ¬ Resolved definitions) :
    ∃ d f r, resolve definitions = .error (.unresolved d f r) ∧
      FirstUnresolved definitions d f r := by
  have once : firstRepeated? [] (definitions.map (·.name)) = none :=
    firstRepeated?_eq_none_iff.2 ⟨by simp, distinct⟩
  cases first : firstUnresolved? (definitions.map (·.name)) definitions with
  | none => exact absurd (firstUnresolved?_eq_none_iff.1 first) unresolved
  | some found =>
      obtain ⟨d, f, r⟩ := found
      refine ⟨d, f, r, ?_, firstUnresolved_of_eq_some first⟩
      simp only [resolve, once, first]

/-- After the checks the resolution is the search, which finds a cycle or all schemas. -/
theorem resolve_of_resolved (distinct : (definitions.map (·.name)).Nodup)
    (resolved : Resolved definitions) :
    (∃ path, resolve definitions = .error (.cycle path) ∧ IsCycle (Refers definitions) path) ∨
    ∃ schemas, resolve definitions = .ok schemas ∧ IsExpansion definitions schemas := by
  have once : firstRepeated? [] (definitions.map (·.name)) = none :=
    firstRepeated?_eq_none_iff.2 ⟨by simp, distinct⟩
  have known : firstUnresolved? (definitions.map (·.name)) definitions = none :=
    firstUnresolved?_eq_none_iff.2 resolved
  have search : resolve definitions = visitAll definitions (definitions.map (·.name)) [] := by
    simp only [resolve, once, known]
  rw [search]
  rcases outcome_visitAll resolved (fun _ member => member) Finished.nil with
    failed | ⟨schemas, done, visited, finished, -, keys, each⟩
  · exact Or.inl failed
  · refine Or.inr ⟨schemas, visited, keys, ?_⟩
    have defined : ∀ d ∈ definitions, ∃ schema, Keyed.get? d.name schemas = some schema := by
      intro d declared
      apply Keyed.mem_keys_iff.1
      rw [keys]
      exact List.mem_map_of_mem declared
    -- what is finished at the end of the search are the schemas that it gives
    have agree : Keyed.Extends done schemas := by
      intro name schema found
      obtain ⟨d, declared, rfl, -⟩ := finished.expands name schema found
      obtain ⟨schema', found'⟩ := defined d declared
      have same := each _ (Keyed.mem_of_get? found')
      rw [found] at same
      cases same
      exact found'
    intro d declared
    obtain ⟨schema, found⟩ := defined d declared
    obtain ⟨d', declared', named, expands⟩ :=
      finished.expands _ _ (each _ (Keyed.mem_of_get? found))
    -- no two definitions have the name
    obtain rfl := List.inj_on_of_nodup_map distinct declared' declared named
    exact ⟨schema, found, expands.mono agree⟩

end

section

variable {definitions : List Definition} {schemas : Keyed Schema}

theorem checked_of_resolve (h : resolve definitions = .ok schemas) :
    (definitions.map (·.name)).Nodup ∧ Resolved definitions := by
  have distinct : (definitions.map (·.name)).Nodup := by
    by_contra repeated
    obtain ⟨name, failed, -⟩ := resolve_of_repeated repeated
    rw [h] at failed
    cases failed
  refine ⟨distinct, ?_⟩
  by_contra unresolved
  obtain ⟨d, f, r, failed, -⟩ := resolve_of_unresolved distinct unresolved
  rw [h] at failed
  cases failed

theorem isExpansion_of_resolve (h : resolve definitions = .ok schemas) :
    IsExpansion definitions schemas := by
  obtain ⟨distinct, resolved⟩ := checked_of_resolve h
  rcases resolve_of_resolved distinct resolved with ⟨path, failed, -⟩ | ⟨schemas', ok, expansion⟩
  · rw [h] at failed
    cases failed
  · rw [h] at ok
    cases ok
    exact expansion

theorem isCycle_of_resolve {path : List String}
    (h : resolve definitions = .error (.cycle path)) : IsCycle (Refers definitions) path := by
  by_cases distinct : (definitions.map (·.name)).Nodup
  · by_cases resolved : Resolved definitions
    · rcases resolve_of_resolved distinct resolved with ⟨path', failed, cycle⟩ | ⟨schemas, ok, -⟩
      · rw [h] at failed
        cases failed
        exact cycle
      · rw [h] at ok
        cases ok
    · obtain ⟨d, f, r, failed, -⟩ := resolve_of_unresolved distinct resolved
      rw [h] at failed
      cases failed
  · obtain ⟨name, failed, -⟩ := resolve_of_repeated distinct
    rw [h] at failed
    cases failed

end

/-- The resolution gives schemas exactly if no name is defined twice, every reference is to a
definition and the references are acyclic; otherwise it reports the first of these that fails. The
schemas are the definitions, expanded. The visits of the search are nested no more deeply than there
are definitions: more room for them changes nothing. -/
theorem resolve_correct (definitions : List Definition) :
    ((∃ schemas, resolve definitions = .ok schemas) ↔
      (definitions.map (·.name)).Nodup ∧ Resolved definitions ∧ Acyclic definitions) ∧
    (¬ (definitions.map (·.name)).Nodup →
      ∃ name, resolve definitions = .error (.duplicate name) ∧
        FirstRepeated (definitions.map (·.name)) name) ∧
    ((definitions.map (·.name)).Nodup → ¬ Resolved definitions →
      ∃ d f r, resolve definitions = .error (.unresolved d f r) ∧
        FirstUnresolved definitions d f r) ∧
    ((definitions.map (·.name)).Nodup → Resolved definitions → ¬ Acyclic definitions →
      ∃ path, resolve definitions = .error (.cycle path)) ∧
    (∀ schemas, resolve definitions = .ok schemas → IsExpansion definitions schemas) ∧
    (Resolved definitions → ∀ name ∈ definitions.map (·.name), ∀ done room,
      definitions.length ≤ room →
      visit definitions room [] name done = visit definitions definitions.length [] name done) := by
  refine ⟨?_, resolve_of_repeated, resolve_of_unresolved, ?_,
    fun schemas => isExpansion_of_resolve, ?_⟩
  · constructor
    · rintro ⟨schemas, ok⟩
      obtain ⟨distinct, resolved⟩ := checked_of_resolve ok
      exact ⟨distinct, resolved, (isExpansion_of_resolve ok).acyclic⟩
    · rintro ⟨distinct, resolved, acyclic⟩
      rcases resolve_of_resolved distinct resolved with ⟨path, -, cycle⟩ | ⟨schemas, ok, -⟩
      · exact absurd acyclic cycle.not_acyclic
      · exact ⟨schemas, ok⟩
  · intro distinct resolved cyclic
    rcases resolve_of_resolved distinct resolved with ⟨path, failed, -⟩ | ⟨schemas, -, expansion⟩
    · exact ⟨path, failed⟩
    · exact absurd expansion.acyclic cyclic
  · intro resolved name defined done room enough
    exact visit_of_le resolved (Trail.start defined) (Nat.le_add_right _ _) enough done

/-- An invoice with an address and lines, both defined after it. -/
theorem resolve_correct_invoice :
    let definitions : List Definition := [
      ⟨"invoice", [⟨"billing", .object "address", 2⟩, ⟨"lines", .listOf "line", 3⟩], 1⟩,
      ⟨"line", [⟨"item", .text, 5⟩, ⟨"price", .money, 6⟩], 4⟩,
      ⟨"address", [⟨"city", .text, 8⟩], 7⟩]
    Acyclic definitions ∧ ∃ schemas, resolve definitions = .ok schemas ∧
      IsExpansion definitions schemas := by
  intro definitions
  obtain ⟨schemas, ok⟩ := Except.exists_of_isOk
    (show (resolve definitions).isOk = true by decide +kernel)
  obtain ⟨iff, -, -, -, expansion, -⟩ := resolve_correct definitions
  exact ⟨(iff.1 ⟨schemas, ok⟩).2.2, schemas, ok, expansion schemas ok⟩

/-- A reported cycle is a simple cycle of references: it has at least two names, of which the first
and the last are the same and the others differ, and each refers to the next. Every name in it is
reached from every name in it, so none is there that only leads to the cycle. -/
theorem simpleCycle_of_resolve {definitions : List Definition} {path : List String}
    (h : resolve definitions = .error (.cycle path)) :
    2 ≤ path.length ∧ path.head? = path.getLast? ∧ path.dropLast.Nodup ∧
      path.IsChain (Refers definitions) ∧
      ∀ a ∈ path, ∀ b ∈ path, Relation.TransGen (Refers definitions) a b := by
  have cycle := isCycle_of_resolve h
  exact ⟨cycle.length, cycle.closed, cycle.distinct, cycle.linked, cycle.transGen⟩

/-- A definition that leads to a cycle of two others, which is reported without it. -/
theorem simpleCycle_of_resolve_reached :
    let definitions : List Definition := [
      ⟨"root", [⟨"x", .object "a", 2⟩], 1⟩, ⟨"a", [⟨"y", .listOf "b", 4⟩], 3⟩,
      ⟨"b", [⟨"z", .object "a", 6⟩], 5⟩]
    resolve definitions = .error (.cycle ["a", "b", "a"]) ∧
      2 ≤ ["a", "b", "a"].length ∧ ["a", "b", "a"].head? = ["a", "b", "a"].getLast? ∧
      ["a", "b", "a"].dropLast.Nodup ∧ ["a", "b", "a"].IsChain (Refers definitions) ∧
      ∀ x ∈ ["a", "b", "a"], ∀ y ∈ ["a", "b", "a"],
        Relation.TransGen (Refers definitions) x y := by
  intro definitions
  have failed : resolve definitions = .error (.cycle ["a", "b", "a"]) := by rfl
  exact ⟨failed, simpleCycle_of_resolve failed⟩

end RecordInference.Schema
