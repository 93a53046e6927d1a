import RecordInference.Proofs.Schema.Correctness

/-!
# What the schema of a definition depends on

The schema of a definition depends on the definitions that it reaches through references, and on
nothing else: neither on their order nor on other definitions (`get?_of_closed`).
-/

set_option autoImplicit false

namespace RecordInference

/-- A field with its type expanded. -/
def Field.expanded? (schemas : Keyed Schema) (f : Field) : Option (String × Schema) :=
  (f.type.expanded? schemas).map fun schema => (f.name, schema)

theorem FieldsExpand.eq_filterMap {schemas : Keyed Schema} {fields : List Field}
    {es : List (String × Schema)} (h : FieldsExpand schemas fields es) :
    fields.filterMap (Field.expanded? schemas) = es := by
  induction h with
  | nil => rfl
  | @cons f e fields es first rest ih =>
      have here : f.expanded? schemas = some e := by
        rw [Field.expanded?, first.2, Option.map_some, ← first.1]
      rw [List.filterMap_cons_some here, ih]

namespace Schema

variable {definitions definitions' : List Definition} {schemas schemas' : Keyed Schema}

/-- Where everything that a definition reaches is among other definitions too, it has the same
schema there. -/
theorem get?_of_closed (expansion : IsExpansion definitions schemas)
    (expansion' : IsExpansion definitions' schemas') {reached : String → Prop}
    (closed : ∀ a b, reached a → Refers definitions a b → reached b)
    (kept : ∀ d ∈ definitions, reached d.name → d ∈ definitions') {name : String}
    (here : reached name) {schema : Schema} (found : Keyed.get? name schemas = some schema) :
    Keyed.get? name schemas' = some schema := by
  -- what a definition refers to has a smaller schema
  induction size : sizeOf schema using Nat.strong_induction_on generalizing name schema with
  | _ n ih =>
    obtain ⟨d, declared, rfl, fields, rfl, expand⟩ := expansion.eq_object found
    obtain ⟨_, found', fields', rfl, expand'⟩ := expansion'.expands d (kept d declared here)
    have expanded : FieldsExpand schemas' d.fields fields := by
      refine expand.of_references fun f field r refers s known => ?_
      have reference : Refers definitions d.name r := ⟨d, declared, rfl, f, field, refers⟩
      obtain ⟨t, u, larger, smaller, less⟩ := expansion.smaller_of_refers reference
      rw [found] at larger
      rw [known] at smaller
      cases larger
      cases smaller
      exact ih _ (size ▸ less) (closed _ _ here reference) known rfl
    rw [found', ← expand'.eq_filterMap, expanded.eq_filterMap]

end Schema

end RecordInference
