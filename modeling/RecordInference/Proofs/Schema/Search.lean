import Mathlib.Data.List.Perm.Subperm
import RecordInference.Proofs.Outcome
import RecordInference.Proofs.Schema.References

/-!
# The search for schemas

Where every reference is to a definition, a visit of a definition ends in one of two ways
(`Outcome`). It gives the schema of the definition, and with it are finished the definitions that
it refers to; or it gives a cycle of references. Two facts are kept by every visit: what is
finished is expanded from what is finished, and nothing under visit is finished (`Finished`). The
definitions under visit form a path of references to the next one (`Trail`), which closes to a
cycle when it comes back to one of them.

The visits are nested at most as deeply as there are definitions, so more room changes nothing
(`visit_of_le`).
-/

set_option autoImplicit false

namespace RecordInference

/-! ### Expansion -/

/-- The type with its reference replaced by the schema of the definition that it is to. -/
def FieldType.expanded? (schemas : Keyed Schema) : FieldType → Option Schema
  | .text => some .text
  | .money => some .money
  | .number => some .number
  | .yesNo => some .yesNo
  | .oneOf values => some (.oneOf values)
  | .object d => Keyed.get? d schemas
  | .listOf d => (Keyed.get? d schemas).map .list

/-- The fields in their order, each with its type expanded. -/
def FieldsExpand (schemas : Keyed Schema) : List Field → List (String × Schema) → Prop :=
  List.Forall₂ fun f e => e.1 = f.name ∧ f.type.expanded? schemas = some e.2

/-- The schema is the object of the name of the definition, with its fields expanded. -/
def Definition.Expands (schemas : Keyed Schema) (d : Definition) (schema : Schema) : Prop :=
  ∃ fields, schema = .object d.name fields ∧ FieldsExpand schemas d.fields fields

namespace Keyed

variable {α : Type}

/-- Every entry of the one is an entry of the other. -/
def Extends (m m' : Keyed α) : Prop := ∀ k v, get? k m = some v → get? k m' = some v

theorem Extends.refl (m : Keyed α) : Extends m m := fun _ _ found => found

theorem Extends.trans {m m' m'' : Keyed α} (h : Extends m m') (h' : Extends m' m'') :
    Extends m m'' := fun k v found => h' k v (h k v found)

theorem extends_insert {k : String} {m : Keyed α} (new : get? k m = none) (v : α) :
    Extends m (insert k v m) := by
  intro k' v' found
  have other : k' ≠ k := by
    rintro rfl
    rw [new] at found
    cases found
  rw [get?_insert_of_ne other, found]

end Keyed

/-- Only the schema of the reference counts for what a type is expanded to. -/
theorem FieldType.expanded?_of_references {schemas schemas' : Keyed Schema} {type : FieldType}
    (more : ∀ r, type.reference? = some r →
      ∀ s, Keyed.get? r schemas = some s → Keyed.get? r schemas' = some s)
    {schema : Schema} (h : type.expanded? schemas = some schema) :
    type.expanded? schemas' = some schema := by
  cases type with
  | text | money | number | yesNo | oneOf => exact h
  | object d => exact more d rfl _ h
  | listOf d =>
      obtain ⟨items, found, rfl⟩ := Option.map_eq_some_iff.1 h
      exact Option.map_eq_some_iff.2 ⟨items, more d rfl _ found, rfl⟩

theorem FieldsExpand.of_references {schemas schemas' : Keyed Schema} {fields : List Field}
    (more : ∀ f ∈ fields, ∀ r, f.type.reference? = some r →
      ∀ s, Keyed.get? r schemas = some s → Keyed.get? r schemas' = some s)
    {es : List (String × Schema)} (h : FieldsExpand schemas fields es) :
    FieldsExpand schemas' fields es := by
  induction h with
  | nil => exact .nil
  | cons first rest ih =>
      obtain ⟨here, later⟩ := List.forall_mem_cons.1 more
      exact .cons ⟨first.1, FieldType.expanded?_of_references here first.2⟩ (ih later)

theorem FieldsExpand.mono {schemas schemas' : Keyed Schema}
    (more : Keyed.Extends schemas schemas') {fields : List Field} {es : List (String × Schema)}
    (h : FieldsExpand schemas fields es) : FieldsExpand schemas' fields es :=
  h.of_references fun _ _ r _ => more r

theorem Definition.Expands.mono {schemas schemas' : Keyed Schema}
    (more : Keyed.Extends schemas schemas') {d : Definition} {schema : Schema}
    (h : d.Expands schemas schema) : d.Expands schemas' schema := by
  obtain ⟨fields, rfl, expand⟩ := h
  exact ⟨fields, rfl, expand.mono more⟩

namespace Schema

/-! ### Definitions under visit -/

/-- The definitions under visit are a path of references to the definition to be visited. -/
structure Trail (definitions : List Definition) (stack : List String) (name : String) : Prop where
  distinct : stack.Nodup
  linked : (stack ++ [name]).IsChain (Refers definitions)
  defined : ∀ n ∈ stack ++ [name], n ∈ definitions.map (·.name)

namespace Trail

variable {definitions : List Definition} {stack : List String} {name : String}

theorem start (defined : name ∈ definitions.map (·.name)) : Trail definitions [] name := by
  refine ⟨List.nodup_nil, List.isChain_singleton _, ?_⟩
  intro n member
  rw [List.nil_append, List.mem_singleton] at member
  exact member ▸ defined

/-- A reference of the definition to be visited makes the path longer. -/
theorem push (h : Trail definitions stack name) (new : name ∉ stack) {r : String}
    (refers : Refers definitions name r) (defined : r ∈ definitions.map (·.name)) :
    Trail definitions (stack ++ [name]) r := by
  refine ⟨?_, ?_, ?_⟩
  · rw [List.nodup_append]
    refine ⟨h.distinct, by simp, ?_⟩
    intro n member n' last same
    rw [List.mem_singleton] at last
    exact new (last ▸ same ▸ member)
  · refine h.linked.append (List.isChain_singleton _) ?_
    intro n last n' first
    rw [List.getLast?_concat, Option.mem_some_iff] at last
    rw [List.head?_cons, Option.mem_some_iff] at first
    exact last ▸ first ▸ refers
  · intro n member
    rcases List.mem_append.1 member with before | last
    · exact h.defined n before
    · exact List.mem_singleton.1 last ▸ defined

/-- When the path comes back to one of the definitions under visit, it closes to a cycle there. -/
theorem isCycle (h : Trail definitions stack name) (back : name ∈ stack) :
    IsCycle (Refers definitions) (cycleTo name stack) := by
  obtain ⟨before, after, split, apart⟩ := List.eq_append_cons_of_mem back
  have skipped : ∀ n ∈ before, (n != name) = true := by
    intro n member
    rw [bne_iff_ne]
    rintro rfl
    exact apart member
  have cycle : cycleTo name stack = name :: (after ++ [name]) := by
    rw [cycleTo, split, List.dropWhile_append_of_pos skipped, List.dropWhile_cons_of_neg (by simp),
      List.cons_append]
  have distinct := h.distinct
  have linked := h.linked
  rw [split] at distinct linked
  rw [List.append_assoc] at linked
  rw [cycle]
  refine ⟨?_, ?_, ?_, linked.right_of_append⟩
  · simp
  · rw [← List.cons_append, List.getLast?_concat, List.cons_append, List.head?_cons]
  · rw [← List.cons_append, List.dropLast_concat]
    exact (List.nodup_append.1 distinct).2.1

/-- A path of all definitions has come back. -/
theorem mem_of_full (h : Trail definitions stack name)
    (full : definitions.length ≤ stack.length) : name ∈ stack := by
  have inside : stack ⊆ definitions.map (·.name) :=
    fun n member => h.defined n (List.mem_append_left _ member)
  have all : stack.Perm (definitions.map (·.name)) := by
    apply (List.subperm_of_subset h.distinct inside).perm_of_length_le
    rwa [List.length_map]
  exact all.mem_iff.2 (h.defined name (by simp))

end Trail

/-! ### Finished definitions -/

/-- What is finished is expanded from what is finished, and nothing under visit is. -/
structure Finished (definitions : List Definition) (stack : List String) (done : Keyed Schema) :
    Prop where
  expands : ∀ name schema, Keyed.get? name done = some schema →
    ∃ d ∈ definitions, d.name = name ∧ d.Expands done schema
  apart : ∀ name ∈ stack, Keyed.get? name done = none

namespace Finished

variable {definitions : List Definition} {stack : List String} {done : Keyed Schema}

theorem nil : Finished definitions [] [] := ⟨nofun, nofun⟩

theorem push (h : Finished definitions stack done) {name : String}
    (new : Keyed.get? name done = none) : Finished definitions (stack ++ [name]) done := by
  refine ⟨h.expands, ?_⟩
  intro n member
  rcases List.mem_append.1 member with before | last
  · exact h.apart n before
  · exact List.mem_singleton.1 last ▸ new

/-- The definition that was under visit last is finished when its fields are expanded. -/
theorem insert {d : Definition} (h : Finished definitions (stack ++ [d.name]) done)
    (declared : d ∈ definitions) (new : d.name ∉ stack) {fields : List (String × Schema)}
    (expand : FieldsExpand done d.fields fields) :
    Finished definitions stack (Keyed.insert d.name (.object d.name fields) done) := by
  have more := Keyed.extends_insert (h.apart d.name (by simp)) (Schema.object d.name fields)
  constructor
  · intro name schema found
    by_cases same : name = d.name
    · subst same
      rw [Keyed.get?_insert_self, Option.some.injEq] at found
      exact ⟨d, declared, rfl, fields, found.symm, expand.mono more⟩
    · rw [Keyed.get?_insert_of_ne same] at found
      obtain ⟨d', declared', named, expands⟩ := h.expands name schema found
      exact ⟨d', declared', named, expands.mono more⟩
  · intro name member
    have other : name ≠ d.name := by
      rintro rfl
      exact new member
    rw [Keyed.get?_insert_of_ne other]
    exact h.apart name (List.mem_append_left _ member)

end Finished

/-! ### Visits -/

/-- A part of the search ends with something found, where more may be finished than before, or with
a cycle of references. -/
inductive Outcome {α : Type} (definitions : List Definition) (stack : List String)
    (done : Keyed Schema) (Found : α → Keyed Schema → Prop) :
    Except SchemaError (α × Keyed Schema) → Prop
  | found {a : α} {done' : Keyed Schema} (finished : Finished definitions stack done')
      (more : Keyed.Extends done done') (found : Found a done') :
      Outcome definitions stack done Found (.ok (a, done'))
  | cycle {path : List String} (cycle : IsCycle (Refers definitions) path) :
      Outcome definitions stack done Found (.error (.cycle path))

section

variable {definitions : List Definition} {stack : List String} {done : Keyed Schema}

/-- The search goes on from what is found. -/
theorem Outcome.bind {α β : Type} {Found : α → Keyed Schema → Prop}
    {Found' : β → Keyed Schema → Prop} {stack' : List String}
    {x : Except SchemaError (α × Keyed Schema)}
    {k : α × Keyed Schema → Except SchemaError (β × Keyed Schema)}
    (h : Outcome definitions stack' done Found x)
    (next : ∀ a done', Finished definitions stack' done' → Keyed.Extends done done' →
      Found a done' → Outcome definitions stack done' Found' (k (a, done'))) :
    Outcome definitions stack done Found' (x >>= k) := by
  cases h with
  | cycle cycle => exact .cycle cycle
  | @found a done' finished more found =>
      show Outcome definitions stack done Found' (k (a, done'))
      have after := next a done' finished more found
      generalize k (a, done') = result at after ⊢
      cases after with
      | cycle cycle => exact .cycle cycle
      | found finished' more' found' => exact .found finished' (more.trans more') found'

/-- A visit of the definition `name` finds its schema, or a cycle. -/
def Visits (definitions : List Definition) (stack : List String)
    (visit : String → Keyed Schema → Except SchemaError (Schema × Keyed Schema)) (name : String) :
    Prop :=
  ∀ done, Finished definitions stack done →
    Outcome definitions stack done (fun schema done' => Keyed.get? name done' = some schema)
      (visit name done)

variable {visit : String → Keyed Schema → Except SchemaError (Schema × Keyed Schema)}

theorem outcome_visitType {type : FieldType}
    (visits : ∀ r, type.reference? = some r → Visits definitions stack visit r)
    (finished : Finished definitions stack done) :
    Outcome definitions stack done (fun schema done' => type.expanded? done' = some schema)
      (visitType visit done type) := by
  cases type with
  | text | money | number | yesNo | oneOf => exact .found finished (.refl done) rfl
  | object d => exact visits d rfl done finished
  | listOf d =>
      have visited := visits d rfl done finished
      rw [visitType]
      generalize visit d done = result at visited ⊢
      cases visited with
      | found finished more found =>
          exact .found finished more (Option.map_eq_some_iff.2 ⟨_, found, rfl⟩)
      | cycle cycle => exact .cycle cycle

theorem outcome_visitFields {fields : List Field}
    (visits : ∀ f ∈ fields, ∀ r, f.type.reference? = some r → Visits definitions stack visit r)
    (finished : Finished definitions stack done) :
    Outcome definitions stack done (fun es done' => FieldsExpand done' fields es)
      (visitFields visit fields done) := by
  induction fields generalizing done with
  | nil => exact .found finished (.refl done) .nil
  | cons f rest ih =>
      obtain ⟨here, later⟩ := List.forall_mem_cons.1 visits
      rw [visitFields]
      apply (outcome_visitType here finished).bind
      intro schema done' finished' _ expanded
      apply (ih later finished').bind
      intro es done'' finished'' more expand
      exact .found finished'' (.refl done'')
        (.cons ⟨rfl, FieldType.expanded?_of_references (fun r _ => more r) expanded⟩ expand)

end

section

variable {definitions : List Definition}

theorem exists_definition {name : String} (defined : name ∈ definitions.map (·.name)) :
    ∃ d ∈ definitions, d.name = name ∧ definitions.find? (fun d => d.name = name) = some d := by
  obtain ⟨d, member, named⟩ := List.mem_map.1 defined
  have some : (definitions.find? fun d => d.name = name).isSome = true :=
    List.find?_isSome.2 ⟨d, member, decide_eq_true named⟩
  obtain ⟨d', found⟩ := Option.isSome_iff_exists.1 some
  exact ⟨d', List.mem_of_find?_eq_some found, by simpa using List.find?_some found, found⟩

/-- A definition that is neither finished nor under visit is visited through its fields. -/
theorem visit_eq {room : Nat} {stack : List String} {done : Keyed Schema} {d : Definition}
    (found : definitions.find? (fun d' => d'.name = d.name) = some d)
    (unfinished : Keyed.get? d.name done = none) (new : d.name ∉ stack) :
    visit definitions (room + 1) stack d.name done =
      (visitFields (visit definitions room (stack ++ [d.name])) d.fields done >>= fun visited =>
        .ok (.object d.name visited.1,
          Keyed.insert d.name (.object d.name visited.1) visited.2)) := by
  rw [visit, unfinished]
  simp only [if_neg new, found, Option.map_some, Option.getD_some]
  rfl

/-- A visit finds the schema of a definition or a cycle, where there is room for the definitions
that are not under visit. -/
theorem visits_visit (resolved : Resolved definitions) {room : Nat} {stack : List String}
    {name : String} (trail : Trail definitions stack name)
    (enough : definitions.length ≤ room + stack.length) :
    Visits definitions stack (visit definitions room stack) name := by
  induction room generalizing stack name with
  | zero =>
      intro done finished
      rw [Nat.zero_add] at enough
      rw [visit]
      split
      · next found => exact .found finished (.refl done) found
      · exact .cycle (trail.isCycle (trail.mem_of_full enough))
  | succ room ih =>
      intro done finished
      cases unfinished : Keyed.get? name done with
      | some schema =>
          rw [visit, unfinished]
          exact .found finished (.refl done) unfinished
      | none =>
          by_cases back : name ∈ stack
          · rw [visit, unfinished]
            simp only [if_pos back]
            exact .cycle (trail.isCycle back)
          · obtain ⟨d, declared, rfl, found⟩ := exists_definition (trail.defined name (by simp))
            rw [visit_eq found unfinished back]
            apply (outcome_visitFields ?_ (finished.push unfinished)).bind
            · intro fields done' finished' _ expand
              exact .found (finished'.insert declared back expand)
                (Keyed.extends_insert (finished'.apart d.name (by simp)) _)
                (Keyed.get?_insert_self _ _ _)
            · -- a reference is visited with the definition on the path and with less room
              intro f field r refers
              have defined := resolved d declared f field r refers
              apply ih (trail.push back ⟨d, declared, rfl, f, field, refers⟩ defined)
              rw [List.length_append, List.length_singleton]
              omega

theorem visitAll_cons (name : String) (rest : List String) (done : Keyed Schema) :
    visitAll definitions (name :: rest) done =
      (visit definitions definitions.length [] name done >>= fun visited =>
        (visitAll definitions rest visited.2).map ((name, visited.1) :: ·)) := rfl

/-- The definitions are visited one after the other, and each of them finds its schema; or one of
them finds a cycle. -/
theorem outcome_visitAll (resolved : Resolved definitions) {names : List String}
    (defined : ∀ name ∈ names, name ∈ definitions.map (·.name)) {done : Keyed Schema}
    (finished : Finished definitions [] done) :
    (∃ path, visitAll definitions names done = .error (.cycle path) ∧
      IsCycle (Refers definitions) path) ∨
    ∃ schemas done', visitAll definitions names done = .ok schemas ∧
      Finished definitions [] done' ∧ Keyed.Extends done done' ∧ Keyed.keys schemas = names ∧
      ∀ e ∈ schemas, Keyed.get? e.1 done' = some e.2 := by
  induction names generalizing done with
  | nil => exact Or.inr ⟨[], done, rfl, finished, .refl done, rfl, nofun⟩
  | cons name rest ih =>
      obtain ⟨here, later⟩ := List.forall_mem_cons.1 defined
      have visited := visits_visit resolved (Trail.start here)
        (Nat.le_add_right definitions.length _) done finished
      rw [visitAll_cons]
      generalize visit definitions definitions.length [] name done = result at visited ⊢
      cases visited with
      | cycle cycle => exact Or.inl ⟨_, rfl, cycle⟩
      | @found schema done' finished' more found =>
          rcases ih later finished' with ⟨path, failed, cycle⟩ |
            ⟨schemas, done'', visited, finished'', more', keys, each⟩
          · exact Or.inl ⟨path, congrArg (Except.map ((name, schema) :: ·)) failed, cycle⟩
          · refine Or.inr ⟨(name, schema) :: schemas, done'', ?_, finished'', more.trans more',
              congrArg (name :: ·) keys, List.forall_mem_cons.2 ⟨more' _ _ found, each⟩⟩
            exact congrArg (Except.map ((name, schema) :: ·)) visited

/-! ### Room -/

section

variable {visit visit' : String → Keyed Schema → Except SchemaError (Schema × Keyed Schema)}

theorem visitType_congr {type : FieldType}
    (same : ∀ r, type.reference? = some r → ∀ done, visit r done = visit' r done)
    (done : Keyed Schema) : visitType visit done type = visitType visit' done type := by
  cases type with
  | text | money | number | yesNo | oneOf => rfl
  | object d => exact same d rfl done
  | listOf d => rw [visitType, visitType, same d rfl done]

theorem visitFields_congr {fields : List Field}
    (same : ∀ f ∈ fields, ∀ r, f.type.reference? = some r → ∀ done, visit r done = visit' r done)
    (done : Keyed Schema) : visitFields visit fields done = visitFields visit' fields done := by
  induction fields generalizing done with
  | nil => rfl
  | cons f rest ih =>
      obtain ⟨here, later⟩ := List.forall_mem_cons.1 same
      simp only [visitFields, visitType_congr here, ih later]

end

/-- Visits are nested no more deeply than there are definitions: with more room a visit does the
same. -/
theorem visit_of_le (resolved : Resolved definitions) {room room' : Nat} {stack : List String}
    {name : String} (trail : Trail definitions stack name)
    (enough : definitions.length ≤ room + stack.length) (more : room ≤ room')
    (done : Keyed Schema) :
    visit definitions room' stack name done = visit definitions room stack name done := by
  induction room generalizing room' stack name done with
  | zero =>
      cases room' with
      | zero => rfl
      | succ room' =>
          rw [Nat.zero_add] at enough
          rw [visit, visit]
          simp only [if_pos (trail.mem_of_full enough)]
  | succ room ih =>
      obtain ⟨room', rfl⟩ := Nat.exists_eq_add_of_le' more
      cases unfinished : Keyed.get? name done with
      | some schema => rw [← Nat.add_assoc, visit, visit, unfinished]
      | none =>
          by_cases back : name ∈ stack
          · rw [← Nat.add_assoc, visit, visit, unfinished]
            simp only [if_pos back]
          · obtain ⟨d, declared, rfl, found⟩ := exists_definition (trail.defined name (by simp))
            rw [← Nat.add_assoc, visit_eq found unfinished back, visit_eq found unfinished back]
            congr 1
            apply visitFields_congr
            intro f field r refers done
            have defined := resolved d declared f field r refers
            apply ih (trail.push back ⟨d, declared, rfl, f, field, refers⟩ defined)
            · rw [List.length_append, List.length_singleton]
              omega
            · omega

end

end Schema

end RecordInference
