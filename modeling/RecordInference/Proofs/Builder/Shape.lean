import RecordInference.Builder.Shape
import RecordInference.Proofs.Outcome
import RecordInference.Proofs.Schema.Order

/-!
# Shapes that calls build

A shape comes from calls that take shapes which come from calls in turn (`Shape.Built`). Its
definitions are each behind those it refers to, its own the last of them (`Built.backward`). A shape
under construction keeps this of what it depends on whether or not there is a misuse: a definition
that is in conflict with another one is left out, but then its name is there already
(`withDefinition`).
-/

set_option autoImplicit false

namespace RecordInference

/-- Once there is a misuse, there stays one. -/
theorem BuildError.first_ne_none (seen : Option BuildError) (e : BuildError) :
    first seen e ≠ none := by
  cases seen with
  | none => nofun
  | some earlier => nofun

namespace Shape

/-- The shape that a call hands over. -/
def Call.shape? : Call → Option Shape
  | .object _ shape => some shape
  | .listOf _ shape => some shape
  | _ => none

/-- The shapes that come from calls, with all shapes that the calls hand over. The shapes of
documents are among them (`built_of_ofDocument`). -/
inductive Built : Shape → Prop
  | calls {name : String} {calls : List Call} {shape : Shape}
      (parts : ∀ call ∈ calls, ∀ part, call.shape? = some part → Built part)
      (build : Shape.build name calls = .ok shape) : Built shape

/-! ### Definitions that are put together -/

/-- Definitions with one more, unless its name is there already. -/
def withDefinition (ds : List Definition) (d : Definition) : List Definition :=
  if d.name ∈ ds.map (·.name) then ds else ds ++ [d]

section

variable {ds es : List Definition} {d : Definition}

/-- A definition is added, or there is one of its name. -/
theorem addDefinition_cases (ds : List Definition) (d : Definition) :
    addDefinition ds d = .ok (withDefinition ds d) ∨
      (∃ e, addDefinition ds d = .error e) ∧ withDefinition ds d = ds := by
  rw [addDefinition, withDefinition]
  cases found : ds.find? fun e => e.name = d.name with
  | none =>
      have new : d.name ∉ ds.map (·.name) := by
        rw [List.mem_map]
        rintro ⟨e, member, same⟩
        have other := List.find?_eq_none.1 found e member
        simp [same] at other
      rw [if_neg new]
      exact Or.inl rfl
  | some e =>
      have same : e.name = d.name := by simpa using List.find?_some found
      have old : d.name ∈ ds.map (·.name) :=
        List.mem_map.2 ⟨e, List.mem_of_find?_eq_some found, same⟩
      rw [if_pos old]
      dsimp only
      split
      · exact Or.inl rfl
      · exact Or.inr ⟨⟨_, rfl⟩, rfl⟩

theorem eq_of_addDefinition (h : addDefinition ds d = .ok es) : es = withDefinition ds d := by
  rcases addDefinition_cases ds d with ok | ⟨⟨e, failed⟩, -⟩
  · rw [ok] at h
    exact (Except.ok.inj h).symm
  · rw [failed] at h
    cases h

theorem subset_withDefinition (ds : List Definition) (d : Definition) :
    ds ⊆ withDefinition ds d := by
  rw [withDefinition]
  split
  · exact List.Subset.refl ds
  · exact List.subset_append_left ds [d]

theorem mem_withDefinition (ds : List Definition) (d : Definition) :
    d.name ∈ (withDefinition ds d).map (·.name) := by
  rw [withDefinition]
  split
  · next old => exact old
  · simp

theorem nodup_withDefinition (h : (ds.map (·.name)).Nodup) :
    ((withDefinition ds d).map (·.name)).Nodup := by
  rw [withDefinition]
  split
  · exact h
  · next new =>
    rw [List.map_append, List.map_singleton, ← List.concat_eq_append]
    exact .concat new h

theorem forall_mem_withDefinition {P : Definition → Prop} (each : ∀ e ∈ ds, P e) (last : P d) :
    ∀ e ∈ withDefinition ds d, P e := by
  rw [withDefinition]
  split
  · exact each
  · exact List.forall_mem_append.2 ⟨each, List.forall_mem_singleton.2 last⟩

theorem backward_withDefinition (h : Backward ds) (resolved : d.Resolved (ds.map (·.name))) :
    Backward (withDefinition ds d) := by
  rw [withDefinition]
  split
  · exact h
  · exact backward_concat_iff.2 ⟨h, resolved⟩

/-- Definitions that are put together are each behind those it refers to, if this is so on both
sides. -/
theorem backward_foldl (h : Backward ds) (more : Backward es) :
    Backward (es.foldl withDefinition ds) ∧ ds ⊆ es.foldl withDefinition ds ∧
      es.map (·.name) ⊆ (es.foldl withDefinition ds).map (·.name) := by
  induction es using List.reverseRecOn with
  | nil => exact ⟨h, List.Subset.refl ds, List.nil_subset _⟩
  | append_singleton es d ih =>
      obtain ⟨others, resolved⟩ := backward_concat_iff.1 more
      obtain ⟨backward, kept, names⟩ := ih others
      rw [List.foldl_append, List.foldl_cons, List.foldl_nil, List.map_append, List.map_singleton]
      -- what the last definition refers to is among the others, and these are there already
      refine ⟨backward_withDefinition backward (resolved.mono names),
        List.Subset.trans kept (subset_withDefinition _ d), List.append_subset.2 ⟨?_, ?_⟩⟩
      · exact List.Subset.trans names (List.map_subset _ (subset_withDefinition _ d))
      · exact List.cons_subset.2 ⟨mem_withDefinition _ d, List.nil_subset _⟩

theorem nodup_foldl (h : (ds.map (·.name)).Nodup) :
    ((es.foldl withDefinition ds).map (·.name)).Nodup := by
  induction es generalizing ds with
  | nil => exact h
  | cons d rest ih => exact ih (nodup_withDefinition h)

end

/-! ### Shapes under construction -/

namespace Draft

variable {d : Draft}

/-- Whether the dependencies of a draft are each behind those it refers to, and the fields refer to
dependencies. -/
structure Sound (d : Draft) : Prop where
  dependencies : Backward d.dependencies
  fields : ∀ f ∈ d.fields, f.Resolved (d.dependencies.map (·.name))

theorem sound_new (name : String) : (new name).Sound := by
  rw [new]
  split
  · exact ⟨.nil, List.forall_mem_nil _⟩
  · exact ⟨.nil, List.forall_mem_nil _⟩

theorem Sound.fail (h : d.Sound) (e : BuildError) : (d.fail e).Sound := ⟨h.dependencies, h.fields⟩

theorem field_eq (d : Draft) (name : String) (type : FieldType) :
    (d.field name type).fields = d.fields ++ [⟨name, type, 0⟩] ∧
      (d.field name type).dependencies = d.dependencies := by
  refine ⟨rfl, ?_⟩
  simp only [field]
  split
  · rfl
  · split
    · rfl
    · rfl

theorem Sound.field (h : d.Sound) (name : String) {type : FieldType}
    (known : ∀ r, type.reference? = some r → r ∈ d.dependencies.map (·.name)) :
    (d.field name type).Sound := by
  obtain ⟨fields, dependencies⟩ := field_eq d name type
  constructor
  · rw [dependencies]
    exact h.dependencies
  · rw [dependencies, fields, List.forall_mem_append, List.forall_mem_singleton]
    exact ⟨h.fields, known⟩

/-- What a draft depends on grows in the same way with a misuse and without one. -/
theorem addDependency_eq (d : Draft) (e : Definition) :
    (d.addDependency e).fields = d.fields ∧
      (d.addDependency e).dependencies = withDefinition d.dependencies e := by
  rw [addDependency]
  rcases addDefinition_cases d.dependencies e with ok | ⟨⟨fault, failed⟩, same⟩
  · rw [ok]
    exact ⟨rfl, rfl⟩
  · rw [failed, same]
    exact ⟨rfl, rfl⟩

theorem dependOn_eq (d : Draft) (shape : Shape) : (d.dependOn shape).fields = d.fields ∧
    (d.dependOn shape).dependencies = shape.definitions.foldl withDefinition d.dependencies := by
  rw [dependOn]
  induction shape.definitions generalizing d with
  | nil => exact ⟨rfl, rfl⟩
  | cons e rest ih =>
      obtain ⟨fields, dependencies⟩ := addDependency_eq d e
      obtain ⟨fields', dependencies'⟩ := ih (d.addDependency e)
      rw [List.foldl_cons, List.foldl_cons]
      exact ⟨fields'.trans fields, dependencies'.trans (by rw [dependencies])⟩

/-- A field may refer to a shape once the draft depends on it. -/
theorem Sound.dependOn (h : d.Sound) {shape : Shape} (part : Backward shape.definitions) :
    (d.dependOn shape).Sound ∧
      shape.definition.name ∈ (d.dependOn shape).dependencies.map (·.name) := by
  obtain ⟨fields, dependencies⟩ := dependOn_eq d shape
  obtain ⟨backward, kept, names⟩ := backward_foldl h.dependencies part
  rw [← dependencies] at backward kept names
  refine ⟨⟨backward, ?_⟩, names (List.mem_map_of_mem (by simp [definitions]))⟩
  rw [fields]
  exact fun f member r refers => List.map_subset _ kept (h.fields f member r refers)

theorem Sound.call (h : d.Sound) {call : Call}
    (parts : ∀ part, call.shape? = some part → Backward part.definitions) :
    (d.call call).Sound := by
  cases call with
  | text name | money name | number name | yesNo name => exact h.field name nofun
  | oneOf name values =>
      rw [Draft.call]
      split
      · exact h.field name nofun
      · exact h.fail _
  | object name shape =>
      obtain ⟨sound, known⟩ := h.dependOn (parts shape rfl)
      refine sound.field name fun r refers => ?_
      cases refers
      exact known
  | listOf name shape =>
      obtain ⟨sound, known⟩ := h.dependOn (parts shape rfl)
      refine sound.field name fun r refers => ?_
      cases refers
      exact known

theorem Sound.foldl (h : d.Sound) {calls : List Call}
    (parts : ∀ call ∈ calls, ∀ part, call.shape? = some part → Backward part.definitions) :
    (calls.foldl Draft.call d).Sound := by
  apply List.foldlRecOn calls Draft.call h
  intro d kept call member
  exact kept.call (parts call member)

theorem Sound.backward_of_build (h : d.Sound) {shape : Shape} (built : d.build = .ok shape) :
    Backward shape.definitions := by
  rw [build] at built
  split at built
  · cases built
  · cases built
    exact backward_concat_iff.2 ⟨h.dependencies, h.fields⟩

end Draft

/-! ### Shapes -/

/-- The definitions of a shape that comes from calls are each behind those it refers to. -/
theorem Built.backward {shape : Shape} (h : shape.Built) : Backward shape.definitions := by
  induction h with
  | @calls name calls shape parts build ih =>
      -- the draft keeps to the order under every call, since the shapes handed over do
      exact ((Draft.sound_new name).foldl ih).backward_of_build build

/-- A document stands for calls that hand no shapes over. -/
theorem shape?_of_callsOf {entries : List (String × FieldEntry)} {calls : List Call}
    (h : callsOf entries = .ok calls) : ∀ call ∈ calls, call.shape? = none := by
  induction entries generalizing calls with
  | nil =>
      cases h
      exact List.forall_mem_nil _
  | cons entry rest ih =>
      obtain ⟨name, entry⟩ := entry
      obtain ⟨call, first, h⟩ := Except.bind_eq_ok_iff.1 h
      obtain ⟨others, later, h⟩ := Except.bind_eq_ok_iff.1 h
      cases h
      refine List.forall_mem_cons.2 ⟨?_, ih later⟩
      cases entry with
      | values values =>
          cases first
          rfl
      | word type =>
          simp only [callOf] at first
          split_ifs at first <;> cases first <;> rfl

theorem built_of_ofDocument {text : String} {shape : Shape} (h : ofDocument text = .ok shape) :
    shape.Built := by
  simp only [ofDocument] at h
  split at h
  · cases h
  · split at h
    · cases h
    · next name entries _ =>
      obtain ⟨calls, called, build⟩ := Except.bind_eq_ok_iff.1 h
      refine .calls (fun call member part hands => ?_) build
      rw [shape?_of_callsOf called call member] at hands
      cases hands

end Shape

end RecordInference
