import Mathlib.Data.List.Sigma
import RecordInference.Proofs.Response.Place
import RecordInference.Proofs.Schema.Serialization

/-!
# Violations

The violations of a response are exactly its failing places: the declared fields that are missing,
and the parts that are not of the kind that their schema asks for (`violations_of_validate`). None
is reported twice, none is hidden by another one, and a response without failing places is accepted.

The check goes down the schema, so the violations at a place are those of its parts, each behind one
more turn (`mem_violations_check_iff`).
-/

set_option autoImplicit false

namespace RecordInference.Response

/-! ### Failing places -/

/-- Whether a value is of the kind that a schema asks for, whatever its parts are. -/
def Suits : Schema → Json → Prop
  | .text, v => ∃ s, v = .str s
  | .money, v => ∃ x, number? v = some x
  | .number, v => ∃ x, number? v = some x
  | .yesNo, v => ∃ b, yesNo? v = some b
  | .oneOf values, v => ∃ s ∈ values, v = .str s
  | .list _, v => ∃ elements, v = .arr elements
  | .object _ _, v => ∃ members, v = .obj members

/-- Whether a place fails: a field is missing there, or the part is not of the kind. -/
def Spot.Failing : Spot → Prop
  | .part schema v => ¬ Suits schema v
  | .absent _ => True

/-- What the schema asks for at a place. -/
def Spot.expected : Spot → String
  | .part schema _ => schema.describe
  | .absent schema => schema.describe

/-- What is there instead. -/
def Spot.actual : Spot → String
  | .part _ v => describe v
  | .absent _ => "missing"

/-- The violation that is reported of a failing place. -/
def Spot.violation (path : String) (spot : Spot) : Violation := ⟨path, spot.expected, spot.actual⟩

/-- A violation is that of a failing place of a value that stands behind the turns `above`. -/
def Reports (above : List Turn) (schema : Schema) (v : Json) (x : Violation) : Prop :=
  ∃ turns spot, Leads schema v turns spot ∧ spot.Failing ∧
    x = spot.violation (pathOf (above ++ turns))

/-- Nothing is inside of a part that is not of the kind that its schema asks for. -/
theorem Leads.eq_of_unsuited {schema : Schema} {v : Json} {turns : List Turn} {spot : Spot}
    (h : Leads schema v turns spot) (unsuited : ¬ Suits schema v) :
    turns = [] ∧ spot = .part schema v := by
  cases h with
  | here => exact ⟨rfl, rfl⟩
  | field | absent | item => exact absurd ⟨_, rfl⟩ unsuited

/-! ### Violations of a check -/

/-- The violations of an outcome. -/
def violations {α : Type} : Except (List Violation) α → List Violation
  | .ok _ => []
  | .error xs => xs

theorem violations_map {α β : Type} (f : α → β) (x : Except (List Violation) α) :
    violations (x.map f) = violations x := by
  cases x with
  | ok a => rfl
  | error xs => rfl

theorem violations_collect {α : Type} (first : Except (List Violation) α)
    (rest : Except (List Violation) (List α)) :
    violations (collect first rest) = violations first ++ violations rest := by
  cases first with
  | ok a =>
      cases rest with
      | ok as => rfl
      | error xs => rfl
  | error xs =>
      cases rest with
      | ok as => exact (List.append_nil xs).symm
      | error xs' => rfl

/-- The outcome at a declared field, which has the path. -/
def checkField (members : List (String × Json)) (path : String) (f : String × Schema) : Verdict :=
  match Keyed.get? f.1 members with
  | some v => check f.2 v path
  | none => .error [⟨path, f.2.describe, "missing"⟩]

theorem violations_checkFields (fields : List (String × Schema)) (members : List (String × Json))
    (path : String) : violations (checkFields fields members path) =
      fields.flatMap fun f => violations (checkField members (fieldPath path f.1) f) := by
  induction fields with
  | nil => rfl
  | cons f rest ih =>
      obtain ⟨name, schema⟩ := f
      rw [checkFields, violations_collect, violations_map, ih, List.flatMap_cons]
      rfl

theorem violations_checkItems (check : Json → String → Verdict) (path : String) (i : Nat)
    (items : List Json) : violations (checkItems check path i items) =
      (items.zipIdx i).flatMap fun e => violations (check e.1 (itemPath path e.2)) := by
  induction items generalizing i with
  | nil => rfl
  | cons v rest ih => rw [checkItems, violations_collect, ih, List.zipIdx_cons, List.flatMap_cons]

/-- A value that is not of the kind is the only violation. -/
theorem check_of_unsuited {schema : Schema} {v : Json} (unsuited : ¬ Suits schema v)
    (path : String) : check schema v path = .error [⟨path, schema.describe, describe v⟩] := by
  cases schema with
  | text =>
      simp only [check]
      split
      · next s => exact absurd ⟨s, rfl⟩ unsuited
      · rfl
  | money | number =>
      simp only [check]
      split
      · next x found => exact absurd ⟨x, found⟩ unsuited
      · rfl
  | yesNo =>
      simp only [check]
      split
      · next b found => exact absurd ⟨b, found⟩ unsuited
      · rfl
  | oneOf values =>
      simp only [check]
      split
      · next s =>
        split
        · next member => exact absurd ⟨s, member, rfl⟩ unsuited
        · rfl
      · rfl
  | list items =>
      simp only [check]
      split
      · next elements => exact absurd ⟨elements, rfl⟩ unsuited
      · rfl
  | object name fields =>
      simp only [check]
      split
      · next members => exact absurd ⟨members, rfl⟩ unsuited
      · rfl

/-- Whether a schema asks for a value without parts. -/
def IsAtomic : Schema → Prop
  | .list _ => False
  | .object _ _ => False
  | _ => True

/-- A value without parts that is of the kind is accepted. -/
theorem check_of_suits {schema : Schema} (atomic : IsAtomic schema) {v : Json}
    (suits : Suits schema v) (path : String) : ∃ t, check schema v path = .ok t := by
  cases schema with
  | text =>
      obtain ⟨s, rfl⟩ := suits
      exact ⟨.text s, rfl⟩
  | money =>
      obtain ⟨x, found⟩ := suits
      exact ⟨.money x, by simp only [check, found]⟩
  | number =>
      obtain ⟨x, found⟩ := suits
      exact ⟨.number x, by simp only [check, found]⟩
  | yesNo =>
      obtain ⟨b, found⟩ := suits
      exact ⟨.yesNo b, by simp only [check, found]⟩
  | oneOf values =>
      obtain ⟨s, member, rfl⟩ := suits
      exact ⟨.oneOf s, by simp only [check, if_pos member]⟩
  | list | object => exact atomic.elim

theorem violations_of_suits {schema : Schema} (atomic : IsAtomic schema) {v : Json}
    (suits : Suits schema v) (path : String) : violations (check schema v path) = [] := by
  obtain ⟨t, accepted⟩ := check_of_suits atomic suits path
  rw [accepted, violations]

/-- What holds of checks follows the schema wherever the value is of the kind that is asked for. -/
@[elab_as_elim]
theorem check_induction {motive : Schema → Json → Prop}
    (unsuited : ∀ schema v, ¬ Suits schema v → motive schema v)
    (atomic : ∀ schema v, IsAtomic schema → Suits schema v → motive schema v)
    (list : ∀ items elements, (∀ v, motive items v) → motive (.list items) (.arr elements))
    (object : ∀ name fields members, (∀ f ∈ fields, ∀ v, motive f.2 v) →
      motive (.object name fields) (.obj members))
    (schema : Schema) (v : Json) : motive schema v := by
  by_cases suits : Suits schema v
  swap
  · exact unsuited schema v suits
  -- a value of the kind is taken apart as the schema is
  induction schema using Schema.induction generalizing v with
  | text | money | number | yesNo | oneOf => exact atomic _ v trivial suits
  | list items ih =>
      obtain ⟨elements, rfl⟩ := suits
      refine list items elements fun v => ?_
      by_cases suits : Suits items v
      · exact ih v suits
      · exact unsuited items v suits
  | object name fields ih =>
      obtain ⟨members, rfl⟩ := suits
      refine object name fields members fun f declared v => ?_
      by_cases suits : Suits f.2 v
      · exact ih f declared v suits
      · exact unsuited f.2 v suits

section

variable {schema : Schema} {v : Json} {above : List Turn} {x : Violation}

theorem reports_of_unsuited (unsuited : ¬ Suits schema v) :
    Reports above schema v x ↔ x = ⟨pathOf above, schema.describe, describe v⟩ := by
  constructor
  · rintro ⟨turns, spot, leads, failing, rfl⟩
    obtain ⟨rfl, rfl⟩ := leads.eq_of_unsuited unsuited
    rw [List.append_nil]
    rfl
  · rintro rfl
    refine ⟨[], .part schema v, .here schema v, unsuited, ?_⟩
    rw [List.append_nil]
    rfl

theorem not_reports_of_suits (atomic : IsAtomic schema) (suits : Suits schema v) :
    ¬ Reports above schema v x := by
  rintro ⟨turns, spot, leads, failing, -⟩
  cases leads with
  | here => exact failing suits
  | field | absent | item => exact atomic

/-- A list fails where one of its elements does. -/
theorem reports_list_iff {items : Schema} {elements : List Json} :
    Reports above (.list items) (.arr elements) x ↔
      ∃ i v, elements[i]? = some v ∧ Reports (above ++ [.item i]) items v x := by
  constructor
  · rintro ⟨turns, spot, leads, failing, told⟩
    cases leads with
    | here => exact absurd ⟨elements, rfl⟩ failing
    | @item _ _ i v rest _ found later =>
        refine ⟨i, v, found, rest, spot, later, failing, ?_⟩
        rw [told, List.append_assoc, List.singleton_append]
  · rintro ⟨i, v, found, turns, spot, leads, failing, told⟩
    refine ⟨.item i :: turns, spot, .item found leads, failing, ?_⟩
    rw [told, List.append_assoc, List.singleton_append]

/-- An object fails where one of the declared fields does, or is missing. -/
theorem reports_object_iff {name : String} {fields : List (String × Schema)}
    {members : List (String × Json)} :
    Reports above (.object name fields) (.obj members) x ↔
      ∃ f ∈ fields,
        (∃ v, Keyed.get? f.1 members = some v ∧ Reports (above ++ [.field f.1]) f.2 v x) ∨
        (Keyed.get? f.1 members = none ∧
          x = ⟨pathOf (above ++ [.field f.1]), f.2.describe, "missing"⟩) := by
  constructor
  · rintro ⟨turns, spot, leads, failing, told⟩
    cases leads with
    | here => exact absurd ⟨members, rfl⟩ failing
    | @field _ name _ _ schema v rest _ declared found later =>
        refine ⟨(name, schema), declared, Or.inl ⟨v, found, rest, spot, later, failing, ?_⟩⟩
        rw [told, List.append_assoc, List.singleton_append]
    | @absent _ name _ _ schema declared missing =>
        exact ⟨(name, schema), declared, Or.inr ⟨missing, told⟩⟩
  · rintro ⟨⟨name, schema⟩, declared, inside | ⟨missing, told⟩⟩
    · obtain ⟨v, found, turns, spot, leads, failing, told⟩ := inside
      refine ⟨.field name :: turns, spot, .field declared found leads, failing, ?_⟩
      rw [told, List.append_assoc, List.singleton_append]
    · exact ⟨[.field name], .absent schema, .absent declared missing, trivial, told⟩

end

/-- The violations of a list are those of its elements. -/
theorem violations_list (items : Schema) (elements : List Json) (above : List Turn) :
    violations (check (.list items) (.arr elements) (pathOf above)) =
      elements.zipIdx.flatMap fun e =>
        violations (check items e.1 (pathOf (above ++ [.item e.2]))) := by
  simp only [check, violations_map, violations_checkItems, pathOf_concat, turnPath]

/-- The violations of an object are those of its declared fields. -/
theorem violations_object (name : String) (fields : List (String × Schema))
    (members : List (String × Json)) (above : List Turn) :
    violations (check (.object name fields) (.obj members) (pathOf above)) =
      fields.flatMap fun f =>
        violations (checkField members (pathOf (above ++ [.field f.1])) f) := by
  simp only [check, violations_map, violations_checkFields, pathOf_concat, turnPath]

/-- What is told of a declared field. -/
theorem mem_violations_checkField_iff {members : List (String × Json)} {above : List Turn}
    {f : String × Schema} {x : Violation}
    (inner : ∀ v, x ∈ violations (check f.2 v (pathOf above)) ↔ Reports above f.2 v x) :
    x ∈ violations (checkField members (pathOf above) f) ↔
      (∃ v, Keyed.get? f.1 members = some v ∧ Reports above f.2 v x) ∨
      (Keyed.get? f.1 members = none ∧ x = ⟨pathOf above, f.2.describe, "missing"⟩) := by
  rw [checkField]
  cases Keyed.get? f.1 members with
  | some v => simp [inner]
  | none => simp [violations]

/-- The violations of a check report the failing places and no others. -/
theorem mem_violations_check_iff {schema : Schema} {v : Json} {above : List Turn} {x : Violation} :
    x ∈ violations (check schema v (pathOf above)) ↔ Reports above schema v x := by
  induction schema, v using check_induction generalizing above with
  | unsuited schema v unsuited =>
      rw [check_of_unsuited unsuited, reports_of_unsuited unsuited]
      exact List.mem_singleton
  | atomic schema v atomic suits =>
      rw [violations_of_suits atomic suits]
      exact iff_of_false List.not_mem_nil (not_reports_of_suits atomic suits)
  | list items elements ih =>
      rw [violations_list, reports_list_iff, List.mem_flatMap]
      constructor
      · rintro ⟨⟨v, i⟩, member, inside⟩
        exact ⟨i, v, List.mem_zipIdx_iff_getElem?.1 member, (ih v).1 inside⟩
      · rintro ⟨i, v, found, reports⟩
        exact ⟨(v, i), List.mem_zipIdx_iff_getElem?.2 found, (ih v).2 reports⟩
  | object name fields members ih =>
      rw [violations_object, reports_object_iff, List.mem_flatMap]
      refine exists_congr fun f => and_congr_right fun declared => ?_
      exact mem_violations_checkField_iff fun v => ih f declared v

/-! ### No place is reported twice -/

/-- The paths of violations are those of places behind the turns `above`. -/
def Behind (above : List Turn) (xs : List Violation) : Prop :=
  ∀ x ∈ xs, ∃ turns, Named (above ++ turns) ∧ x.path = pathOf (above ++ turns)

theorem Behind.disjoint {above : List Turn} {turn turn' : Turn} {xs ys : List Violation}
    (differ : turn ≠ turn') (left : Behind (above ++ [turn]) xs)
    (right : Behind (above ++ [turn']) ys) :
    List.Disjoint (xs.map (·.path)) (ys.map (·.path)) := by
  intro path first second
  obtain ⟨x, inside, rfl⟩ := List.mem_map.1 first
  obtain ⟨y, inside', same⟩ := List.mem_map.1 second
  obtain ⟨turns, named, path⟩ := left x inside
  obtain ⟨turns', named', path'⟩ := right y inside'
  rw [path, path'] at same
  -- a path leads to one place only, so both would take the same turn
  have turns := pathOf_inj named' named same
  rw [List.append_assoc, List.append_assoc, List.append_cancel_left_eq] at turns
  exact differ (List.cons.inj turns).1.symm

section

variable {schema : Schema} {above : List Turn}

theorem behind_violations_check (named : schema.Named) (reached : Named above) (v : Json) :
    Behind above (violations (check schema v (pathOf above))) := by
  intro x member
  obtain ⟨turns, spot, leads, -, rfl⟩ := mem_violations_check_iff.1 member
  exact ⟨turns, named_append_iff.2 ⟨reached, leads.named named⟩, rfl⟩

/-- Violations behind different turns have different paths. -/
theorem nodup_paths_flatMap {α : Type} {items : List α} {turn : α → Turn}
    {xs : α → List Violation}
    (differ : items.Pairwise fun a b => turn a ≠ turn b)
    (behind : ∀ a ∈ items, Behind (above ++ [turn a]) (xs a))
    (apart : ∀ a ∈ items, ((xs a).map (·.path)).Nodup) :
    ((items.flatMap xs).map (·.path)).Nodup := by
  rw [List.map_flatMap, List.nodup_flatMap]
  refine ⟨apart, differ.imp_of_mem ?_⟩
  intro a b inside inside' differ
  exact Behind.disjoint differ (behind a inside) (behind b inside')

theorem behind_violations_checkField {f : String × Schema} (named : f.2.Named)
    (reached : Named above) (members : List (String × Json)) :
    Behind above (violations (checkField members (pathOf above) f)) := by
  rw [checkField]
  cases Keyed.get? f.1 members with
  | some v => exact behind_violations_check named reached v
  | none =>
      intro x member
      refine ⟨[], named_append_iff.2 ⟨reached, nofun⟩, ?_⟩
      rw [List.mem_singleton.1 member, List.append_nil]

/-- No two violations of a check have the same path. -/
theorem nodup_paths_check (distinct : schema.Distinct) (named : schema.Named)
    (reached : Named above) (v : Json) :
    ((violations (check schema v (pathOf above))).map (·.path)).Nodup := by
  induction schema, v using check_induction generalizing above with
  | unsuited schema v unsuited =>
      rw [check_of_unsuited unsuited]
      exact List.nodup_singleton _
  | atomic schema v atomic suits =>
      rw [violations_of_suits atomic suits]
      exact List.nodup_nil
  | list items elements ih =>
      rw [Schema.Named] at named
      have inner : ∀ i : Nat, Named (above ++ [.item i]) := fun i =>
        named_append_iff.2 ⟨reached, named_cons_iff.2 ⟨nofun, nofun⟩⟩
      -- elements have different indices
      have indices : elements.zipIdx.Pairwise fun e e' => Turn.item e.2 ≠ Turn.item e'.2 := by
        have distinct := List.nodup_zipIdx_map_snd elements
        rw [List.Nodup, List.pairwise_map] at distinct
        apply distinct.imp
        intro e e' differ same
        exact differ (Turn.item.inj same)
      have behind : ∀ e ∈ elements.zipIdx, Behind (above ++ [.item e.2])
          (violations (check items e.1 (pathOf (above ++ [.item e.2])))) := fun e _ =>
        behind_violations_check named (inner e.2) e.1
      rw [violations_list]
      exact nodup_paths_flatMap indices behind fun e _ => ih e.1 distinct named (inner e.2)
  | object name fields members ih =>
      obtain ⟨names, distinct⟩ := distinct
      rw [Schema.fieldsDistinct_iff] at distinct
      replace named := Schema.fieldsNamed_iff.1 named
      have inner : ∀ f ∈ fields, Named (above ++ [.field f.1]) := by
        intro f declared
        refine named_append_iff.2 ⟨reached, named_cons_iff.2 ⟨?_, nofun⟩⟩
        rintro _ ⟨⟩
        exact (named f declared).1
      -- fields have different names
      have turns : fields.Pairwise fun f f' => Turn.field f.1 ≠ Turn.field f'.1 := by
        rw [Keyed.keys, List.Nodup, List.pairwise_map] at names
        apply names.imp
        intro f f' differ same
        exact differ (Turn.field.inj same)
      have behind : ∀ f ∈ fields, Behind (above ++ [.field f.1])
          (violations (checkField members (pathOf (above ++ [.field f.1])) f)) := fun f declared =>
        behind_violations_checkField (named f declared).2 (inner f declared) members
      rw [violations_object]
      apply nodup_paths_flatMap turns behind
      intro f declared
      rw [checkField]
      cases Keyed.get? f.1 members with
      | some v =>
          exact ih f declared v (distinct f declared) (named f declared).2 (inner f declared)
      | none => exact List.nodup_singleton _

end

/-! ### A check that fails tells why -/

theorem collect_ne_error_nil {α : Type} {first : Except (List Violation) α}
    {rest : Except (List Violation) (List α)} (told : first ≠ .error [])
    (told' : rest ≠ .error []) : collect first rest ≠ .error [] := by
  intro same
  cases first with
  | ok a =>
      cases rest with
      | ok as => cases same
      | error xs => exact told' (congrArg Except.error (Except.error.inj same))
  | error xs =>
      apply told
      -- nothing comes of both only if nothing comes of the first
      cases rest with
      | ok as => exact congrArg Except.error (Except.error.inj same)
      | error xs' =>
          exact congrArg Except.error (List.append_eq_nil_iff.1 (Except.error.inj same)).1

theorem map_ne_error_nil {α β : Type} {x : Except (List Violation) α} (told : x ≠ .error [])
    (f : α → β) : x.map f ≠ .error [] := by
  cases x with
  | ok a => exact nofun
  | error xs => exact fun same => told (congrArg Except.error (Except.error.inj same))

theorem checkItems_ne_error_nil {check : Json → String → Verdict}
    (told : ∀ v path, check v path ≠ .error []) (path : String) (i : Nat) (items : List Json) :
    checkItems check path i items ≠ .error [] := by
  induction items generalizing i with
  | nil => exact nofun
  | cons v rest ih => exact collect_ne_error_nil (told v _) (ih (i + 1))

theorem checkFields_ne_error_nil {fields : List (String × Schema)}
    (told : ∀ f ∈ fields, ∀ v path, check f.2 v path ≠ .error []) (members : List (String × Json))
    (path : String) : checkFields fields members path ≠ .error [] := by
  induction fields with
  | nil => exact nofun
  | cons f rest ih =>
      obtain ⟨inner, others⟩ := List.forall_mem_cons.1 told
      refine collect_ne_error_nil (map_ne_error_nil ?_ _) (ih others)
      cases Keyed.get? f.1 members with
      | some v => exact inner v _
      | none => exact nofun

/-- A check that fails has a violation. -/
theorem check_ne_error_nil (schema : Schema) (v : Json) (path : String) :
    check schema v path ≠ .error [] := by
  induction schema, v using check_induction generalizing path with
  | unsuited schema v unsuited =>
      rw [check_of_unsuited unsuited]
      exact nofun
  | atomic schema v atomic suits =>
      obtain ⟨t, accepted⟩ := check_of_suits atomic suits path
      rw [accepted]
      exact nofun
  | list items elements ih => exact map_ne_error_nil (checkItems_ne_error_nil ih path 0 elements) _
  | object name fields members ih =>
      exact map_ne_error_nil (checkFields_ne_error_nil ih members path) _

/-! ### Violations of a response -/

/-- One thing stands at a place. -/
theorem Leads.unique {schema : Schema} {v : Json} {turns : List Turn} {spot spot' : Spot}
    (h : Leads schema v turns spot) (h' : Leads schema v turns spot') (distinct : schema.Distinct) :
    spot' = spot := by
  induction h with
  | here =>
      cases h'
      rfl
  | field declared found later ih =>
      have inside := Schema.fieldsDistinct_iff.1 distinct.2
      cases h' with
      | field declared' found' later' =>
          cases Keyed.eq_of_mem distinct.1 declared declared'
          cases found.symm.trans found'
          exact ih later' (inside _ declared)
      | absent declared' missing' => cases found.symm.trans missing'
  | absent declared missing =>
      cases h' with
      | field declared' found' later' => cases found'.symm.trans missing
      | absent declared' missing' => rw [Keyed.eq_of_mem distinct.1 declared declared']
  | item found later ih =>
      cases h' with
      | item found' later' =>
          cases found.symm.trans found'
          exact ih later' distinct

/-- The violations of a response are its failing places, each of them reported once under its own
path and with what is expected and found there; a response without failing places is accepted. -/
theorem violations_of_validate {schema : Schema} (distinct : schema.Distinct)
    (named : schema.Named) (v : Json) :
    (∀ xs, validate schema v = .error xs →
      xs ≠ [] ∧ (xs.map (·.path)).Nodup ∧
      (∀ x ∈ xs, ∃ turns spot, Leads schema v turns spot ∧ spot.Failing ∧
        x = spot.violation (pathOf turns) ∧
        ∀ turns' spot', Leads schema v turns' spot' → pathOf turns' = x.path →
          turns' = turns ∧ spot' = spot) ∧
      ∀ turns spot, Leads schema v turns spot → spot.Failing → spot.violation (pathOf turns) ∈ xs) ∧
    ((∃ t, validate schema v = .ok t) ↔
      ∀ turns spot, Leads schema v turns spot → ¬ spot.Failing) := by
  have reached : Named [] := nofun
  have listed : ∀ x, x ∈ violations (validate schema v) ↔ Reports [] schema v x := by
    intro x
    change x ∈ violations (check schema v (pathOf [])) ↔ _
    exact mem_violations_check_iff
  have apart : ((violations (validate schema v)).map (·.path)).Nodup :=
    nodup_paths_check distinct named reached v
  have told : validate schema v ≠ .error [] := check_ne_error_nil schema v rootPath
  constructor
  · intro xs refused
    rw [refused] at listed apart told
    refine ⟨fun none => told (congrArg Except.error none), apart, ?_, ?_⟩
    · intro x member
      obtain ⟨turns, spot, leads, failing, report⟩ := (listed x).1 member
      refine ⟨turns, spot, leads, failing, report, ?_⟩
      -- no other place has this path, and one thing stands at a place
      intro turns' spot' leads' path
      rw [report] at path
      have same : turns' = turns := pathOf_inj (leads'.named named) (leads.named named) path
      subst same
      exact ⟨rfl, leads.unique leads' distinct⟩
    · intro turns spot leads failing
      exact (listed _).2 ⟨turns, spot, leads, failing, rfl⟩
  · constructor
    · rintro ⟨t, accepted⟩ turns spot leads failing
      rw [accepted] at listed
      exact absurd ((listed _).2 ⟨turns, spot, leads, failing, rfl⟩) List.not_mem_nil
    · intro sound
      cases outcome : validate schema v with
      | ok t => exact ⟨t, rfl⟩
      | error xs =>
          -- a check that fails has a violation, which is at a failing place
          rw [outcome] at listed told
          obtain ⟨x, member⟩ := List.exists_mem_of_ne_nil xs fun none =>
            told (congrArg Except.error none)
          obtain ⟨turns, spot, leads, failing, -⟩ := (listed x).1 member
          exact absurd failing (sound turns spot leads)

/-- An order of two lines, of which the first is not paid in a way that can be read and the second
has no item: both are told, each of its own line. -/
theorem violations_of_validate_order :
    let line : Schema := .object "line" [("item", .text), ("paid", .yesNo)]
    let order : Schema := .object "order" [("lines", .list line)]
    let response : Json := .obj [("lines", .arr
      [.obj [("item", .str "pen"), ("paid", .null)], .obj [("paid", .bool true)]])]
    let xs : List Violation :=
      [⟨"lines[0].paid", "yes/no", "null"⟩, ⟨"lines[1].item", "text", "missing"⟩]
    order.Distinct ∧ order.Named ∧ validate order response = .error xs ∧
      (∀ turns spot, Leads order response turns spot → spot.Failing →
        spot.violation (pathOf turns) ∈ xs) ∧
      ¬ ∃ t, validate order response = .ok t := by
  intro line order response xs
  have distinct : order.Distinct := by
    simp [order, line, Schema.Distinct, Schema.FieldsDistinct, Keyed.keys]
  have named : order.Named := by
    simp only [order, line, Schema.Named, Schema.FieldsNamed]
    decide
  have refused : validate order response = .error xs := rfl
  obtain ⟨told, -⟩ := violations_of_validate distinct named response
  obtain ⟨-, -, -, complete⟩ := told xs refused
  refine ⟨distinct, named, refused, complete, ?_⟩
  rintro ⟨t, accepted⟩
  cases refused.symm.trans accepted

end RecordInference.Response
