import RecordInference.Proofs.Outcome
import RecordInference.Response.Validation

/-!
# Members that are not declared

The check of a response passes over the members of objects that its schema does not declare, and it
does so at every depth: two values that are equal once these members are taken out have the same
outcome (`validate_of_pruned`), whether they are accepted or not. So no violation tells anything of
such a member, not even the violations of the values around it.

A name may be declared twice. Then there are several shapes at the same place of a value, and a
member is left there as long as one of them declares it (`Json.pruned`).
-/

set_option autoImplicit false

namespace RecordInference

/-! ### Taking members out -/

namespace Schema

/-- The shape of the elements of a list. -/
def items? : Schema → Option Schema
  | list items => some items
  | _ => none

/-- Whether a shape is that of an object. -/
def isObject : Schema → Bool
  | object _ _ => true
  | _ => false

/-- The fields that a shape declares. -/
def fields : Schema → List (String × Schema)
  | object _ fields => fields
  | _ => []

/-- The shapes that shapes together declare for a name. -/
def declared (name : String) (shapes : List Schema) : List Schema :=
  ((shapes.flatMap fields).filter fun f => f.1 = name).map (·.2)

/-- Whether a member is left where the shapes stand: one of them declares it, or none of them is
that of an object. -/
def keeps (name : String) (shapes : List Schema) : Bool :=
  !(declared name shapes).isEmpty || !shapes.any isObject

end Schema

namespace Json

mutual

/-- A value without the members that no shape of an object declares at their place, for the shapes
that stand at the place of the value. -/
def pruned (shapes : List Schema) : Json → Json
  | .arr items => .arr (prunedItems (shapes.filterMap Schema.items?) items)
  | .obj members => .obj (prunedMembers shapes members)
  | v => v

/-- The elements, each without the members that are not declared. -/
def prunedItems (shapes : List Schema) : List Json → List Json
  | [] => []
  | v :: rest => pruned shapes v :: prunedItems shapes rest

/-- The members that are declared, each without those inside of it that are not. -/
def prunedMembers (shapes : List Schema) : List (String × Json) → List (String × Json)
  | [] => []
  | (name, v) :: rest =>
    if Schema.keeps name shapes then
      (name, pruned (Schema.declared name shapes) v) :: prunedMembers shapes rest
    else prunedMembers shapes rest

end

/-- The values that are equal when their objects are read as maps. -/
inductive Equal : Json → Json → Prop
  | null : Equal .null .null
  | bool (b : Bool) : Equal (.bool b) (.bool b)
  | int (i : Int) : Equal (.int i) (.int i)
  | float (x : Float) : Equal (.float x) (.float x)
  | str (s : String) : Equal (.str s) (.str s)
  | arr {vs ws : List Json} (each : List.Forall₂ Equal vs ws) : Equal (.arr vs) (.arr ws)
  | obj {ms ns : List (String × Json)}
      (each : ∀ name, Option.Rel Equal (Keyed.get? name ms) (Keyed.get? name ns)) :
      Equal (.obj ms) (.obj ns)

theorem Equal.refl (v : Json) : Equal v v := by
  induction v using Json.induction with
  | null => exact .null
  | bool b => exact .bool b
  | int i => exact .int i
  | float x => exact .float x
  | str s => exact .str s
  | arr items ih => exact .arr (List.forall₂_same.2 ih)
  | obj members ih =>
      refine .obj fun name => ?_
      cases found : Keyed.get? name members with
      | none => exact .none
      | some v => exact .some (ih _ (Keyed.mem_of_get? found))

variable {shapes : List Schema}

theorem prunedItems_eq_map (items : List Json) :
    prunedItems shapes items = items.map (pruned shapes) := by
  induction items with
  | nil => rfl
  | cons v rest ih => rw [prunedItems, ih, List.map_cons]

/-- A declared member is found as before, without the members inside of it that are not declared. -/
theorem get?_prunedMembers {name : String} (kept : Schema.keeps name shapes = true)
    (members : List (String × Json)) : Keyed.get? name (prunedMembers shapes members) =
      (Keyed.get? name members).map (pruned (Schema.declared name shapes)) := by
  induction members with
  | nil => rfl
  | cons m rest ih =>
      obtain ⟨name', v⟩ := m
      by_cases same : name' = name
      · subst same
        simp [prunedMembers, kept, Keyed.get?]
      · -- another member is passed over, whether it is left or not
        rw [prunedMembers]
        split
        · simpa [Keyed.get?, same] using ih
        · simpa [Keyed.get?, same] using ih

/-! ### What equality without these members gives -/

/-- A value without parts is left as it is. -/
theorem eq_of_equal_pruned {v w : Json} (noList : ∀ items, v ≠ .arr items)
    (noObject : ∀ members, v ≠ .obj members)
    (same : Equal (v.pruned shapes) (w.pruned shapes)) : w = v := by
  cases v with
  | null | bool | int | float | str =>
      cases w with
      | null | bool | int | float | str | arr | obj => cases same <;> rfl
  | arr items => exact absurd rfl (noList items)
  | obj members => exact absurd rfl (noObject members)

theorem exists_arr_of_equal_pruned {items : List Json} {w : Json}
    (same : Equal ((Json.arr items).pruned shapes) (w.pruned shapes)) :
    ∃ items', w = .arr items' ∧ List.Forall₂ (fun v w =>
      Equal (v.pruned (shapes.filterMap Schema.items?))
        (w.pruned (shapes.filterMap Schema.items?))) items items' := by
  cases w with
  | null | bool | int | float | str | obj => cases same
  | arr items' =>
      rw [pruned, pruned, prunedItems_eq_map, prunedItems_eq_map] at same
      cases same with
      | arr each =>
          rw [List.forall₂_map_left_iff, List.forall₂_map_right_iff] at each
          exact ⟨items', rfl, each⟩

theorem exists_obj_of_equal_pruned {members : List (String × Json)} {w : Json}
    (same : Equal ((Json.obj members).pruned shapes) (w.pruned shapes)) :
    ∃ members', w = .obj members' ∧ ∀ name, Schema.keeps name shapes = true →
      Option.Rel (fun v w => Equal (v.pruned (Schema.declared name shapes))
          (w.pruned (Schema.declared name shapes)))
        (Keyed.get? name members) (Keyed.get? name members') := by
  cases w with
  | null | bool | int | float | str | arr => cases same
  | obj members' =>
      rw [pruned, pruned] at same
      cases same with
      | obj each =>
          refine ⟨members', rfl, fun name kept => ?_⟩
          have here := each name
          rw [get?_prunedMembers kept, get?_prunedMembers kept] at here
          exact here.of_map

end Json

/-! ### The check -/

namespace Response

theorem checkItems_congr {check : Json → String → Verdict} {items items' : List Json}
    (each : List.Forall₂ (fun v w => ∀ path, check v path = check w path) items items')
    (path : String) (i : Nat) : checkItems check path i items = checkItems check path i items' := by
  induction each generalizing i with
  | nil => rfl
  | cons first rest ih => rw [checkItems, checkItems, first, ih]

theorem checkFields_congr {fields : List (String × Schema)}
    {members members' : List (String × Json)}
    (each : ∀ f ∈ fields, Option.Rel (fun v w => ∀ path, check f.2 v path = check f.2 w path)
      (Keyed.get? f.1 members) (Keyed.get? f.1 members')) (path : String) :
    checkFields fields members path = checkFields fields members' path := by
  induction fields with
  | nil => rfl
  | cons f rest ih =>
      obtain ⟨name, schema⟩ := f
      obtain ⟨here, later⟩ := List.forall_mem_cons.1 each
      rw [checkFields, checkFields, ih later]
      generalize Keyed.get? name members = v, Keyed.get? name members' = w at here ⊢
      cases here with
      | none => rfl
      | some same => simp only [same]

/-- A shape that stands at a place says of what is inside of an object only what it declares. -/
theorem mem_declared {shapes : List Schema} {name objectName : String} {schema : Schema}
    {fields : List (String × Schema)} (stands : Schema.object objectName fields ∈ shapes)
    (field : (name, schema) ∈ fields) : schema ∈ Schema.declared name shapes := by
  have inside : (name, schema) ∈ shapes.flatMap Schema.fields :=
    List.mem_flatMap.2 ⟨_, stands, field⟩
  exact List.mem_map.2 ⟨_, List.mem_filter.2 ⟨inside, by simp⟩, rfl⟩

/-- Values that are equal without the members that the shapes at their place do not declare have the
same outcome for each of these shapes, wherever they stand. -/
theorem check_of_pruned {v w : Json} {shapes : List Schema}
    (same : Json.Equal (v.pruned shapes) (w.pruned shapes)) {schema : Schema}
    (stands : schema ∈ shapes) (path : String) : check schema v path = check schema w path := by
  induction v using Json.induction generalizing w shapes schema path with
  | null | bool | int | float | str =>
      rw [Json.eq_of_equal_pruned (by simp) (by simp) same]
  | arr items ih =>
      obtain ⟨items', rfl, each⟩ := Json.exists_arr_of_equal_pruned same
      have length := each.length_eq
      cases schema with
      | text | money | number | yesNo | oneOf | object =>
          -- the violation tells the number of the elements, and nothing else of them
          simp only [check, number?, yesNo?, describe, length]
      | list schema =>
          have inner : schema ∈ shapes.filterMap Schema.items? :=
            List.mem_filterMap.2 ⟨_, stands, rfl⟩
          have checked : List.Forall₂ (fun v w => ∀ path, check schema v path = check schema w path)
              items items' := by
            refine ((List.forall₂_and_left _ _).2 ⟨fun v member => member, each⟩).imp ?_
            rintro v w ⟨member, same⟩ path
            exact ih v member same inner path
          simp only [check, checkItems_congr checked]
  | obj members ih =>
      obtain ⟨members', rfl, each⟩ := Json.exists_obj_of_equal_pruned same
      cases schema with
      | text | money | number | yesNo | oneOf | list =>
          simp only [check, number?, yesNo?, describe]
      | object name fields =>
          have checked : ∀ f ∈ fields, Option.Rel (fun v w => ∀ path, check f.2 v path =
              check f.2 w path) (Keyed.get? f.1 members) (Keyed.get? f.1 members') := by
            intro f field
            have inner := mem_declared stands field
            have kept : Schema.keeps f.1 shapes = true := by
              rw [Schema.keeps, List.isEmpty_eq_false_iff.2 (List.ne_nil_of_mem inner)]
              rfl
            exact (each f.1 kept).mono_of fun v found w same path =>
              ih _ (Keyed.mem_of_get? found) same inner path
          simp only [check, checkFields_congr checked]

/-- Two values that are equal once the members are taken out that the schema does not declare have
the same outcome: the same typed value, or the same violations. -/
theorem validate_of_pruned (schema : Schema) {v w : Json}
    (same : Json.Equal (v.pruned [schema]) (w.pruned [schema])) :
    validate schema v = validate schema w :=
  check_of_pruned same (List.mem_singleton_self schema) rootPath

/-- An order with a note in it and in one of its lines, and the same order without the notes: the
total is missing in both, and this is all that is told of either. -/
theorem validate_of_pruned_order :
    let order : Schema := .object "order"
      [("lines", .list (.object "line" [("item", .text), ("paid", .yesNo)])), ("total", .money)]
    let noted : Json := .obj [("lines", .arr [.obj [("item", .str "pen"), ("note", .int 7),
      ("paid", .str "no")]]), ("note", .obj [("total", .int 3)])]
    let bare : Json := .obj [("lines", .arr [.obj [("item", .str "pen"), ("paid", .str "no")]])]
    Json.Equal (noted.pruned [order]) (bare.pruned [order]) ∧
      validate order noted = validate order bare ∧
      validate order noted = .error [⟨"total", "money", "missing"⟩] := by
  intro order noted bare
  have same : Json.Equal (noted.pruned [order]) (bare.pruned [order]) := Json.Equal.refl _
  refine ⟨same, validate_of_pruned order same, ?_⟩
  rfl

end Response

end RecordInference
