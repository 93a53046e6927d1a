import RecordInference.Proofs.Schema.Serialization
import RecordInference.Proofs.Text.Line

/-!
# Paths through a shape and through a record

Two functions follow a dotted path: one through the fields of a shape, the other through the values
of a record. They end at the same places (`lookup?_agree`): where the record has the fields of the
shape, in whatever order, a path finds a value exactly if it finds a shape, and the value is one of
that shape. What a path finds is told without following it: the names between its dots have to be
those of fields, each inside of the one before (`Schema.Reaches`), so a path with an empty name
leads nowhere unless there is a field without a name.

`Admits` is the part of `Conforms` that paths depend on: the values of a shape, with the fields of
objects in any order and with any numbers (`Conforms.admits`).
-/

set_option autoImplicit false

namespace RecordInference

/-- The values of a shape, whatever the order of their fields and whatever their numbers. -/
inductive Admits : Schema → Value → Prop
  | text (s : String) : Admits .text (.text s)
  | money (x : Float) : Admits .money (.money x)
  | number (x : Float) : Admits .number (.number x)
  | yesNo (b : Bool) : Admits .yesNo (.yesNo b)
  | oneOf {values : List String} {s : String} (member : s ∈ values) :
      Admits (.oneOf values) (.oneOf s)
  | list {schema : Schema} {items : List Value} (each : ∀ v ∈ items, Admits schema v) :
      Admits (.list schema) (.list items)
  | object (title : String) {fields : List (String × Schema)} {values : List (String × Value)}
      (names : (Keyed.keys values).Perm (Keyed.keys fields))
      (each : ∀ name schema v, (name, schema) ∈ fields → (name, v) ∈ values → Admits schema v) :
      Admits (.object title fields) (.object values)

/-- The records of a shape: they have its names and no others, and under each name a value of the
shape that stands there. -/
structure AdmitsFields (fields : Keyed Schema) (values : Keyed Value) : Prop where
  names : (Keyed.keys values).Perm (Keyed.keys fields)
  each : ∀ name schema v, (name, schema) ∈ fields → (name, v) ∈ values → Admits schema v

/-- A name is a field of both or of neither. -/
theorem AdmitsFields.get?_rel {fields : Keyed Schema} {values : Keyed Value}
    (h : AdmitsFields fields values) (name : String) :
    Option.Rel Admits (Keyed.get? name fields) (Keyed.get? name values) := by
  cases declared : Keyed.get? name fields with
  | none =>
      have absent : name ∉ Keyed.keys values := fun member =>
        Keyed.get?_eq_none_iff.1 declared (h.names.mem_iff.1 member)
      rw [Keyed.get?_eq_none_iff.2 absent]
      exact .none
  | some schema =>
      have present : name ∈ Keyed.keys values :=
        h.names.mem_iff.2 (Keyed.mem_keys_iff.2 ⟨schema, declared⟩)
      obtain ⟨v, found⟩ := Keyed.mem_keys_iff.1 present
      rw [found]
      exact .some (h.each name schema v (Keyed.mem_of_get? declared) (Keyed.mem_of_get? found))

theorem Admits.field?_rel {schema : Schema} {v : Value} (h : Admits schema v) (name : String) :
    Option.Rel Admits (schema.field? name) (v.field? name) := by
  cases h with
  | object _ names each => exact AdmitsFields.get?_rel ⟨names, each⟩ name
  | text | money | number | yesNo | oneOf | list => exact .none

/-- The values that a schema gives are among those that it admits. -/
theorem Conforms.admits {schema : Schema} (distinct : schema.Distinct) {v : Value}
    (h : Conforms schema v) : Admits schema v := by
  induction schema using Schema.induction generalizing v with
  | text =>
      cases h
      exact .text _
  | money =>
      cases h
      exact .money _
  | number =>
      cases h
      exact .number _
  | yesNo =>
      cases h
      exact .yesNo _
  | oneOf values =>
      cases h with
      | oneOf member => exact .oneOf member
  | list items ih =>
      cases h with
      | list each => exact .list fun v member => ih distinct (each v member)
  | object title fields ih =>
      cases h with
      | @object _ _ values each =>
          obtain ⟨names, inside⟩ := distinct
          rw [Schema.fieldsDistinct_iff] at inside
          have keys : (Keyed.keys values).Nodup := by rwa [each.keys_eq]
          refine .object title (.of_eq each.keys_eq) fun name schema v declared member => ?_
          -- the value that stands under the name is the only one there
          have here := each.get?_rel name
          rw [Keyed.get?_of_mem names declared, Keyed.get?_of_mem keys member] at here
          cases here with
          | some conforms => exact ih _ declared (inside _ declared) conforms

namespace Schema

/-! ### Where a path leads -/

/-- The places in a shape: names of fields, each inside of the one before, and what is there. -/
inductive Reaches : Schema → List String → Schema → Prop
  | here (schema : Schema) : Reaches schema [] schema
  | field {title name : String} {fields : List (String × Schema)} {part goal : Schema}
      {names : List String} (member : (name, part) ∈ fields) (onward : Reaches part names goal) :
      Reaches (.object title fields) (name :: names) goal

theorem get?_eq_some_iff {fields : List (String × Schema)} (distinct : (Keyed.keys fields).Nodup)
    {name : String} {part : Schema} : Keyed.get? name fields = some part ↔ (name, part) ∈ fields :=
  ⟨Keyed.mem_of_get?, Keyed.get?_of_mem distinct⟩

/-- Following names leads to the place that they stand for. -/
theorem follow?_eq_some_iff {names : List String} {schema goal : Schema}
    (distinct : schema.Distinct) : schema.follow? names = some goal ↔ Reaches schema names goal := by
  induction names generalizing schema with
  | nil =>
      constructor
      · rintro ⟨⟩
        exact .here goal
      · rintro ⟨⟩
        rfl
  | cons name rest ih =>
      rw [follow?, Option.bind_eq_some_iff]
      cases schema with
      | object title fields =>
          obtain ⟨names, inside⟩ := distinct
          rw [fieldsDistinct_iff] at inside
          simp only [field?, get?_eq_some_iff names]
          constructor
          · rintro ⟨part, member, onward⟩
            exact .field member ((ih (inside _ member)).1 onward)
          · rintro (_ | ⟨member, onward⟩)
            exact ⟨_, member, (ih (inside _ member)).2 onward⟩
      | text | money | number | yesNo | oneOf | list =>
          constructor
          · rintro ⟨part, none, -⟩
            cases none
          · rintro ⟨⟩

/-- A path finds what stands under the names between its dots. -/
theorem lookup?_eq_some_iff {shape : Keyed Schema} (names : (Keyed.keys shape).Nodup)
    (inside : FieldsDistinct shape) {path : String} {goal : Schema} :
    lookup? shape path = some goal ↔ Reaches (.object "" shape) (pathParts path) goal := by
  have distinct : (Schema.object "" shape).Distinct := ⟨names, inside⟩
  rw [← follow?_eq_some_iff distinct, lookup?]
  -- a text has at least one piece, so the path has a first name
  cases parts : pathParts path with
  | nil => exact absurd (List.map_eq_nil_iff.1 parts) (Text.splitOn_ne_nil _ _)
  | cons name rest => rfl

/-- The names of a path have no dots in them, and joined with dots they are the path. -/
theorem pathParts_eq_iff {path : String} {names : List String} :
    pathParts path = names ↔ names ≠ [] ∧ (∀ name ∈ names, '.' ∉ name.toList) ∧
      path.toList = ['.'].intercalate (names.map String.toList) := by
  constructor
  · rintro rfl
    have pieces : (pathParts path).map String.toList = Text.splitOn '.' path.toList := by
      simp [pathParts, Function.comp_def]
    refine ⟨?_, ?_, ?_⟩
    · exact fun none => Text.splitOn_ne_nil _ _ (List.map_eq_nil_iff.1 none)
    · intro name member
      exact Text.not_mem_of_mem_splitOn (pieces ▸ List.mem_map_of_mem member)
    · rw [pieces, Text.intercalate_splitOn]
  · rintro ⟨some, whole, eq⟩
    rw [pathParts, eq, Text.splitOn_intercalate (by simpa using some) (by simpa using whole)]
    simp [Function.comp_def]

end Schema

/-- In a shape a path finds what stands under the names between its dots, and in a record of the
shape it finds something exactly if it does so in the shape, namely a value of what is there. -/
theorem lookup?_agree {shape : Keyed Schema} (names : (Keyed.keys shape).Nodup)
    (inside : Schema.FieldsDistinct shape) {record : Record} (admits : AdmitsFields shape record)
    (path : String) :
    (∀ goal, Schema.lookup? shape path = some goal ↔
      ∃ names : List String, names ≠ [] ∧ (∀ name ∈ names, '.' ∉ name.toList) ∧
        path.toList = ['.'].intercalate (names.map String.toList) ∧
        Schema.Reaches (.object "" shape) names goal) ∧
    ((∃ schema, Schema.lookup? shape path = some schema) ↔ ∃ v, record.lookup? path = some v) ∧
    ∀ schema v, Schema.lookup? shape path = some schema → record.lookup? path = some v →
      Admits schema v := by
  have related : Option.Rel Admits (Schema.lookup? shape path) (record.lookup? path) :=
    Schema.lookup?_rel (fun admits => admits.field?_rel) admits.get?_rel path
  refine ⟨fun goal => ?_, related.exists_some_iff, ?_⟩
  · rw [Schema.lookup?_eq_some_iff names inside]
    constructor
    · intro reached
      obtain ⟨some, whole, eq⟩ := Schema.pathParts_eq_iff.1 (Eq.refl (pathParts path))
      exact ⟨_, some, whole, eq, reached⟩
    · rintro ⟨parts, some, whole, eq, reached⟩
      rwa [Schema.pathParts_eq_iff.2 ⟨some, whole, eq⟩]
  · intro schema v declared found
    rw [declared, found] at related
    cases related with
    | some admits => exact admits

/-- An order whose fields come the other way round, with a field that has no name: a path with a
dot at its end finds that field, and a path into a list finds nothing. -/
theorem lookup?_agree_order :
    let shape : Keyed Schema :=
      [("id", .text), ("order", .object "order" [("items", .list .text), ("", .number)])]
    let record : Record :=
      [("order", .object [("", .number 2), ("items", .list [.text "pen"])]), ("id", .text "o1")]
    (Keyed.keys shape).Nodup ∧ Schema.FieldsDistinct shape ∧ AdmitsFields shape record ∧
      Schema.lookup? shape "order." = some .number ∧
      (∃ v, record.lookup? "order." = some v ∧ Admits .number v) ∧
      ¬ ∃ v, record.lookup? "order.items.0" = some v := by
  intro shape record
  have names : (Keyed.keys shape).Nodup := by decide
  have inside : Schema.FieldsDistinct shape := by
    simp [shape, Schema.FieldsDistinct, Schema.Distinct, Keyed.keys]
  have order : Admits (.object "order" [("items", .list .text), ("", .number)])
      (.object [("", .number 2), ("items", .list [.text "pen"])]) := by
    refine .object "order" (by decide) ?_
    simp only [List.mem_cons, List.not_mem_nil, or_false, Prod.mk.injEq]
    rintro name schema v (⟨rfl, rfl⟩ | ⟨rfl, rfl⟩) (⟨same, rfl⟩ | ⟨same, rfl⟩)
    · exact absurd same (by decide)
    · exact .list (List.forall_mem_singleton.2 (.text "pen"))
    · exact .number 2
    · exact absurd same (by decide)
  have admits : AdmitsFields shape record := by
    refine ⟨by decide, ?_⟩
    simp only [shape, record, List.mem_cons, List.not_mem_nil, or_false, Prod.mk.injEq]
    rintro name schema v (⟨rfl, rfl⟩ | ⟨rfl, rfl⟩) (⟨same, rfl⟩ | ⟨same, rfl⟩)
    · exact absurd same (by decide)
    · exact .text "o1"
    · exact order
    · exact absurd same (by decide)
  have found : Schema.lookup? shape "order." = some .number := rfl
  obtain ⟨-, both, value⟩ := lookup?_agree names inside admits "order."
  obtain ⟨v, there⟩ := both.1 ⟨_, found⟩
  have none : ¬ ∃ schema, Schema.lookup? shape "order.items.0" = some schema := by
    rintro ⟨schema, declared⟩
    cases declared
  obtain ⟨-, neither, -⟩ := lookup?_agree names inside admits "order.items.0"
  exact ⟨names, inside, admits, found, ⟨v, there, value _ _ found there⟩, mt neither.2 none⟩

end RecordInference
