import RecordInference.Path
import RecordInference.Proofs.Outcome

/-!
# Values of a shape

`Conforms schema v` says that `v` is a value of the shape `schema`: it has the constructor of
the shape at every level, its numbers are finite, its given values are among those of the shape,
and its objects have exactly the fields of the shape in their order. `FieldsConform` is the same
for the fields of objects and for records.

A path finds something in a record exactly if it finds something in the shape of the record, and
what it finds conforms (`FieldsConform.lookup?_rel`). `Schema.Distinct` says that the names of
fields differ within every object of a shape.
-/

set_option autoImplicit false

namespace RecordInference

mutual

/-- The values of a shape. -/
inductive Conforms : Schema → Value → Prop
  | text (s : String) : Conforms .text (.text s)
  | money {x : Float} (finite : x.isFinite = true) : Conforms .money (.money x)
  | number {x : Float} (finite : x.isFinite = true) : Conforms .number (.number x)
  | yesNo (b : Bool) : Conforms .yesNo (.yesNo b)
  | oneOf {values : List String} {s : String} (member : s ∈ values) :
      Conforms (.oneOf values) (.oneOf s)
  | list {schema : Schema} {items : List Value} (each : ∀ v ∈ items, Conforms schema v) :
      Conforms (.list schema) (.list items)
  | object (name : String) {fields : List (String × Schema)} {values : List (String × Value)}
      (each : FieldsConform fields values) : Conforms (.object name fields) (.object values)

/-- Values under the names of fields, each of the shape of its field. -/
inductive FieldsConform : List (String × Schema) → List (String × Value) → Prop
  | nil : FieldsConform [] []
  | cons (name : String) {schema : Schema} {v : Value} {fields : List (String × Schema)}
      {values : List (String × Value)} (first : Conforms schema v)
      (rest : FieldsConform fields values) :
      FieldsConform ((name, schema) :: fields) ((name, v) :: values)

end

namespace FieldsConform

variable {fields fields' : List (String × Schema)} {values values' : List (String × Value)}

theorem keys_eq (h : FieldsConform fields values) : Keyed.keys values = Keyed.keys fields := by
  induction fields generalizing values with
  | nil =>
      cases h
      rfl
  | cons field fields ih =>
      cases h with
      | cons name first rest => exact congrArg (name :: ·) (ih rest)

theorem append (h : FieldsConform fields values) (h' : FieldsConform fields' values') :
    FieldsConform (fields ++ fields') (values ++ values') := by
  induction fields generalizing values with
  | nil =>
      cases h
      exact h'
  | cons field fields ih =>
      cases h with
      | cons name first rest => exact .cons name first (ih rest)

theorem single (name : String) {schema : Schema} {v : Value} (h : Conforms schema v) :
    FieldsConform [(name, schema)] [(name, v)] := .cons name h .nil

/-- A name is a field of both or of neither. -/
theorem get?_rel (h : FieldsConform fields values) (name : String) :
    Option.Rel Conforms (Keyed.get? name fields) (Keyed.get? name values) := by
  induction fields generalizing values with
  | nil =>
      cases h
      exact .none
  | cons field fields ih =>
      cases h with
      | cons name' first rest =>
          by_cases same : name' = name
          · simpa [Keyed.get?, same] using Option.Rel.some first
          · simpa [Keyed.get?, same] using ih rest

end FieldsConform

namespace Conforms

theorem field?_rel {schema : Schema} {v : Value} (h : Conforms schema v) (name : String) :
    Option.Rel Conforms (schema.field? name) (v.field? name) := by
  cases h with
  | object _ each => exact each.get?_rel name
  | text | money | number | yesNo | oneOf | list => exact .none

end Conforms

/-! ### Paths -/

section

variable {r : Schema → Value → Prop}
  (field : ∀ {schema v}, r schema v → ∀ name, Option.Rel r (schema.field? name) (v.field? name))

include field

/-- What every field of related objects keeps is kept along names. -/
theorem Schema.follow?_rel {schema : Schema} {v : Value} (h : r schema v) (names : List String) :
    Option.Rel r (schema.follow? names) (v.follow? names) := by
  -- a step goes to a field of both, or of neither
  induction names generalizing schema v with
  | nil => exact .some h
  | cons name rest ih => exact (field h name).bind fun _ _ found => ih found

/-- What every field of a record keeps is kept along paths. -/
theorem Schema.lookup?_rel {shape : Keyed Schema} {record : Record}
    (h : ∀ name, Option.Rel r (Keyed.get? name shape) (Keyed.get? name record)) (path : String) :
    Option.Rel r (Schema.lookup? shape path) (record.lookup? path) := by
  simp only [Schema.lookup?, Record.lookup?]
  cases pathParts path with
  | nil => exact .none
  | cons name rest => exact (h name).bind fun _ _ found => follow?_rel field found rest

end

/-- A path leads somewhere in a record exactly if it does so in the shape of the record, and the
value there is of the shape there. -/
theorem FieldsConform.lookup?_rel {shape : Keyed Schema} {record : Record}
    (h : FieldsConform shape record) (path : String) :
    Option.Rel Conforms (Schema.lookup? shape path) (record.lookup? path) :=
  Schema.lookup?_rel (fun conforms => conforms.field?_rel) h.get?_rel path

/-! ### Distinct names -/

namespace Schema

mutual

/-- Whether the names of fields differ within every object. -/
def Distinct : Schema → Prop
  | .list items => items.Distinct
  | .object _ fields => (Keyed.keys fields).Nodup ∧ FieldsDistinct fields
  | .text | .money | .number | .yesNo | .oneOf _ => True

/-- Whether the names of fields differ within every object inside of the fields. -/
def FieldsDistinct : List (String × Schema) → Prop
  | [] => True
  | (_, schema) :: rest => schema.Distinct ∧ FieldsDistinct rest

end

end Schema

end RecordInference
