import RecordInference.Proofs.Declaration.Regularity
import RecordInference.Proofs.Plan.Origin
import RecordInference.Proofs.Response.Place
import RecordInference.Proofs.Text.Dotted

/-!
# Names in the shape of a record

The fields of a declaration have identifiers as names, and so have those of its schemas
(`Schema.named_of_expanded`) and those that its steps produce (`Plan.named_of_ofDeclaration`). So
every path at which the shape of a record has something is a sequence of identifiers with dots
between them (`Schema.dotted_of_lookup?`).
-/

set_option autoImplicit false

namespace RecordInference

open Text

/-! ### Schemas -/

namespace Schema

variable {definitions : List Definition} {schemas : Keyed Schema}

/-- The fields of definitions are named by identifiers, and so are those of their schemas. -/
theorem named_of_expanded (expansion : IsExpansion definitions schemas)
    (regular : ∀ d ∈ definitions, d.Regular) {type : FieldType} {schema : Schema}
    (expanded : type.expanded? schemas = some schema) : schema.Named := by
  refine expansion.induction (motive := fun _ schema => schema.Named) ?_ ?_ ?_ expanded
  · intro type schema closed expanded
    cases type with
    | text | money | number | yesNo | oneOf =>
        cases expanded
        trivial
    | object | listOf => cases closed
  · intro d declared fields parts
    rw [Named, fieldsNamed_iff]
    intro f member
    obtain ⟨field, there, named, part⟩ := parts.exists_left f member
    refine ⟨?_, part⟩
    rw [named]
    exact ((regular d declared).fields field there).name
  · exact fun name fields element => element

theorem named_of_get? (expansion : IsExpansion definitions schemas)
    (regular : ∀ d ∈ definitions, d.Regular) {name : String} {schema : Schema}
    (found : Keyed.get? name schemas = some schema) : schema.Named := by
  have expanded : (FieldType.object name).expanded? schemas = some schema := found
  exact named_of_expanded expansion regular expanded

/-! ### Paths -/

theorem named_of_follow? {names : List String} {schema found : Schema} (named : schema.Named)
    (h : schema.follow? names = some found) :
    ∀ name ∈ names, isIdentifier name.toList = true := by
  induction names generalizing schema with
  | nil => exact List.forall_mem_nil _
  | cons name rest ih =>
      obtain ⟨part, here, later⟩ := Option.bind_eq_some_iff.1 h
      cases schema with
      | object title fields =>
          have listed := Keyed.mem_of_get? here
          obtain ⟨first, inside⟩ := fieldsNamed_iff.1 named _ listed
          exact List.forall_mem_cons.2 ⟨first, ih inside later⟩
      | text | money | number | yesNo | oneOf | list => cases here

/-- Whatever is found in fields that are named by identifiers is found at a sequence of these. -/
theorem dotted_of_lookup? {shape : Keyed Schema} {path : String} {schema : Schema}
    (named : FieldsNamed shape) (h : lookup? shape path = some schema) : Dotted path.toList := by
  rw [dotted_iff]
  have parts : ∀ name ∈ pathParts path, isIdentifier name.toList = true := by
    rw [lookup?] at h
    split at h
    · cases h
    · next name rest split =>
      obtain ⟨part, here, later⟩ := Option.bind_eq_some_iff.1 h
      obtain ⟨first, inside⟩ := fieldsNamed_iff.1 named _ (Keyed.mem_of_get? here)
      rw [split]
      exact List.forall_mem_cons.2 ⟨first, named_of_follow? inside later⟩
  intro name member
  have part := parts (String.ofList name) (List.mem_map_of_mem member)
  rwa [String.toList_ofList] at part

end Schema

/-! ### Steps -/

section

variable {definitions : List Definition} {schemas : Keyed Schema}
  (expansion : Schema.IsExpansion definitions schemas)
  (regular : ∀ d ∈ definitions, d.Regular)

include expansion regular

theorem Yield.named_of_ofDefinition {step : InferenceStep} {y : Yield}
    (yields : ofDefinition schemas step = .ok y) :
    Schema.FieldsNamed (y.output.produced y.schema) := by
  rw [ofDefinition] at yields
  split at yields
  · cases yields
  · next name fields found =>
    have named : Schema.FieldsNamed fields := Schema.named_of_get? expansion regular found
    split at yields
    · cases yields
      exact named
    · obtain ⟨field, values, rfl, rfl⟩ := ofClassification_eq_ok_iff.1 yields
      exact named
  · cases yields

/-- What a step produces is named by the fields of a definition or by the target of the step. -/
theorem Yield.named_of_ofStep {step : InferenceStep} {y : Yield} (target : step.Regular)
    (yields : ofStep schemas step = .ok y) : Schema.FieldsNamed (y.output.produced y.schema) := by
  have single : ∀ schema : Schema, schema.Named →
      Schema.FieldsNamed [(step.target, schema)] :=
    fun schema named => ⟨target.target.1, named, trivial⟩
  rw [ofStep] at yields
  split at yields
  · cases yields
    exact single _ trivial
  · cases yields
    exact single _ trivial
  · exact named_of_ofDefinition expansion regular yields

end

namespace Plan

/-- The fields of the record of a declaration are named by identifiers. -/
theorem named_of_ofDeclaration {text : String} {loader : Loader} {plan : Plan}
    (h : ofDeclaration text loader = .ok plan) : Schema.FieldsNamed plan.shape := by
  have fits := (fits_of_ofDeclaration h).1
  obtain ⟨program, schemas, read, resolved, compiled⟩ := ofDeclaration_eq_ok_iff.1 h
  obtain ⟨s, taken, rfl⟩ := Except.map_eq_ok_iff.1 read
  have regular := (Program.regular_of_readLines taken).1
  have expansion := Schema.isExpansion_of_resolve resolved
  rw [fits.shape, Schema.fieldsNamed_iff]
  intro field member
  obtain ⟨planned, listed, inside⟩ := List.mem_flatMap.1 member
  obtain ⟨step, y, constructed, yields, stems⟩ := exists_yield_of_compile compiled planned listed
  rw [PlannedStep.produced, stems.schema, stems.output] at inside
  have named := Yield.named_of_ofStep expansion regular.definitions
    (regular.pipeline _ constructed) yields
  exact Schema.fieldsNamed_iff.1 named field inside

end Plan

end RecordInference
