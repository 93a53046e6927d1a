import RecordInference.Proofs.Decimal.Exact
import RecordInference.Proofs.Outcome
import RecordInference.Response.Validation

/-!
# Places in a response

A place in a response is given by the turns that lead to it, each to a field of an object or to an
element of a list. `Leads schema v turns spot` says what stands there, in the value and in the
schema: a part of the value with its own schema, or nothing where the schema declares a field.

A place is reported by its path. Where the names of fields are identifiers no two places have the
same path (`pathOf_inj`), so that a path can be followed.
-/

set_option autoImplicit false

namespace RecordInference

open Text

/-! ### Names of fields -/

namespace Schema

mutual

/-- Whether the names of fields are identifiers within every object. -/
def Named : Schema → Prop
  | .list items => items.Named
  | .object _ fields => FieldsNamed fields
  | .text | .money | .number | .yesNo | .oneOf _ => True

/-- Whether the names of fields are identifiers, also inside of the fields. -/
def FieldsNamed : List (String × Schema) → Prop
  | [] => True
  | (name, schema) :: rest =>
    isIdentifier name.toList = true ∧ schema.Named ∧ FieldsNamed rest

end

theorem fieldsNamed_iff {fields : List (String × Schema)} : FieldsNamed fields ↔
    ∀ f ∈ fields, isIdentifier f.1.toList = true ∧ f.2.Named := by
  induction fields with
  | nil => simp [FieldsNamed]
  | cons f rest ih => rw [FieldsNamed, ih, List.forall_mem_cons, and_assoc]

end Schema

namespace Response

/-! ### Turns and their paths -/

/-- A way from a value to one of its parts. -/
inductive Turn where
  | field (name : String)
  | item (index : Nat)
deriving DecidableEq, Repr

/-- The path of a part of what stands at `parent`. -/
def turnPath (parent : String) : Turn → String
  | .field name => fieldPath parent name
  | .item i => itemPath parent i

/-- The path of the place that turns lead to. -/
def pathOf (turns : List Turn) : String := turns.foldl turnPath rootPath

/-- Whether the names of the fields on the way are identifiers. -/
def Named (turns : List Turn) : Prop :=
  ∀ name, .field name ∈ turns → isIdentifier name.toList = true

theorem named_cons_iff {turn : Turn} {rest : List Turn} : Named (turn :: rest) ↔
    (∀ name, turn = .field name → isIdentifier name.toList = true) ∧ Named rest := by
  constructor
  · intro named
    refine ⟨?_, fun name member => named name (List.mem_cons_of_mem _ member)⟩
    rintro name rfl
    exact named name List.mem_cons_self
  · rintro ⟨first, others⟩ name member
    rcases List.mem_cons.1 member with same | later
    · exact first name same.symm
    · exact others name later

theorem named_append_iff {turns turns' : List Turn} :
    Named (turns ++ turns') ↔ Named turns ∧ Named turns' := by
  constructor
  · intro named
    exact ⟨fun name member => named name (List.mem_append_left _ member),
      fun name member => named name (List.mem_append_right _ member)⟩
  · rintro ⟨front, back⟩ name member
    rcases List.mem_append.1 member with before | behind
    · exact front name before
    · exact back name behind

theorem pathOf_concat (turns : List Turn) (turn : Turn) :
    pathOf (turns ++ [turn]) = turnPath (pathOf turns) turn := by
  rw [pathOf, List.foldl_append]
  rfl

/-- What a turn puts behind a path. -/
def Turn.suffix : Turn → List Char
  | field name => '.' :: name.toList
  | item i => '[' :: Nat.toDigits 10 i ++ [']']

theorem toList_itemPath (parent : String) (i : Nat) :
    (itemPath parent i).toList = parent.toList ++ (Turn.item i).suffix := by
  simp [itemPath, Turn.suffix, toString, Nat.repr]

/-- Behind a path that cannot be that of the whole response the turns stand one after the other. -/
theorem toList_foldl_turnPath {parent : String} (inner : ∀ more, parent.toList ++ more ≠ ['$'])
    (turns : List Turn) :
    (turns.foldl turnPath parent).toList = parent.toList ++ turns.flatMap Turn.suffix := by
  induction turns generalizing parent with
  | nil => simp
  | cons turn rest ih =>
      have first : (turnPath parent turn).toList = parent.toList ++ turn.suffix := by
        cases turn with
        | field name =>
            have other : parent ≠ rootPath := by
              rintro rfl
              exact inner [] rfl
            simp [turnPath, fieldPath, other, Turn.suffix]
        | item i => exact toList_itemPath parent i
      have inner' : ∀ more, (turnPath parent turn).toList ++ more ≠ ['$'] := by
        intro more
        rw [first, List.append_assoc]
        exact inner _
      rw [List.foldl_cons, ih inner', first, List.flatMap_cons, List.append_assoc]

theorem continuesIdentifier_of_isIdentifier {cs : List Char} (h : isIdentifier cs = true) :
    cs ≠ [] ∧ ∀ c ∈ cs, continuesIdentifier c = true := by
  cases cs with
  | nil => cases h
  | cons c rest =>
      simp only [isIdentifier, Bool.and_eq_true, List.all_eq_true] at h
      obtain ⟨first, others⟩ := h
      refine ⟨List.cons_ne_nil c rest, List.forall_mem_cons.2 ⟨?_, others⟩⟩
      simp only [opensIdentifier, Bool.or_eq_true] at first
      rcases first with letter | underscore
      · simp [continuesIdentifier, Char.isAlphanum, letter]
      · simp [continuesIdentifier, underscore]

/-- An identifier is not the start of the path of a list. -/
theorem append_ne_dollar {cs : List Char} (h : isIdentifier cs = true) (more rest : List Char) :
    cs ++ more ≠ '$' :: rest := by
  obtain ⟨some, inside⟩ := continuesIdentifier_of_isIdentifier h
  obtain ⟨c, cs, rfl⟩ := List.exists_cons_of_ne_nil some
  intro same
  have first : c = '$' := (List.cons.inj same).1
  have letter := inside c List.mem_cons_self
  rw [first] at letter
  exact absurd letter (by decide)

theorem toList_pathOf_field {name : String} (h : isIdentifier name.toList = true)
    (rest : List Turn) :
    (pathOf (.field name :: rest)).toList = name.toList ++ rest.flatMap Turn.suffix := by
  have first : pathOf (.field name :: rest) = rest.foldl turnPath name := by
    simp [pathOf, turnPath, fieldPath]
  rw [first]
  exact toList_foldl_turnPath (fun more => append_ne_dollar h more []) rest

theorem toList_pathOf_item (i : Nat) (rest : List Turn) :
    (pathOf (.item i :: rest)).toList = '$' :: (Turn.item i :: rest).flatMap Turn.suffix := by
  have inner : ∀ more, (itemPath rootPath i).toList ++ more ≠ ['$'] := by
    intro more
    rw [toList_itemPath]
    simp [rootPath, Turn.suffix]
  have first : pathOf (.item i :: rest) = rest.foldl turnPath (itemPath rootPath i) := rfl
  rw [first, toList_foldl_turnPath inner, toList_itemPath]
  rfl

/-! ### Paths can be followed -/

/-- The turns behind a name open with a character that is in no name. -/
theorem stop_flatMap_suffix (turns : List Turn) :
    ∀ c ∈ (turns.flatMap Turn.suffix).head?, continuesIdentifier c = false := by
  intro c member
  cases turns with
  | nil => cases member
  | cons turn rest =>
      cases turn with
      | field name =>
          cases member
          decide
      | item i =>
          cases member
          decide

theorem item_suffix_inj {i i' : Nat} {rest rest' : List Char}
    (same : (Turn.item i).suffix ++ rest = (Turn.item i').suffix ++ rest') :
    i = i' ∧ rest = rest' := by
  simp only [Turn.suffix, List.cons_append, List.append_assoc,
    List.cons.injEq, true_and] at same
  obtain ⟨digits, behind⟩ := List.append_inj_of_stop (Decimal.isDigit_toDigits i)
    (Decimal.isDigit_toDigits i') (by simp) (by simp) same
  refine ⟨?_, (List.cons.inj behind).2⟩
  calc i = Decimal.digitsValue (Nat.toDigits 10 i) := (Decimal.digitsValue_toDigits i).symm
    _ = Decimal.digitsValue (Nat.toDigits 10 i') := by rw [digits]
    _ = i' := Decimal.digitsValue_toDigits i'

theorem flatMap_suffix_inj {turns turns' : List Turn} (named : Named turns) (named' : Named turns')
    (same : turns.flatMap Turn.suffix = turns'.flatMap Turn.suffix) : turns = turns' := by
  induction turns generalizing turns' with
  | nil =>
      cases turns' with
      | nil => rfl
      | cons turn' rest' => cases turn' <;> simp [Turn.suffix] at same
  | cons turn rest ih =>
      cases turns' with
      | nil => cases turn <;> simp [Turn.suffix] at same
      | cons turn' rest' =>
          obtain ⟨first, others⟩ := named_cons_iff.1 named
          obtain ⟨first', others'⟩ := named_cons_iff.1 named'
          rw [List.flatMap_cons, List.flatMap_cons] at same
          -- the character that opens a turn tells its kind
          cases turn with
          | field name =>
              cases turn' with
              | field name' =>
                  rw [Turn.suffix, Turn.suffix, List.cons_append, List.cons_append,
                    List.cons.injEq] at same
                  obtain ⟨names, behind⟩ := List.append_inj_of_stop
                    (continuesIdentifier_of_isIdentifier (first name rfl)).2
                    (continuesIdentifier_of_isIdentifier (first' name' rfl)).2
                    (stop_flatMap_suffix rest) (stop_flatMap_suffix rest') same.2
                  rw [String.toList_inj.1 names, ih others others' behind]
              | item i' => simp [Turn.suffix] at same
          | item i =>
              cases turn' with
              | field name' => simp [Turn.suffix] at same
              | item i' =>
                  obtain ⟨rfl, behind⟩ := item_suffix_inj same
                  rw [ih others others' behind]

theorem pathOf_ne_root {turn : Turn} {rest : List Turn} (named : Named (turn :: rest)) :
    pathOf (turn :: rest) ≠ rootPath := by
  intro same
  have chars : (pathOf (turn :: rest)).toList = ['$'] := by
    rw [same]
    rfl
  cases turn with
  | field name =>
      have identifier := named name List.mem_cons_self
      rw [toList_pathOf_field identifier] at chars
      exact append_ne_dollar identifier _ [] chars
  | item i =>
      rw [toList_pathOf_item] at chars
      simp [Turn.suffix] at chars

/-- Places with the same path are the same. -/
theorem pathOf_inj {turns turns' : List Turn} (named : Named turns) (named' : Named turns')
    (same : pathOf turns = pathOf turns') : turns = turns' := by
  cases turns with
  | nil =>
      cases turns' with
      | nil => rfl
      | cons turn' rest' => exact absurd same.symm (pathOf_ne_root named')
  | cons turn rest =>
      cases turns' with
      | nil => exact absurd same (pathOf_ne_root named)
      | cons turn' rest' =>
          have chars := congrArg String.toList same
          obtain ⟨first, others⟩ := named_cons_iff.1 named
          obtain ⟨first', others'⟩ := named_cons_iff.1 named'
          cases turn with
          | field name =>
              rw [toList_pathOf_field (first name rfl)] at chars
              cases turn' with
              | field name' =>
                  rw [toList_pathOf_field (first' name' rfl)] at chars
                  obtain ⟨names, behind⟩ := List.append_inj_of_stop
                    (continuesIdentifier_of_isIdentifier (first name rfl)).2
                    (continuesIdentifier_of_isIdentifier (first' name' rfl)).2
                    (stop_flatMap_suffix rest) (stop_flatMap_suffix rest') chars
                  rw [String.toList_inj.1 names, flatMap_suffix_inj others others' behind]
              | item i' =>
                  rw [toList_pathOf_item] at chars
                  exact absurd chars (append_ne_dollar (first name rfl) _ _)
          | item i =>
              rw [toList_pathOf_item] at chars
              cases turn' with
              | field name' =>
                  rw [toList_pathOf_field (first' name' rfl)] at chars
                  exact absurd chars.symm (append_ne_dollar (first' name' rfl) _ _)
              | item i' =>
                  rw [toList_pathOf_item] at chars
                  exact flatMap_suffix_inj named named' (List.cons.inj chars).2

/-! ### What stands at a place -/

/-- What stands at a place: a part of the value, under its schema, or nothing where there should be
a field of a schema. -/
inductive Spot where
  | part (schema : Schema) (v : Json)
  | absent (schema : Schema)

/-- What turns lead to in a value and its schema. -/
inductive Leads : Schema → Json → List Turn → Spot → Prop
  | here (schema : Schema) (v : Json) : Leads schema v [] (.part schema v)
  | field {objectName name : String} {fields : List (String × Schema)}
      {members : List (String × Json)} {schema : Schema} {v : Json} {rest : List Turn}
      {spot : Spot} (declared : (name, schema) ∈ fields)
      (found : Keyed.get? name members = some v) (later : Leads schema v rest spot) :
      Leads (.object objectName fields) (.obj members) (.field name :: rest) spot
  | absent {objectName name : String} {fields : List (String × Schema)}
      {members : List (String × Json)} {schema : Schema} (declared : (name, schema) ∈ fields)
      (missing : Keyed.get? name members = none) :
      Leads (.object objectName fields) (.obj members) [.field name] (.absent schema)
  | item {items : Schema} {elements : List Json} {i : Nat} {v : Json} {rest : List Turn}
      {spot : Spot} (found : elements[i]? = some v) (later : Leads items v rest spot) :
      Leads (.list items) (.arr elements) (.item i :: rest) spot

/-- The fields on the way are those of schemas. -/
theorem Leads.named {schema : Schema} {v : Json} {turns : List Turn} {spot : Spot}
    (h : Leads schema v turns spot) (named : schema.Named) : Named turns := by
  induction h with
  | here => exact nofun
  | field declared found later ih =>
      obtain ⟨identifier, inner⟩ := Schema.fieldsNamed_iff.1 named _ declared
      refine named_cons_iff.2 ⟨?_, ih inner⟩
      rintro _ ⟨⟩
      exact identifier
  | absent declared missing =>
      obtain ⟨identifier, -⟩ := Schema.fieldsNamed_iff.1 named _ declared
      refine named_cons_iff.2 ⟨?_, nofun⟩
      rintro _ ⟨⟩
      exact identifier
  | item found later ih => exact named_cons_iff.2 ⟨nofun, ih named⟩

end Response

end RecordInference
