import RecordInference.Prompt.Instructions
import RecordInference.Proofs.Declaration.Listing
import RecordInference.Proofs.Declaration.Regularity
import RecordInference.Proofs.Schema.Correctness

/-!
# What the instructions tell of an object

The instructions for an extraction tell the shape of the object that is asked for: of two objects
that come from declarations they are the same exactly if the objects differ in no more than the
names of their definitions (`text_extract_inj_iff`). So a model is told all fields in their order,
the fields of their objects, all types, and the values to choose from.

The line about a field says of what kind the field is (`Kind`), and the lines about the fields of
an object stand below it, further in. A line has one reading (`fieldLine_inj`), since names are
identifiers: the blanks in front end at the dash, and the name ends at the colon. The lines about a
field and those behind it are told apart by how far in they stand (`Outside`), so that lines about
fields have one reading, with whatever follows them (`describeAll_append_inj`).
-/

set_option autoImplicit false

namespace RecordInference

open Text Declaration

/-! ### Shapes without names of definitions -/

namespace Schema

mutual

/-- The schema with the names of its definitions left out. -/
def anonymous : Schema → Schema
  | text => text
  | money => money
  | number => number
  | yesNo => yesNo
  | oneOf values => oneOf values
  | list items => list items.anonymous
  | object _ fields => object "" (anonymousFields fields)

/-- The fields, with the names of the definitions in them left out. -/
def anonymousFields : List (String × Schema) → List (String × Schema)
  | [] => []
  | (name, schema) :: rest => (name, schema.anonymous) :: anonymousFields rest

end

end Schema

namespace Instructions

open Schema

/-! ### Kinds of fields -/

/-- What the line about a field says of it, apart from what stands in the lines below. -/
inductive Kind where
  | text
  | money
  | number
  | yesNo
  | oneOf (values : List String)
  | object
  | objects
deriving DecidableEq, Repr

namespace Kind

/-- The words for a kind. -/
def words : Kind → String
  | text => "text string"
  | money => "numeric amount (number only, no currency symbol)"
  | number => "numeric value"
  | yesNo => "true or false"
  | oneOf values => "MUST be exactly one of: " ++ ", ".intercalate values
  | object => "object with fields:"
  | objects => "list of objects, each with fields:"

/-- Whether the values of a kind can be chosen from. -/
def Regular : Kind → Prop
  | oneOf values => IsChoice values
  | _ => True

/-- The shape of a kind, with what its objects have as fields. -/
def shape (inner : List (String × Schema)) : Kind → Schema
  | text => .text
  | money => .money
  | number => .number
  | yesNo => .yesNo
  | oneOf values => .oneOf values
  | object => .object "" inner
  | objects => .list (.object "" inner)

end Kind

/-- The kind of a field, except for lists of anything but objects. -/
def kind? : Schema → Option Kind
  | .text => some .text
  | .money => some .money
  | .number => some .number
  | .yesNo => some .yesNo
  | .oneOf values => some (.oneOf values)
  | .object _ _ => some .object
  | .list (.object _ _) => some .objects
  | .list _ => none

/-- The fields that the lines below the line about a field are about. -/
def inner : Schema → List (String × Schema)
  | .object _ fields => fields
  | .list (.object _ fields) => fields
  | _ => []

section

variable {schema : Schema} {kind : Kind}

theorem describe_eq_cons (told : kind? schema = some kind) (depth : Nat) (name : String) :
    describe depth name schema =
      fieldLine depth name kind.words :: describeAll (depth + 1) (inner schema) := by
  cases schema with
  | text | money | number | yesNo | oneOf values =>
      cases told
      rw [describe, show inner _ = [] from rfl, describeAll]
      rfl
  | object title fields =>
      cases told
      rw [describe]
      rfl
  | list items =>
      cases items with
      | object title fields =>
          cases told
          rw [describe]
          rfl
      | text | money | number | yesNo | oneOf | list => cases told

/-- Without the names of definitions a schema is its kind and the fields of its objects. -/
theorem anonymous_eq_shape (told : kind? schema = some kind) :
    schema.anonymous = kind.shape (anonymousFields (inner schema)) := by
  cases schema with
  | text | money | number | yesNo | oneOf values =>
      cases told
      rfl
  | object title fields =>
      cases told
      rfl
  | list items =>
      cases items with
      | object title fields =>
          cases told
          rfl
      | text | money | number | yesNo | oneOf | list => cases told

end

theorem kind?_anonymous (schema : Schema) : kind? schema.anonymous = kind? schema := by
  cases schema with
  | text | money | number | yesNo | oneOf | object => rfl
  | list items =>
      cases items with
      | text | money | number | yesNo | oneOf | list | object => rfl

theorem inner_anonymous (schema : Schema) :
    inner schema.anonymous = anonymousFields (inner schema) := by
  cases schema with
  | text | money | number | yesNo | oneOf | object => rfl
  | list items =>
      cases items with
      | text | money | number | yesNo | oneOf | list | object => rfl

/-! ### One reading for the words -/

theorem intercalate_inj {values values' : List String} (choice : IsChoice values)
    (choice' : IsChoice values')
    (same : ", ".intercalate values = ", ".intercalate values') : values = values' := by
  -- in brackets both are lists that are read again
  have listed : bracketed values = bracketed values' := by rw [bracketed, same, ← bracketed]
  have read := readList_of_listed choice.isEnumeration (listed_bracketed choice.some)
  rw [listed, readList_of_listed choice'.isEnumeration (listed_bracketed choice'.some)] at read
  exact (Except.ok.inj read).symm

theorem head?_words_iff {kind : Kind} :
    kind.words.toList.head? = some 'M' ↔ ∃ values, kind = .oneOf values := by
  cases kind with
  | oneOf values =>
      refine ⟨fun _ => ⟨values, rfl⟩, fun _ => ?_⟩
      show ("MUST be exactly one of: " ++ ", ".intercalate values).toList.head? = some 'M'
      rw [String.toList_append]
      rfl
  | text | money | number | yesNo | object | objects =>
      exact ⟨fun other => absurd other (by decide +kernel), nofun⟩

theorem words_inj {kind kind' : Kind} (regular : kind.Regular) (regular' : kind'.Regular)
    (same : kind.words = kind'.words) : kind = kind' := by
  -- no other words begin with the letter that those for values begin with
  have first : (∃ values, kind = .oneOf values) ↔ ∃ values, kind' = .oneOf values := by
    rw [← head?_words_iff, ← head?_words_iff, same]
  cases kind with
  | oneOf values =>
      obtain ⟨values', rfl⟩ := first.1 ⟨values, rfl⟩
      have same : ", ".intercalate values = ", ".intercalate values' :=
        (String.append_right_inj _).1 same
      rw [intercalate_inj regular regular' same]
  | text | money | number | yesNo | object | objects =>
      cases kind' with
      | oneOf values' => exact absurd (first.2 ⟨values', rfl⟩) nofun
      | text | money | number | yesNo | object | objects =>
          revert same
          decide

/-! ### One reading for a line -/

theorem toList_fieldLine (depth : Nat) (name words : String) : (fieldLine depth name words).toList =
    List.replicate (2 * depth) ' ' ++ '-' :: ' ' :: (name.toList ++ ':' :: ' ' :: words.toList) := by
  simp [fieldLine, indent]

/-- The blanks in front of a line, the name in it and the words behind the name are read off. -/
theorem fieldLine_inj {depth depth' : Nat} {name name' words words' : String}
    (identifier : isIdentifier name.toList = true) (identifier' : isIdentifier name'.toList = true)
    (same : fieldLine depth name words = fieldLine depth' name' words') :
    depth = depth' ∧ name = name' ∧ words = words' := by
  have characters := congrArg String.toList same
  rw [toList_fieldLine, toList_fieldLine] at characters
  have blank : ∀ n, ∀ c ∈ List.replicate n ' ', (c == ' ') = true := by
    intro n c member
    rw [List.eq_of_mem_replicate member, beq_self_eq_true]
  -- the blanks go on until the dash
  obtain ⟨indents, behind⟩ := List.append_inj_of_stop (blank _) (blank _) (by simp) (by simp)
    characters
  have indents := congrArg List.length indents
  rw [List.length_replicate, List.length_replicate] at indents
  -- and the name goes on until the colon
  have behind := List.tail_eq_of_cons_eq (List.tail_eq_of_cons_eq behind)
  have colon : ∀ cs : List Char, ∀ c ∈ (':' :: cs).head?, isNameChar c = false := by
    rintro cs c ⟨⟩
    decide
  obtain ⟨names, behind⟩ := List.append_inj_of_stop (isNameChar_of_isIdentifier identifier).2
    (isNameChar_of_isIdentifier identifier').2 (colon _) (colon _) behind
  have behind := List.tail_eq_of_cons_eq (List.tail_eq_of_cons_eq behind)
  exact ⟨by omega, String.toList_inj.1 names, String.toList_inj.1 behind⟩

theorem not_mem_fieldLine {depth : Nat} {name words : String}
    (identifier : isIdentifier name.toList = true) (whole : '\n' ∉ words.toList) :
    '\n' ∉ (fieldLine depth name words).toList := by
  have apart := (oneLine_of_isIdentifier identifier).2
  simp [toList_fieldLine, apart, whole]

theorem not_mem_words {kind : Kind} (regular : kind.Regular) : '\n' ∉ kind.words.toList := by
  cases kind with
  | oneOf values =>
      have listed := (oneLine_bracketed regular).2
      show '\n' ∉ ("MUST be exactly one of: " ++ ", ".intercalate values).toList
      rw [String.toList_append, List.mem_append, not_or]
      refine ⟨by decide +kernel, fun ending => listed ?_⟩
      rw [bracketed, String.toList_append, String.toList_append]
      exact List.mem_append_left _ (List.mem_append_right _ ending)
  | text | money | number | yesNo | object | objects => decide +kernel

/-! ### One reading for the lines -/

/-- Fields with identifiers as names, each of a kind whose values can be chosen from, and with such
fields in its objects. -/
inductive Describable : List (String × Schema) → Prop
  | nil : Describable []
  | cons {name : String} {schema : Schema} {kind : Kind} {rest : List (String × Schema)} :
      isIdentifier name.toList = true → kind? schema = some kind → kind.Regular →
      Describable (inner schema) → Describable rest → Describable ((name, schema) :: rest)

theorem describable_iff {fields : List (String × Schema)} : Describable fields ↔
    ∀ f ∈ fields, isIdentifier f.1.toList = true ∧
      ∃ kind, kind? f.2 = some kind ∧ kind.Regular ∧ Describable (inner f.2) := by
  induction fields with
  | nil => exact ⟨fun _ => List.forall_mem_nil _, fun _ => .nil⟩
  | cons f rest ih =>
      rw [List.forall_mem_cons, ← ih]
      constructor
      · rintro (_ | ⟨identifier, told, regular, inside, others⟩)
        exact ⟨⟨identifier, _, told, regular, inside⟩, others⟩
      · rintro ⟨⟨identifier, kind, told, regular, inside⟩, others⟩
        exact .cons identifier told regular inside others

/-- Lines that do not go on with a field at a depth, or one further in. -/
def Outside (depth : Nat) (lines : List String) : Prop :=
  ∀ line ∈ lines.head?, ∀ depth' name words, isIdentifier name.toList = true →
    line = fieldLine depth' name words → depth' < depth

section

variable {name : String} {schema : Schema} {kind : Kind} (told : kind? schema = some kind)
  (depth : Nat) (rest : List (String × Schema))

include told

theorem describeAll_cons : describeAll depth ((name, schema) :: rest) =
    fieldLine depth name kind.words ::
      (describeAll (depth + 1) (inner schema) ++ describeAll depth rest) := by
  rw [describeAll, describe_eq_cons told, List.cons_append]

/-- The lines behind fields are not about one more field. -/
theorem Outside.ne_describeAll {behind : List String} (outside : Outside depth behind)
    (identifier : isIdentifier name.toList = true) (behind' : List String) :
    behind ≠ describeAll depth ((name, schema) :: rest) ++ behind' := by
  rintro rfl
  rw [describeAll_cons told] at outside
  exact Nat.lt_irrefl depth (outside _ rfl depth name kind.words identifier rfl)

end

/-- The lines about fields are not further in than they are. -/
theorem outside_describeAll {fields : List (String × Schema)} (describable : Describable fields)
    {depth : Nat} {behind : List String} (outside : Outside depth behind) :
    Outside (depth + 1) (describeAll depth fields ++ behind) := by
  cases describable with
  | nil =>
      intro line member depth' name words identifier same
      exact Nat.lt_succ_of_lt (outside line member depth' name words identifier same)
  | cons own told regular inside others =>
      rw [describeAll_cons told]
      rintro line ⟨⟩ depth' name words identifier same
      rw [← (fieldLine_inj own identifier same).1]
      exact Nat.lt_succ_self depth

/-- The lines about fields tell the fields, and where these lines end. -/
theorem describeAll_append_inj {fields fields' : List (String × Schema)}
    (describable : Describable fields) (describable' : Describable fields') {depth : Nat}
    {behind behind' : List String} (outside : Outside depth behind)
    (outside' : Outside depth behind')
    (same : describeAll depth fields ++ behind = describeAll depth fields' ++ behind') :
    anonymousFields fields = anonymousFields fields' ∧ behind = behind' := by
  -- the line about the first field is read, then those about what is in it, then the other fields
  induction describable generalizing fields' depth behind behind' with
  | nil =>
      cases describable' with
      | nil => exact ⟨rfl, same⟩
      | cons identifier' told' =>
          exact absurd same (outside.ne_describeAll told' _ _ identifier' _)
  | @cons name schema kind rest identifier told regular inside others insideIh othersIh =>
      cases describable' with
      | nil => exact absurd same.symm (outside'.ne_describeAll told _ _ identifier _)
      | @cons name' schema' kind' rest' identifier' told' regular' inside' others' =>
          rw [describeAll_cons told, describeAll_cons told', List.cons_append, List.cons_append,
            List.append_assoc, List.append_assoc, List.cons.injEq] at same
          obtain ⟨first, lines⟩ := same
          obtain ⟨-, rfl, words⟩ := fieldLine_inj identifier identifier' first
          obtain rfl := words_inj regular regular' words
          -- the lines further in end where the line about the next field begins
          obtain ⟨below, lines⟩ := insideIh inside' (outside_describeAll others outside)
            (outside_describeAll others' outside') lines
          obtain ⟨next, lines⟩ := othersIh others' outside outside' lines
          refine ⟨?_, lines⟩
          rw [anonymousFields, anonymousFields, anonymous_eq_shape told, anonymous_eq_shape told',
            below, next]

/-- The names of definitions are not told. -/
theorem describeAll_anonymousFields {fields : List (String × Schema)}
    (describable : Describable fields) (depth : Nat) :
    describeAll depth (anonymousFields fields) = describeAll depth fields := by
  induction describable generalizing depth with
  | nil => rfl
  | @cons name schema kind rest identifier told regular inside others insideIh othersIh =>
      have told' : kind? schema.anonymous = some kind := by rw [kind?_anonymous, told]
      rw [anonymousFields, describeAll_cons told', describeAll_cons told, inner_anonymous, insideIh,
        othersIh]

/-! ### One reading for the text -/

theorem not_mem_describeAll {fields : List (String × Schema)} (describable : Describable fields)
    (depth : Nat) : ∀ line ∈ describeAll depth fields, '\n' ∉ line.toList := by
  induction describable generalizing depth with
  | nil => exact List.forall_mem_nil _
  | cons identifier told regular inside others insideIh othersIh =>
      rw [describeAll_cons told]
      refine List.forall_mem_cons.2 ⟨not_mem_fieldLine identifier (not_mem_words regular), ?_⟩
      exact List.forall_mem_append.2 ⟨insideIh (depth + 1), othersIh depth⟩

/-- Lines are split where they were joined. -/
theorem lines_inj {ls ls' : List String} (some : ls ≠ []) (some' : ls' ≠ [])
    (whole : ∀ line ∈ ls, '\n' ∉ line.toList) (whole' : ∀ line ∈ ls', '\n' ∉ line.toList)
    (same : "\n".intercalate ls = "\n".intercalate ls') : ls = ls' := by
  have split : ∀ {ls : List String}, ls ≠ [] → (∀ line ∈ ls, '\n' ∉ line.toList) →
      splitOn '\n' ("\n".intercalate ls).toList = ls.map String.toList := by
    intro ls some whole
    rw [String.toList_intercalate]
    refine splitOn_intercalate (fun none => some (List.map_eq_nil_iff.1 none)) ?_
    exact List.forall_mem_map.2 whole
  have pieces := split some whole
  rw [same, split some' whole'] at pieces
  exact (List.map_injective_iff.2 (fun _ _ => String.toList_injective) pieces).symm

/-- The instructions for an object tell its fields. -/
theorem text_extract_object_inj_iff {fields fields' : List (String × Schema)}
    (describable : Describable fields) (describable' : Describable fields')
    (target target' title title' : String) :
    text .extract target (.object title fields) = text .extract target' (.object title' fields') ↔
      anonymousFields fields = anonymousFields fields' := by
  -- all lines are single ones, so they are read off the text
  have whole : ∀ {fields : List (String × Schema)} {title : String}, Describable fields →
      ∀ line ∈ lines .extract target (.object title fields), '\n' ∉ line.toList := by
    intro fields title describable
    have front : ∀ line ∈ ["Extract the following fields from the input text.",
        "Return a JSON object with EXACTLY these fields:", ""], '\n' ∉ line.toList := by
      decide +kernel
    have last : ∀ line ∈ ["", jsonOnly], '\n' ∉ line.toList := by decide +kernel
    exact List.forall_mem_append.2 ⟨List.forall_mem_append.2
      ⟨front, not_mem_describeAll describable 0⟩, last⟩
  constructor
  · intro same
    have told : lines .extract target (.object title fields) =
        lines .extract target (.object title' fields') :=
      lines_inj (List.cons_ne_nil _ _) (List.cons_ne_nil _ _) (whole describable)
        (whole describable') same
    -- what stands around the lines about the fields is the same
    have told := List.append_cancel_left (List.append_cancel_right told)
    have ended : Outside 0 [] := nofun
    refine (describeAll_append_inj describable describable' ended ended ?_).1
    rw [List.append_nil, List.append_nil]
    exact told
  · intro same
    have told : describeAll 0 fields = describeAll 0 fields' := by
      rw [← describeAll_anonymousFields describable, same, describeAll_anonymousFields describable']
    show "\n".intercalate (_ ++ describeAll 0 fields ++ _) = _
    rw [told]
    rfl

/-! ### Objects from declarations -/

section

variable {definitions : List Definition} {schemas : Keyed Schema}

/-- A type is expanded to a schema of a kind, with values that can be chosen from where it has some
itself and where the definitions have them. -/
theorem exists_kind_of_expanded (expansion : IsExpansion definitions schemas)
    (regular : ∀ d ∈ definitions, d.Regular) {type : FieldType} {schema : Schema}
    (choice : ∀ values, type = .oneOf values → IsChoice values)
    (expanded : type.expanded? schemas = some schema) :
    ∃ kind, kind? schema = some kind ∧ kind.Regular ∧ Describable (inner schema) := by
  refine expansion.induction (motive := fun type schema =>
    (∀ values, type = .oneOf values → IsChoice values) →
      ∃ kind, kind? schema = some kind ∧ kind.Regular ∧ Describable (inner schema))
    ?_ ?_ ?_ expanded choice
  · intro type schema closed expanded choice
    cases type with
    | text | money | number | yesNo =>
        cases expanded
        exact ⟨_, rfl, trivial, .nil⟩
    | oneOf values =>
        cases expanded
        exact ⟨_, rfl, choice values rfl, .nil⟩
    | object | listOf => cases closed
  · intro d declared fields parts _
    refine ⟨_, rfl, trivial, describable_iff.2 fun f member => ?_⟩
    obtain ⟨field, there, named, part⟩ := parts.exists_left f member
    have whole := (regular d declared).fields field there
    refine ⟨?_, part fun values same => ?_⟩
    · rw [named]
      exact whole.name
    · have type := whole.type
      rw [same] at type
      exact type
  · intro name fields element _
    obtain ⟨kind, -, -, inside⟩ := element nofun
    exact ⟨_, rfl, trivial, inside⟩

end

/-- What a declaration defines are objects with fields that can be told. -/
theorem describable_of_read {declaration : String} {program : Program} {schemas : Keyed Schema}
    (read : read declaration = .ok program)
    (resolved : resolve program.definitions = .ok schemas) {name : String} {schema : Schema}
    (member : (name, schema) ∈ schemas) :
    ∃ title fields, schema = .object title fields ∧ Describable fields := by
  have regular := (Program.regular_of_read read).1
  have expansion := isExpansion_of_resolve resolved
  have distinct : (Keyed.keys schemas).Nodup := by
    rw [expansion.keys]
    exact regular.distinct
  have found := Keyed.get?_of_mem distinct member
  have expanded : (FieldType.object name).expanded? schemas = some schema := found
  have other : ∀ values, FieldType.object name = .oneOf values → IsChoice values := nofun
  obtain ⟨kind, -, -, inside⟩ :=
    exists_kind_of_expanded expansion regular.definitions other expanded
  obtain ⟨d, -, -, fields, rfl, -⟩ := expansion.eq_object found
  exact ⟨_, fields, rfl, inside⟩

/-- The instructions for the extraction of two objects that declarations define are the same exactly
if the objects are, but for the names of definitions: they have the same fields in the same order and
nesting, of the same types, with the same values to choose from in the same order. -/
theorem text_extract_inj_iff {declaration declaration' : String} {program program' : Program}
    {schemas schemas' : Keyed Schema} (read : Declaration.read declaration = .ok program)
    (read' : Declaration.read declaration' = .ok program')
    (resolved : resolve program.definitions = .ok schemas)
    (resolved' : resolve program'.definitions = .ok schemas')
    {name name' : String} {schema schema' : Schema} (member : (name, schema) ∈ schemas)
    (member' : (name', schema') ∈ schemas') (target target' : String) :
    text .extract target schema = text .extract target' schema' ↔
      schema.anonymous = schema'.anonymous := by
  obtain ⟨title, fields, rfl, describable⟩ := describable_of_read read resolved member
  obtain ⟨title', fields', rfl, describable'⟩ := describable_of_read read' resolved' member'
  rw [text_extract_object_inj_iff describable describable', anonymous, anonymous,
    Schema.object.injEq, and_iff_right rfl]

/-- Two declarations of one object under different names are told alike. -/
theorem text_extract_inj_iff_renamed :
    let declaration := "DEFINE claim:
  parts LIST OF part
  kind ONE OF [car, home]
DEFINE part:
  price MONEY
"
    let declaration' := "DEFINE item:
  price MONEY
DEFINE damage:
  parts LIST OF item
  kind ONE OF [ car , home ]
"
    let claim (title title' : String) : Schema := .object title
      [("parts", .list (.object title' [("price", .money)])), ("kind", .oneOf ["car", "home"])]
    ∃ program program' schemas schemas', Declaration.read declaration = .ok program ∧
      Declaration.read declaration' = .ok program' ∧
      resolve program.definitions = .ok schemas ∧ resolve program'.definitions = .ok schemas' ∧
      ("claim", claim "claim" "part") ∈ schemas ∧ ("damage", claim "damage" "item") ∈ schemas' ∧
      text .extract "claim" (claim "claim" "part") =
        text .extract "damage" (claim "damage" "item") := by
  intro declaration declaration' claim
  -- the definitions of both, and the schemas of these
  let definitions : List Definition := [⟨"claim", [⟨"parts", .listOf "part", 2⟩,
    ⟨"kind", .oneOf ["car", "home"], 3⟩], 1⟩, ⟨"part", [⟨"price", .money, 5⟩], 4⟩]
  let definitions' : List Definition := [⟨"item", [⟨"price", .money, 2⟩], 1⟩,
    ⟨"damage", [⟨"parts", .listOf "item", 4⟩, ⟨"kind", .oneOf ["car", "home"], 5⟩], 3⟩]
  let schemas : Keyed Schema :=
    [("claim", claim "claim" "part"), ("part", .object "part" [("price", .money)])]
  let schemas' : Keyed Schema :=
    [("item", .object "item" [("price", .money)]), ("damage", claim "damage" "item")]
  have defined : (Declaration.read declaration).toOption.map (·.definitions) = some definitions := by
    decide +kernel
  have defined' : (Declaration.read declaration').toOption.map (·.definitions) =
      some definitions' := by
    decide +kernel
  obtain ⟨program, taken, same⟩ := Option.map_eq_some_iff.1 defined
  obtain ⟨program', taken', same'⟩ := Option.map_eq_some_iff.1 defined'
  have read := Except.toOption_eq_some_iff.1 taken
  have read' := Except.toOption_eq_some_iff.1 taken'
  have resolved : resolve program.definitions = .ok schemas := by
    rw [same]
    rfl
  have resolved' : resolve program'.definitions = .ok schemas' := by
    rw [same']
    rfl
  have first : ("claim", claim "claim" "part") ∈ schemas := List.mem_cons_self
  have last : ("damage", claim "damage" "item") ∈ schemas' :=
    List.mem_cons_of_mem _ List.mem_cons_self
  exact ⟨program, program', schemas, schemas', read, read', resolved, resolved', first, last,
    (text_extract_inj_iff read read' resolved resolved' first last "claim" "damage").2 rfl⟩

end Instructions

end RecordInference
