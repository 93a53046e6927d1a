import RecordInference.Builder.Shape
import RecordInference.Proofs.Json.Acceptance

/-!
# Documents of shapes

A document gives a shape a name and fields (`Shape.Document`, by the grammar of JSON alone): its
members may come in any order and spelling, with others among them that say nothing. All members are
read, those that say nothing for their form only (`reads_document`), so a shape is built from the name
and from what stands last under each name of a field (`ofDocument_eq`).
-/

set_option autoImplicit false

namespace RecordInference.Shape

open Json (Quoted Enclosed Pair Form Spaces Reads Takes Ends)

/-! ### Documents -/

/-- The spellings of what a document says of a field. -/
inductive FieldEntry.Spelled : FieldEntry → List Char → Prop
  | word {type : String} {w : List Char} (quoted : Quoted type w) : Spelled (.word type) w
  | values {values : List String} {w : List Char} (enclosed : Enclosed ']' Quoted values w) :
      Spelled (.values values) ('[' :: w)

/-- What stands under a name of a document. -/
inductive Part where
  | title (name : String)
  | fields (entries : List (String × FieldEntry))
  | other

/-- The name under which a part stands. -/
def Part.Under (name : String) : Part → Prop
  | .title _ => name = "name"
  | .fields _ => name = "fields"
  | .other => name ≠ "name" ∧ name ≠ "fields"

/-- The spellings of a part. -/
inductive Part.Spelled : Part → List Char → Prop
  | title {name : String} {w : List Char} (quoted : Quoted name w) : Spelled (.title name) w
  | fields {entries : List (String × FieldEntry)} {w : List Char}
      (enclosed : Enclosed '}' (Pair Quoted FieldEntry.Spelled) entries w) :
      Spelled (.fields entries) ('{' :: w)
  | other {n : Nat} {w : List Char} (form : Form n () w) : Spelled .other w

/-- The spellings of a part with its name. -/
def Part.Named (m : String × Part) (w : List Char) : Prop :=
  m.2.Under m.1 ∧ Pair Quoted Part.Spelled m w

/-- The texts that are a document with a name and with fields: an object with one member for each of
the two. -/
inductive Document (name : String) (entries : List (String × FieldEntry)) : String → Prop
  | object {parts : List (String × Part)} {before w after : List Char} (blank : Spaces before)
      (blank' : Spaces after) (enclosed : Enclosed '}' Part.Named parts w)
      (title : parts.filter (fun m => m.1 = "name") = [("name", .title name)])
      (fields : parts.filter (fun m => m.1 = "fields") = [("fields", .fields entries)]) :
      Document name entries (String.ofList (before ++ ('{' :: w ++ after)))

/-! ### What is read of a document -/

/-- The value of an entry. -/
def FieldEntry.json : FieldEntry → Json
  | .word type => .str type
  | .values texts => .arr (texts.map .str)

/-- The value that is read of a part. -/
def Part.json : Part → Json
  | .title name => .str name
  | .fields entries => .obj (entries.map fun e => (e.1, e.2.json))
  | .other => .null

/-- Whether a member is asked for. -/
def wanted (name : String) : Bool := name = "name" || name = "fields"

section

variable {bs w rest : List Char} {depth : Nat}

theorem value_eq (depth : Nat) :
    ∃ items entries, Json.value depth = Json.valueWith Json.scalar items entries := by
  cases depth with
  | zero => exact ⟨_, _, rfl⟩
  | succ depth => exact ⟨_, _, rfl⟩

theorem reads_quoted {s : String} (quoted : Quoted s w) (blank : Spaces bs) :
    Reads (Json.value depth) (bs ++ (w ++ rest)) (.str s) rest := by
  obtain ⟨letters⟩ := quoted
  obtain ⟨shorter, read⟩ := Json.reads_stringBody letters rest
  obtain ⟨items, entries, eq⟩ := value_eq depth
  rw [eq, List.cons_append, List.append_assoc, List.singleton_append]
  refine Json.reads_valueWith_scalar blank rfl (by decide) (by decide)
    ⟨Nat.lt_succ_of_lt shorter, ?_⟩
  simp only [Json.scalar, read]
  rw [if_neg (by decide), if_neg (by decide), if_neg (by decide), if_pos trivial,
    String.ofList_toList]

theorem opens_quoted {s : String} (quoted : Quoted s w) : Json.Opens w := by
  cases quoted
  exact ⟨_, _, rfl, rfl, by decide, by decide⟩

theorem opens_pair {κ α : Type} {name : κ → List Char → Prop} {value : α → List Char → Prop}
    {m : κ × α} (pair : Pair name value m w)
    (opens : ∀ {k w}, name k w → Json.Opens w) : Json.Opens w := by
  obtain @⟨k, a, wk, wv, after, before, named, -, -, -⟩ := pair
  obtain ⟨c, tail, rfl, opens⟩ := opens named
  exact ⟨c, _, rfl, opens⟩

/-- The name of a member is read behind its opening quote. -/
theorem reads_text {s : String} (quoted : Quoted s w) :
    ∃ tail, w = '"' :: tail ∧ ∀ rest, Reads Json.text (tail ++ rest) s rest := by
  obtain ⟨letters⟩ := quoted
  refine ⟨_, rfl, fun rest => ?_⟩
  have read := (Json.reads_stringBody letters rest).map String.ofList
  rw [String.ofList_toList] at read
  rw [List.append_assoc]
  exact read

/-- An entry is read where as many brackets may be open as it has characters. -/
theorem reads_entry {e : FieldEntry} (spelled : e.Spelled w) (short : w.length ≤ depth)
    (blank : Spaces bs) : Reads (Json.value depth) (bs ++ (w ++ rest)) e.json rest := by
  cases spelled with
  | word quoted => exact reads_quoted quoted blank
  | values enclosed =>
      -- the bracket in front of the values is one more that is open
      obtain ⟨depth, rfl⟩ := Nat.exists_eq_add_of_le' (Nat.lt_of_lt_of_le (Nat.succ_pos _) short)
      have takes : Takes depth Quoted Json.str (Json.value depth) :=
        ⟨opens_quoted, fun quoted _ _ => reads_quoted quoted Json.spaces_nil⟩
      have read := (Json.collects_list (Json.value depth)).reads_enclosed (Or.inl rfl) takes enclosed
        (Nat.le_of_succ_le_succ short) rest
      exact Json.reads_valueWith_list blank (read.map Json.arr)

/-- The fields of a document are read in their order, repeated names included. -/
theorem reads_fields {entries : List (String × FieldEntry)}
    (enclosed : Enclosed '}' (Pair Quoted FieldEntry.Spelled) entries w) (short : w.length < depth)
    (blank : Spaces bs) : Reads (Json.value depth) (bs ++ ('{' :: w ++ rest))
      (.obj (entries.map fun e => (e.1, e.2.json))) rest := by
  obtain ⟨depth, rfl⟩ := Nat.exists_eq_add_of_le' (Nat.lt_of_le_of_lt (Nat.zero_le _) short)
  have takes : Takes w.length (Pair Quoted FieldEntry.Spelled) (fun e => (e.1, e.2.json))
      (Json.member Json.text fun _ => Json.value depth) := by
    refine ⟨fun pair => opens_pair pair opens_quoted, fun pair fits ends => ?_⟩
    exact Json.reads_pair pair reads_text fun spelled le blank =>
      reads_entry spelled (by omega) blank
  have read := (Json.collects_object Json.text fun _ => Json.value depth).reads_enclosed
    (Or.inr rfl) takes enclosed (Nat.le_refl _) rest
  exact Json.reads_valueWith_object blank (read.map Json.obj)

/-- A part is read as a value if it is asked for, and else for its form. -/
theorem reads_part {name : String} {p : Part} (under : p.Under name) (spelled : p.Spelled w)
    (short : w.length ≤ depth) (blank : Spaces bs) (ends : Ends rest) :
    Reads (if wanted name then Json.value depth else Json.ignored depth) (bs ++ (w ++ rest)) p.json
      rest := by
  cases spelled with
  | title quoted =>
      cases under
      exact reads_quoted quoted blank
  | fields enclosed =>
      cases under
      exact reads_fields enclosed short blank
  | other form =>
      have unwanted : ¬ wanted name = true := by simpa [wanted, Part.Under] using under
      rw [if_neg unwanted]
      exact (Json.reads_outline form short blank ends).map fun _ => Json.null

/-- The whole of a document is read, with the parts that are not asked for as nothing. -/
theorem reads_document {parts : List (String × Part)} (blank : Spaces bs)
    (enclosed : Enclosed '}' Part.Named parts w) (short : w.length ≤ depth) (blank' : Spaces rest) :
    Json.readMembers wanted depth (bs ++ ('{' :: w ++ rest)) =
      .ok (.obj (parts.map fun m => (m.1, m.2.json))) := by
  have takes : Takes w.length Part.Named (fun m => (m.1, m.2.json)) (Json.member Json.text
      fun name => if wanted name then Json.value depth else Json.ignored depth) := by
    refine ⟨fun named => opens_pair named.2 opens_quoted, fun {m} w rest named fits ends => ?_⟩
    obtain ⟨under, pair⟩ := named
    exact Json.reads_pair pair reads_text fun spelled le blank =>
      reads_part under spelled (by omega) blank ends
  have read := (Json.collects_object Json.text _).reads_enclosed (Or.inr rfl) takes enclosed
    (Nat.le_refl _) rest
  have whole : Reads (Json.valueWith Json.scalar (Json.array (Json.value depth)) (Json.record
      fun name => if wanted name then Json.value depth else Json.ignored depth))
      (bs ++ ('{' :: w ++ rest)) (.obj (parts.map fun m => (m.1, m.2.json))) rest :=
    Json.reads_valueWith_object blank (read.map Json.obj)
  obtain ⟨shorter, read⟩ := whole
  have nothing : Json.skip rest = [] := by
    have skipped := Json.skip_append blank' []
    rwa [List.append_nil] at skipped
  rw [Json.readMembers, Json.readWith, read]
  dsimp only
  rw [nothing]

end

/-! ### What a document says -/

theorem texts?_map_str (texts : List String) : texts? (texts.map .str) = some texts := by
  induction texts with
  | nil => rfl
  | cons text texts ih =>
      rw [List.map_cons, texts?, ih]
      rfl

theorem FieldEntry.ofJson?_json (e : FieldEntry) : ofJson? e.json = some e := by
  cases e with
  | word type => rfl
  | values texts =>
      rw [json, ofJson?, texts?_map_str]
      rfl

theorem entries?_map_json (entries : List (String × FieldEntry)) :
    entries? (entries.map fun e => (e.1, e.2.json)) = some entries := by
  induction entries with
  | nil => rfl
  | cons e entries ih =>
      rw [List.map_cons, entries?, e.2.ofJson?_json, ih]
      rfl

theorem only?_map_json {name : String} {parts : List (String × Part)} {p : Part}
    (single : parts.filter (fun m => m.1 = name) = [(name, p)]) :
    only? name (parts.map fun m => (m.1, m.2.json)) = some p.json := by
  have filtered : (parts.map fun m => (m.1, m.2.json)).filter (fun m => m.1 = name) =
      [(name, p.json)] := by
    rw [List.filter_map]
    exact congrArg (List.map fun m : String × Part => (m.1, m.2.json)) single
  rw [only?, filtered]

/-- A document says its name and, for each name of a field, what stands last under it. -/
theorem ofDocument_eq {text name : String} {entries : List (String × FieldEntry)}
    (document : Document name entries text) :
    ofDocument text = callsOf (Keyed.ofList entries) >>= build name := by
  obtain @⟨parts, before, w, after, blank, blank', enclosed, title, fields⟩ := document
  -- as many brackets may be open as the whole text has characters
  have short : w.length ≤ (String.ofList (before ++ ('{' :: w ++ after))).length := by
    rw [← String.length_toList, String.toList_ofList]
    simp only [List.length_append, List.length_cons]
    omega
  have read : Json.readMembers (fun name => name = "name" || name = "fields") _ _ = _ :=
    reads_document blank enclosed short blank'
  have said : document? (.obj (parts.map fun m => (m.1, m.2.json))) =
      some (name, Keyed.ofList entries) := by
    rw [document?, only?_map_json title, only?_map_json fields]
    simp only [Part.json, entries?_map_json, Option.map_some]
  rw [ofDocument, String.toList_ofList]
  simp only [read, said]

end RecordInference.Shape
