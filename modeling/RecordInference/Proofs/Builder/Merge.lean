import RecordInference.Proofs.Builder.Document
import RecordInference.Proofs.Builder.Faults
import RecordInference.Proofs.Json.Spelling
import RecordInference.Proofs.Keyed
import RecordInference.Proofs.Text.Word

/-!
# Documents and calls

Each field of a document asks for a call (`Asks`), so a document and a sequence of calls say the same
thing field by field. What a document builds are not these calls but the calls with the repeated
names merged: the first place of a name, and the last call for it (`ofDocument_eq_build_merged`).

With distinct names there is nothing to merge. With a repeated name the calls are refused, and the
document is never told of it (`ofDocument_eq_build`): in `ofDocument_ne_build` a field is declared
twice, as a text and as an amount of money.
-/

set_option autoImplicit false

namespace RecordInference.Shape

open Json (Quoted Enclosed Pair Form Spaces)

/-! ### Calls -/

/-- The call that a field of a document asks for. -/
inductive Asks : String × FieldEntry → Call → Prop
  | text {name type : String} (word : Text.isWord "TEXT" type.toList = true) :
      Asks (name, .word type) (.text name)
  | money {name type : String} (word : Text.isWord "MONEY" type.toList = true) :
      Asks (name, .word type) (.money name)
  | number {name type : String} (word : Text.isWord "NUMBER" type.toList = true) :
      Asks (name, .word type) (.number name)
  | yesNo {name type : String} (word : Text.isWord "BOOL" type.toList = true) :
      Asks (name, .word type) (.yesNo name)
  | oneOf {name : String} {texts : List String} : Asks (name, .values texts) (.oneOf name texts)

section

variable {e : String × FieldEntry} {call : Call} {entries : List (String × FieldEntry)}
  {calls : List Call}

theorem Asks.name (h : Asks e call) : call.field.name = e.1 := by
  cases h with
  | text | money | number | yesNo | oneOf => rfl

theorem Asks.callOf (h : Asks e call) : callOf e.1 e.2 = .ok call := by
  cases h with
  | oneOf => rfl
  | text word =>
      rw [Shape.callOf, if_pos word]
  | money word =>
      -- a text is the word for one type only
      have other := Text.isWord_of_isWord word
      rw [Shape.callOf, other "TEXT", if_neg (by decide), if_pos word]
  | number word =>
      have other := Text.isWord_of_isWord word
      rw [Shape.callOf, other "TEXT", if_neg (by decide), other "MONEY", if_neg (by decide),
        if_pos word]
  | yesNo word =>
      have other := Text.isWord_of_isWord word
      rw [Shape.callOf, other "TEXT", if_neg (by decide), other "MONEY", if_neg (by decide),
        other "NUMBER", if_neg (by decide), if_pos word]

theorem callsOf_of_asks (asks : List.Forall₂ Asks entries calls) : callsOf entries = .ok calls := by
  induction asks with
  | nil => rfl
  | @cons e call entries calls here others ih =>
      rw [callsOf, here.callOf, ih]
      rfl

/-- The names of the fields that calls add. -/
def fieldNames (calls : List Call) : List String := calls.map fun call => call.field.name

theorem map_name_field (calls : List Call) :
    (calls.map Call.field).map (·.name) = fieldNames calls := by
  rw [List.map_map]
  rfl

/-- Calls with one for each name: in the first place of the name, and the last of its calls. -/
def merged (calls : List Call) : List Call :=
  (fieldNames calls).eraseDups.filterMap fun name =>
    calls.reverse.find? fun call => call.field.name = name

/-- Calls under the names of their fields. -/
def named (calls : List Call) : Keyed Call := calls.map fun call => (call.field.name, call)

theorem keys_named (calls : List Call) : Keyed.keys (named calls) = fieldNames calls := by
  rw [Keyed.keys, named, fieldNames, List.map_map]
  rfl

theorem get?_named (name : String) (calls : List Call) :
    Keyed.get? name (named calls) = calls.find? fun call => call.field.name = name := by
  rw [Keyed.get?_eq_find?, named, List.find?_map, Option.map_map]
  exact congrFun Option.map_id _

/-- Calls that are written one after the other under their names are merged. -/
theorem merged_eq (calls : List Call) :
    merged calls = (Keyed.ofList (named calls)).map (·.2) := by
  rw [Keyed.map_snd_eq (Keyed.nodup_keys_ofList _), Keyed.keys_ofList, keys_named, merged]
  refine List.filterMap_congr fun name _ => ?_
  rw [Keyed.get?_ofList, named, ← List.map_reverse]
  exact (get?_named name calls.reverse).symm

theorem asks_merged (asks : List.Forall₂ Asks entries calls) :
    List.Forall₂ Asks (Keyed.ofList entries) (merged calls) := by
  -- both are merged by name, so an entry stays with the call that it asks for
  have alike : List.Forall₂ (fun e n => e.1 = n.1 ∧ Asks e n.2) entries (named calls) := by
    rw [named, List.forall₂_map_right_iff]
    exact asks.imp fun _ _ h => ⟨h.name.symm, h⟩
  rw [merged_eq, List.forall₂_map_right_iff]
  exact (Keyed.forall₂_ofList (fun _ _ h => h.1) alike).imp fun _ _ h => h.2

/-- A document builds the shape of the merged calls. -/
theorem ofDocument_eq_build_merged {text name : String} (document : Document name entries text)
    (asks : List.Forall₂ Asks entries calls) : ofDocument text = build name (merged calls) := by
  rw [ofDocument_eq document, callsOf_of_asks (asks_merged asks)]
  rfl

end

/-! ### Repeated names -/

section

variable {title : String} {calls : List Call}

/-- Each name is in the place where it came first. -/
theorem fieldNames_merged (calls : List Call) :
    fieldNames (merged calls) = (fieldNames calls).eraseDups := by
  have under : ∀ n ∈ Keyed.ofList (named calls), n.2.field.name = n.1 := by
    intro n member
    obtain ⟨call, -, rfl⟩ := List.mem_map.1 (Keyed.mem_of_mem_ofList member)
    rfl
  rw [merged_eq, ← keys_named calls, ← Keyed.keys_ofList, fieldNames, List.map_map, Keyed.keys]
  exact List.map_congr_left under

theorem nodup_merged (calls : List Call) : (fieldNames (merged calls)).Nodup := by
  rw [fieldNames_merged, ← keys_named, ← Keyed.keys_ofList]
  exact Keyed.nodup_keys_ofList _

theorem mem_of_mem_merged {call : Call} (member : call ∈ merged calls) : call ∈ calls := by
  obtain ⟨name, -, found⟩ := List.mem_filterMap.1 member
  exact List.mem_reverse.1 (List.mem_of_find?_eq_some found)

/-- With distinct names there is nothing to merge. -/
theorem merged_of_nodup (distinct : (fieldNames calls).Nodup) : merged calls = calls := by
  rw [merged_eq, Keyed.ofList_eq_self (by rwa [keys_named]), named, List.map_map]
  exact List.map_id calls

/-- A name that is there already is a fault of a call, and nothing else is told as such. -/
theorem duplicateField_mem_faults_iff {before : List Call} {call : Call} {title' name : String} :
    .duplicateField title' name ∈ call.faults title before ↔
      (title' = title ∧ name = call.field.name) ∧ call.field.name ∈ fieldNames before := by
  have values : .duplicateField title' name ∉ call.valuesFaults := by
    cases call with
    | oneOf =>
        intro member
        obtain ⟨fault, -, eq⟩ := List.mem_map.1 member
        cases eq
    | text | money | number | yesNo | object | listOf => exact List.not_mem_nil
  have handed : .duplicateField title' name ∉
      faultsAlong conflicts (before.flatMap Call.handed) call.handed := by
    intro member
    obtain ⟨front, d, -, -, wrong⟩ := mem_faultsAlong_iff.1 member
    unfold conflicts at wrong
    split at wrong
    · cases List.mem_singleton.1 wrong
    · cases wrong
  have identifier : .duplicateField title' name ∉ nameFaults call.field.name := by
    rw [nameFaults]
    split
    · exact List.not_mem_nil
    · rw [List.mem_singleton]
      intro eq
      cases eq
  rw [Call.faults, fieldFaults, map_name_field, List.mem_append, List.mem_append, List.mem_append]
  simp only [values, handed, identifier, false_or]
  split
  · next old => simp [old]
  · next new => simp [new]

/-- The first name that is repeated. -/
theorem exists_repeated {names : List String} (repeated : ¬ names.Nodup) :
    ∃ front name back, names = front ++ name :: back ∧ front.Nodup ∧ name ∈ front := by
  induction names using List.reverseRecOn with
  | nil => exact absurd List.nodup_nil repeated
  | append_singleton names last ih =>
      -- the last name is the first repeated one exactly if those before it are distinct
      by_cases distinct : names.Nodup
      · refine ⟨names, last, [], rfl, distinct, ?_⟩
        by_contra new
        exact repeated (List.nodup_append_comm.1 (List.nodup_cons.2 ⟨new, distinct⟩))
      · obtain ⟨front, name, back, rfl, distinct, old⟩ := ih distinct
        exact ⟨front, name, back ++ [last], by simp, distinct, old⟩

theorem exists_repeated_call (repeated : ¬ (fieldNames calls).Nodup) :
    ∃ front call back, calls = front ++ call :: back ∧ (fieldNames front).Nodup ∧
      call.field.name ∈ fieldNames front := by
  obtain ⟨front, name, back, split, distinct, old⟩ := exists_repeated repeated
  obtain ⟨first, second, rfl, rfl, rest⟩ := List.map_eq_append_iff.1 split
  obtain ⟨call, others, rfl, rfl, -⟩ := List.map_eq_cons_iff.1 rest
  exact ⟨first, call, others, rfl, distinct, old⟩

/-- Only calls that repeat a name are told that they do. -/
theorem not_nodup_of_duplicateField {title' name : String}
    (told : .duplicateField title' name ∈ misuses title calls) : ¬ (fieldNames calls).Nodup := by
  rw [misuses, List.mem_append] at told
  rcases told with wrong | wrong
  · rw [nameFaults] at wrong
    split at wrong
    · cases wrong
    · cases List.mem_singleton.1 wrong
  · obtain ⟨front, call, back, rfl, told⟩ := mem_faultsAlong_iff.1 wrong
    obtain ⟨-, old⟩ := duplicateField_mem_faults_iff.1 told
    rw [fieldNames, List.map_append, List.map_cons, List.nodup_append]
    rintro ⟨-, -, apart⟩
    exact apart _ old _ List.mem_cons_self rfl

theorem misuses_ne_nil_of_repeated (repeated : ¬ (fieldNames calls).Nodup) :
    misuses title calls ≠ [] := by
  obtain ⟨front, call, back, rfl, -, old⟩ := exists_repeated_call repeated
  have told : .duplicateField title call.field.name ∈ misuses title (front ++ call :: back) := by
    rw [misuses, List.mem_append, mem_faultsAlong_iff]
    exact Or.inr ⟨front, call, back, rfl, duplicateField_mem_faults_iff.2 ⟨⟨rfl, rfl⟩, old⟩⟩
  exact List.ne_nil_of_mem told

/-- Whether nothing is wrong with a title and with calls, each taken by itself. -/
structure Sound (title : String) (calls : List Call) : Prop where
  title : nameFaults title = []
  names : ∀ call ∈ calls, nameFaults call.field.name = []
  values : ∀ call ∈ calls, call.valuesFaults = []
  handed : ∀ call ∈ calls, call.handed = []

/-- With a call that is sound by itself only its name can be wrong. -/
theorem Sound.faults (h : Sound title calls) {call : Call} (member : call ∈ calls)
    (before : List Call) : call.faults title before =
      if call.field.name ∈ fieldNames before then [.duplicateField title call.field.name] else [] := by
  rw [Call.faults, fieldFaults, h.values call member, h.handed call member, h.names call member,
    map_name_field]
  rfl

theorem Sound.faultsAlong_eq_nil (h : Sound title calls) (distinct : (fieldNames calls).Nodup) :
    faultsAlong (Call.faults title) [] calls = [] := by
  rw [List.eq_nil_iff_forall_not_mem]
  intro e wrong
  obtain ⟨front, call, back, split, wrong⟩ := mem_faultsAlong_iff.1 wrong
  rw [h.faults (by simp [split])] at wrong
  rw [split, fieldNames, List.map_append, List.map_cons, List.nodup_append] at distinct
  split at wrong
  · next old => exact distinct.2.2 _ old _ List.mem_cons_self rfl
  · cases wrong

theorem Sound.mono (h : Sound title calls) {calls' : List Call}
    (subset : ∀ call ∈ calls', call ∈ calls) : Sound title calls' where
  title := h.title
  names call member := h.names call (subset call member)
  values call member := h.values call (subset call member)
  handed call member := h.handed call (subset call member)

/-- Calls that are sound by themselves are told of the first name that is repeated. -/
theorem Sound.build_of_repeated (h : Sound title calls) (repeated : ¬ (fieldNames calls).Nodup) :
    ∃ front call back, calls = front ++ call :: back ∧ (fieldNames front).Nodup ∧
      call.field.name ∈ fieldNames front ∧
      build title calls = .error (.duplicateField title call.field.name) := by
  obtain ⟨front, call, back, rfl, distinct, old⟩ := exists_repeated_call repeated
  refine ⟨front, call, back, rfl, distinct, old, ?_⟩
  have before := (h.mono fun _ => List.mem_append_left _).faultsAlong_eq_nil distinct
  have here := h.faults (List.mem_append_right _ List.mem_cons_self) front
  rw [if_pos old] at here
  rw [build_eq, misuses, h.title, faultsAlong_append, before, faultsAlong,
    List.nil_append, List.nil_append, List.nil_append, here]
  rfl

/-- Calls that are sound by themselves build a shape with distinct names. -/
theorem Sound.build_of_nodup (h : Sound title calls) (distinct : (fieldNames calls).Nodup) :
    build title calls = .ok ⟨⟨title, calls.map Call.field, 0⟩, []⟩ := by
  have alone : calls.flatMap Call.handed = [] := List.flatMap_eq_nil_iff.2 h.handed
  rw [build_eq, misuses, h.title, h.faultsAlong_eq_nil distinct, alone]
  rfl

end

/-! ### Documents and calls -/

/-- A document builds the shape that its calls build once they are merged, so the same shape or the
same fault as the calls exactly if no name is repeated or the first fault is not touched by the
merge. With a repeated name the calls always fail, and the document is never told of it: where
nothing else is wrong, the calls are told of the first repeated name, and the document builds a
shape. -/
theorem ofDocument_eq_build {text name : String} {entries : List (String × FieldEntry)}
    {calls : List Call} (document : Document name entries text)
    (asks : List.Forall₂ Asks entries calls) :
    ofDocument text = build name (merged calls) ∧
      (ofDocument text = build name calls ↔ (fieldNames calls).Nodup ∨
        (misuses name (merged calls)).head? = (misuses name calls).head?) ∧
      (¬ (fieldNames calls).Nodup →
        (∃ e, build name calls = .error e) ∧
        (∀ title field, ofDocument text ≠ .error (.duplicateField title field)) ∧
        (Sound name calls →
          (∃ front call back, calls = front ++ call :: back ∧ (fieldNames front).Nodup ∧
            call.field.name ∈ fieldNames front ∧
            build name calls = .error (.duplicateField name call.field.name)) ∧
          ofDocument text = .ok ⟨⟨name, (merged calls).map Call.field, 0⟩, []⟩)) := by
  have same := ofDocument_eq_build_merged document asks
  -- what fails tells its first misuse, so two that fail agree where these do
  have fails : ¬ (fieldNames calls).Nodup → ∃ e, (misuses name calls).head? = some e ∧
      build name calls = .error e := by
    intro repeated
    obtain ⟨e, others, faults⟩ := List.exists_cons_of_ne_nil (misuses_ne_nil_of_repeated repeated)
    refine ⟨e, by rw [faults]; rfl, ?_⟩
    rw [build_eq, faults]
    rfl
  refine ⟨same, ⟨fun agree => ?_, ?_⟩, fun repeated => ⟨?_, ?_, fun sound => ⟨?_, ?_⟩⟩⟩
  · by_cases distinct : (fieldNames calls).Nodup
    · exact Or.inl distinct
    · obtain ⟨e, first, failed⟩ := fails distinct
      rw [same, failed, build_eq] at agree
      rw [first]
      cases merged : (misuses name (merged calls)).head? with
      | none =>
          rw [merged] at agree
          cases agree
      | some e' =>
          rw [merged] at agree
          cases agree
          exact Or.inr rfl
  · rintro (distinct | first)
    · rw [same, merged_of_nodup distinct]
    · by_cases distinct : (fieldNames calls).Nodup
      · rw [same, merged_of_nodup distinct]
      · obtain ⟨e, first', failed⟩ := fails distinct
        rw [same, failed, build_eq, first, first']
  · obtain ⟨e, -, failed⟩ := fails repeated
    exact ⟨e, failed⟩
  · intro title field told
    rw [same, build_eq] at told
    cases first : (misuses name (merged calls)).head? with
    | none =>
        rw [first] at told
        cases told
    | some e =>
        rw [first] at told
        cases told
        -- what is merged repeats no name
        exact not_nodup_of_duplicateField (List.mem_of_head? first) (nodup_merged calls)
  · exact sound.build_of_repeated repeated
  · rw [same]
    exact (sound.mono fun _ => mem_of_mem_merged).build_of_nodup (nodup_merged calls)

/-- A document with its members in another order, blanks and a member that says nothing. -/
theorem ofDocument_eq_build_reordered :
    let text := "\x7b\"x\": [-1E999],\"fields\":\x7b\"who\": \"Text\",\"kind\":[\"car\", \"home\"]\x7d,\"name\":\"claim\"\x7d"
    let entries : List (String × FieldEntry) :=
      [("who", .word "Text"), ("kind", .values ["car", "home"])]
    let calls : List Call := [.text "who", .oneOf "kind" ["car", "home"]]
    Document "claim" entries text ∧ List.Forall₂ Asks entries calls ∧
      ofDocument text = build "claim" calls := by
  intro text entries calls
  have none := Json.spaces_nil
  have blank : Spaces [' '] := List.forall_mem_singleton.2 rfl
  have quoted := Json.quoted_quoted
  have number : Form 0 () _ :=
    .negative (.parts (.digits rfl (by decide) (List.forall_mem_nil _) : Json.Whole ['1']) .none
      (.up (Or.inr rfl) (Or.inl rfl) ⟨by decide, by simp⟩ : Json.Exponent _ ['E', '9', '9', '9']))
  have other : Part.Named ("x", .other) _ :=
    ⟨by simp [Part.Under], .colon (quoted "x") none blank
      (.other (Json.form_list (.some none (.last number none))))⟩
  have who : Pair Quoted FieldEntry.Spelled ("who", .word "Text") _ :=
    .colon (quoted "who") none blank (.word (quoted "Text"))
  have kind : Pair Quoted FieldEntry.Spelled ("kind", .values ["car", "home"]) _ :=
    .colon (quoted "kind") none none
      (.values (.some none (.more (quoted "car") none blank (.last (quoted "home") none))))
  have fields : Part.Named ("fields", .fields entries) _ :=
    ⟨rfl, .colon (quoted "fields") none none
      (.fields (.some none (.more who none none (.last kind none))))⟩
  have title : Part.Named ("name", .title "claim") _ :=
    ⟨rfl, .colon (quoted "name") none none (.title (quoted "claim"))⟩
  have document : Document "claim" entries _ :=
    .object none none (.some none (.more other none none (.more fields none none
      (.last title none)))) (by simp) (by simp)
  have document : Document "claim" entries text :=
    Eq.mp (congrArg (Document "claim" entries) (by decide +kernel)) document
  have asks : List.Forall₂ Asks entries calls := .cons (.text (by decide)) (.cons .oneOf .nil)
  exact ⟨document, asks, (ofDocument_eq_build document asks).2.1.2 (Or.inl (by decide))⟩

/-- A document that says two things of one field, and the calls that it asks for. -/
theorem ofDocument_ne_build :
    let text := "\x7b\"name\":\"n\",\"fields\":\x7b\"a\":\"text\",\"a\":\"money\"\x7d\x7d"
    let entries : List (String × FieldEntry) := [("a", .word "text"), ("a", .word "money")]
    let calls : List Call := [.text "a", .money "a"]
    Document "n" entries text ∧ List.Forall₂ Asks entries calls ∧
      build "n" calls = .error (.duplicateField "n" "a") ∧
      ofDocument text = .ok ⟨⟨"n", [⟨"a", .money, 0⟩], 0⟩, []⟩ := by
  intro text entries calls
  have none := Json.spaces_nil
  have quoted := Json.quoted_quoted
  have first : Pair Quoted FieldEntry.Spelled ("a", .word "text") _ :=
    .colon (quoted "a") none none (.word (quoted "text"))
  have second : Pair Quoted FieldEntry.Spelled ("a", .word "money") _ :=
    .colon (quoted "a") none none (.word (quoted "money"))
  have title : Part.Named ("name", .title "n") _ :=
    ⟨rfl, .colon (quoted "name") none none (.title (quoted "n"))⟩
  have fields : Part.Named ("fields", .fields entries) _ :=
    ⟨rfl, .colon (quoted "fields") none none
      (.fields (.some none (.more first none none (.last second none))))⟩
  have document : Document "n" entries _ :=
    .object none none (.some none (.more title none none (.last fields none))) (by simp) (by simp)
  have document : Document "n" entries text :=
    Eq.mp (congrArg (Document "n" entries) (by decide +kernel)) document
  have asks : List.Forall₂ Asks entries calls :=
    .cons (.text (by decide)) (.cons (.money (by decide)) .nil)
  refine ⟨document, asks, by decide +kernel, ?_⟩
  rw [ofDocument_eq_build_merged document asks]
  decide +kernel

end RecordInference.Shape
