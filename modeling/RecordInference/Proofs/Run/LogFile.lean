import RecordInference.Proofs.Json.Spelling
import RecordInference.Proofs.Schema.Serialization
import RecordInference.Proofs.Text.Line
import RecordInference.Run.Audit

/-!
# The file of an audit log

The file that a log leaves is determined by the entries that were appended to it, however often and
wherever in between it was opened (`LogEvent.file_opened`). An entry is written on one line, since
no text, number or name in it leaves a control character unescaped, so the file falls apart at its
line ends into the lines of the entries (`splitOn_appendAll`).

A line spells the JSON value of its entry by the grammar of JSON alone. No object in it repeats a
name: what an entry says of the outcome stands among its own members under other names
(`names_toJson`). And nothing is lost in it: entries with the same line agree in everything but the
shape of the output (`agrees_of_line`).
-/

set_option autoImplicit false

namespace RecordInference

/-! ### Names -/

/-- Whether no object in a value has two members of one name. -/
inductive Json.Distinct : Json → Prop
  | null : Distinct .null
  | bool {b : Bool} : Distinct (.bool b)
  | int {i : Int} : Distinct (.int i)
  | float {x : Float} : Distinct (.float x)
  | str {s : String} : Distinct (.str s)
  | arr {items : List Json} (each : ∀ v ∈ items, Distinct v) : Distinct (.arr items)
  | obj {members : List (String × Json)} (names : (members.map (·.1)).Nodup)
      (each : ∀ m ∈ members, Distinct m.2) : Distinct (.obj members)

/-- Whether no object in a typed value has two fields of one name. -/
inductive Value.Distinct : Value → Prop
  | text {s : String} : Distinct (.text s)
  | money {x : Float} : Distinct (.money x)
  | number {x : Float} : Distinct (.number x)
  | yesNo {b : Bool} : Distinct (.yesNo b)
  | oneOf {s : String} : Distinct (.oneOf s)
  | list {items : List Value} (each : ∀ v ∈ items, Distinct v) : Distinct (.list items)
  | object {fields : List (String × Value)} (names : (fields.map (·.1)).Nodup)
      (each : ∀ f ∈ fields, Distinct f.2) : Distinct (.object fields)

/-- The written form of a value has the names of its fields. -/
theorem Value.Distinct.toJson {v : Value} (h : v.Distinct) : v.toJson.Distinct := by
  induction h with
  | text | oneOf => exact .str
  | money | number => exact .float
  | yesNo => exact .bool
  | list each ih =>
      rw [Value.toJson, itemsToJson_eq_map]
      exact .arr (List.forall_mem_map.2 ih)
  | object names each ih =>
      rw [Value.toJson, fieldsToJson_eq_map]
      refine .obj ?_ (List.forall_mem_map.2 ih)
      rwa [List.map_map]

theorem Violation.distinct_toJson (v : Violation) : v.toJson.Distinct := by
  refine .obj ?_ ?_
  · simp
  · simp [Json.Distinct.str]

namespace AttemptOutcome

/-- The names under which an outcome is told. -/
theorem names_members (o : AttemptOutcome) :
    (o.members.map (·.1)).Sublist ["result", "violations", "message", "after_ms"] := by
  cases o with
  | valid | invalid | transport | timedOut =>
      simp only [members, List.map_cons, List.map_nil]
      decide

theorem distinct_members (o : AttemptOutcome) : ∀ m ∈ o.members, m.2.Distinct := by
  cases o with
  | valid => exact List.forall_mem_singleton.2 .str
  | invalid violations =>
      refine List.forall_mem_cons.2 ⟨.str, List.forall_mem_singleton.2 (.arr ?_)⟩
      exact List.forall_mem_map.2 fun v _ => v.distinct_toJson
  | transport message =>
      exact List.forall_mem_cons.2 ⟨.str, List.forall_mem_singleton.2 .str⟩
  | timedOut afterMs =>
      exact List.forall_mem_cons.2 ⟨.str, List.forall_mem_singleton.2 .int⟩

end AttemptOutcome

namespace AuditEntry

/-- The names of an entry and those of its outcome are different. -/
theorem names_toJson (e : AuditEntry) : ∃ members, e.toJson = .obj members ∧
    (members.map (·.1)).Nodup := by
  refine ⟨_, rfl, ?_⟩
  rw [List.map_append, List.map_append]
  have names := ((List.Sublist.refl ["ts", "run_id", "record_id", "step", "verb", "attempt",
    "input_ref", "raw_response"]).append e.outcome.names_members).append
      (List.Sublist.refl ["disposition", "output", "failure"])
  exact names.nodup (by decide)

theorem distinct_ofOption_str (text : Option String) : (Json.ofOption .str text).Distinct := by
  cases text with
  | none => exact .null
  | some s => exact .str

/-- No object in the written form of an entry repeats a name, if none in its output does. -/
theorem distinct_toJson {e : AuditEntry} (maps : ∀ v, e.output = some v → v.Distinct) :
    e.toJson.Distinct := by
  obtain ⟨members, eq, names⟩ := e.names_toJson
  have output : (Json.ofOption Value.toJson e.output).Distinct := by
    cases some : e.output with
    | none => exact .null
    | some v => exact (maps v some).toJson
  have each : ∀ m ∈ members, m.2.Distinct := by
    rw [toJson, Json.obj.injEq] at eq
    rw [← eq, List.forall_mem_append, List.forall_mem_append]
    refine ⟨⟨?_, e.outcome.distinct_members⟩, ?_⟩
    · simp [Json.Distinct.str, Json.Distinct.int, distinct_ofOption_str]
    · simp [Json.Distinct.str, distinct_ofOption_str, output]
  rw [eq]
  exact .obj names each

end AuditEntry

/-! ### What a line tells -/

theorem Violation.toJson_injective : Function.Injective Violation.toJson := by
  rintro ⟨path, expected, actual⟩ ⟨path', expected', actual'⟩ same
  simp only [Violation.toJson, Json.obj.injEq, List.cons.injEq, Prod.mk.injEq, Json.str.injEq] at same
  obtain ⟨⟨-, rfl⟩, ⟨-, rfl⟩, ⟨-, rfl⟩, -⟩ := same
  rfl

theorem Violation.shown_toJson (v : Violation) : v.toJson.shown = v.toJson := rfl

/-- What is told of an outcome determines it. -/
theorem AttemptOutcome.eq_of_members {o o' : AttemptOutcome}
    (same : (o.members.map fun m => (m.1, m.2.shown)) = o'.members.map fun m => (m.1, m.2.shown)) :
    o = o' := by
  cases o with
  | valid =>
      cases o' with
      | valid => rfl
      | invalid | transport | timedOut => simp [members, Json.shown] at same
  | invalid violations =>
      cases o' with
      | invalid violations' =>
          simp only [members, List.map_cons, List.map_nil, Json.shown, Json.shownItems_eq_map,
            List.map_map, List.cons.injEq, Prod.mk.injEq, Json.arr.injEq, true_and, and_true] at same
          rw [List.map_injective_iff.2 Violation.toJson_injective same]
      | valid | transport | timedOut => simp [members, Json.shown] at same
  | transport message =>
      cases o' with
      | transport message' =>
          simp only [members, List.map_cons, List.map_nil, Json.shown, List.cons.injEq,
            Prod.mk.injEq, Json.str.injEq, true_and, and_true] at same
          rw [same]
      | valid | invalid | timedOut => simp [members, Json.shown] at same
  | timedOut afterMs =>
      cases o' with
      | timedOut afterMs' =>
          simp only [members, List.map_cons, List.map_nil, Json.shown, List.cons.injEq,
            Prod.mk.injEq, Json.int.injEq, true_and, and_true] at same
          rw [Int.ofNat_inj.1 same]
      | valid | invalid | transport => simp [members, Json.shown] at same

namespace AuditEntry

/-- Whether two entries agree in everything, and in what their outputs look like. -/
structure Agrees (e e' : AuditEntry) : Prop where
  others : { e with output := none } = { e' with output := none }
  output : (Json.ofOption Value.toJson e.output).shown = (Json.ofOption Value.toJson e'.output).shown

theorem shown_ofOption_str_inj {text text' : Option String}
    (same : (Json.ofOption .str text).shown = (Json.ofOption .str text').shown) : text = text' := by
  cases text with
  | none =>
      cases text' with
      | none => rfl
      | some s => cases same
  | some s =>
      cases text' with
      | none => cases same
      | some s' =>
          cases same
          rfl

/-- Entries with the same line agree. -/
theorem agrees_of_line {e e' : AuditEntry} (same : e.line = e'.line) : e.Agrees e' := by
  have shown := Json.shown_of_compact same
  rw [toJson, toJson, Json.shown, Json.shown, Json.obj.injEq, Json.shownMembers_eq_map,
    Json.shownMembers_eq_map, List.map_append, List.map_append, List.map_append, List.map_append]
    at shown
  -- how many members tell the outcome is open, so the line is taken apart from both ends
  obtain ⟨front, last⟩ := List.append_inj' shown rfl
  obtain ⟨first, outcome⟩ := List.append_inj front rfl
  simp only [List.map_cons, List.map_nil, Json.shown, List.cons.injEq, Prod.mk.injEq, true_and,
    and_true, Json.str.injEq, Json.int.injEq, Int.ofNat_inj] at first last
  obtain ⟨time, run, recordId, step, verb, attempt, inputRef, rawResponse⟩ := first
  obtain ⟨disposition, output, failure⟩ := last
  refine ⟨?_, output⟩
  rw [AuditEntry.mk.injEq]
  refine ⟨time, run, recordId, step, ?_, attempt, inputRef, shown_ofOption_str_inj rawResponse,
    AttemptOutcome.eq_of_members outcome, ?_, rfl, shown_ofOption_str_inj failure⟩
  · generalize e.verb = v, e'.verb = v' at verb
    cases v <;> cases v' <;> first | rfl | exact absurd verb (by decide)
  · generalize e.disposition = d, e'.disposition = d' at disposition
    cases d <;> cases d' <;> first | rfl | exact absurd disposition (by decide)

/-! ### Lines -/

theorem not_mem_line (e : AuditEntry) {c : Char} (control : c.toNat < 0x20) :
    c ∉ e.line.toList := by
  rw [line, Json.compact, String.toList_ofList]
  exact fun member => Json.printable_chars e.toJson c member control

theorem toList_written (e : AuditEntry) : e.written.toList = e.line.toList ++ ['\n'] := by
  rw [written, String.toList_append]
  rfl

end AuditEntry

/-- Appending entries to a file adds their lines to it. -/
theorem toList_appendAll (file : String) (entries : List AuditEntry) :
    (appendAll file entries).toList = file.toList ++ entries.flatMap (·.line.toList ++ ['\n']) := by
  induction entries generalizing file with
  | nil => exact (List.append_nil _).symm
  | cons e entries ih =>
      show (appendAll (file ++ e.written) entries).toList = _
      rw [ih, String.toList_append, e.toList_written, List.flatMap_cons, List.append_assoc]

/-- At its line ends the file falls apart into the lines of the entries. -/
theorem splitOn_appendAll (entries : List AuditEntry) :
    Text.splitOn '\n' (appendAll "" entries).toList = entries.map (·.line.toList) ++ [[]] := by
  rw [toList_appendAll]
  show Text.splitOn '\n' (entries.flatMap (·.line.toList ++ ['\n'])) = _
  induction entries with
  | nil => rfl
  | cons e entries ih =>
      rw [List.flatMap_cons, List.append_assoc, List.singleton_append,
        Text.splitOn_append (e.not_mem_line (by decide)), ih]
      rfl

theorem lines_appendAll (entries : List AuditEntry) :
    Text.lines (appendAll "" entries).toList = entries.map (·.line.toList) := by
  rw [toList_appendAll]
  show Text.lines (entries.flatMap (·.line.toList ++ ['\n'])) = _
  induction entries with
  | nil => rfl
  | cons e entries ih =>
      have whole : Text.dropReturn e.line.toList = e.line.toList := by
        rw [Text.dropReturn, if_neg]
        exact fun last => e.not_mem_line (by decide) (List.mem_of_getLast? last)
      rw [List.flatMap_cons, List.append_assoc, List.singleton_append,
        Text.lines_append_newline (e.not_mem_line (by decide)), ih, whole]
      rfl

/-! ### The file -/

namespace LogEvent

/-- A file that is there holds, after some events, what the appended entries add to it. -/
theorem foldl_after (file : String) (events : List LogEvent) :
    events.foldl after (some file) = some (appendAll file (events.filterMap entry?)) := by
  induction events generalizing file with
  | nil => rfl
  | cons event events ih =>
      cases event with
      | opened => exact ih file
      | appended entry => exact ih (file ++ entry.written)

/-- However often a log is opened, its file holds what was appended. -/
theorem file_opened (events : List LogEvent) :
    LogEvent.file (.opened :: events) = some (appendAll "" (events.filterMap entry?)) :=
  foldl_after "" events

/-- A log that is opened for the first time, and then opened and appended to in any order, has one
line for each entry, in the order in which they were appended. Each line spells its entry as an
object without a repeated name, and tells everything about it. -/
theorem lines_of_file (events : List LogEvent)
    (maps : ∀ e ∈ events.filterMap entry?, ∀ v, e.output = some v → v.Distinct) :
    ∃ file, LogEvent.file (.opened :: events) = some file ∧
      Text.splitOn '\n' file.toList =
        (events.filterMap entry?).map (·.line.toList) ++ [[]] ∧
      Text.lines file.toList = (events.filterMap entry?).map (·.line.toList) ∧
      ∀ e ∈ events.filterMap entry?, Json.Spells e.toJson e.line.toList ∧ e.toJson.Distinct ∧
        ∀ e' : AuditEntry, e'.line = e.line → e'.Agrees e := by
  refine ⟨_, file_opened events, splitOn_appendAll _, lines_appendAll _, fun e member => ?_⟩
  refine ⟨?_, e.distinct_toJson (maps e member), fun e' same => AuditEntry.agrees_of_line same⟩
  rw [AuditEntry.line, Json.compact, String.toList_ofList]
  exact Json.spells_chars e.toJson

/-- An attempt with line ends in the response, in a violation and in the output. -/
def attemptWithLines (output : Option Value) : AuditEntry where
  time := "2024-01-01T00:00:00Z"
  run := "r"
  recordId := 1
  step := 0
  verb := .draft
  attempt := 1
  inputRef := "blake3:0"
  rawResponse := some "\x7b\n\x7d"
  outcome := .invalid [⟨"$", "text", "a\nb"⟩]
  disposition := .retry
  output := output
  failure := none

theorem lines_of_file_reopened :
    let events : List LogEvent := [.appended (attemptWithLines none), .opened,
      .appended (attemptWithLines (some (.object [("a", .text "x\ny"), ("b", .yesNo true)])))]
    (∀ e ∈ events.filterMap entry?, ∀ v, e.output = some v → v.Distinct) ∧
      ∃ file, LogEvent.file (.opened :: events) = some file ∧
        (Text.splitOn '\n' file.toList).length = 3 := by
  intro events
  have maps : ∀ e ∈ events.filterMap entry?, ∀ v, e.output = some v → v.Distinct := by
    refine List.forall_mem_cons.2 ⟨nofun, List.forall_mem_singleton.2 ?_⟩
    rintro v ⟨⟩
    exact .object (by decide)
      (List.forall_mem_cons.2 ⟨.text, List.forall_mem_singleton.2 .yesNo⟩)
  obtain ⟨file, left, pieces, -⟩ := lines_of_file events maps
  refine ⟨maps, file, left, ?_⟩
  rw [pieces]
  rfl

end LogEvent

end RecordInference
