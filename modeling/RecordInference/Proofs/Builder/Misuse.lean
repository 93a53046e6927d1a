import RecordInference.Proofs.Builder.Faults
import RecordInference.Proofs.Builder.Pipeline

/-!
# The first misuse of a builder

A builder reports the first misuse among the calls to it, whatever follows, and if there is none it
builds what the calls say (`first_misuse_reported`). What a misuse is can be read from the calls
(`Shape.misuses`, `Pipeline.misuses`).

In a pipeline without a misuse no two calls exclude each other (`excludes_eq_false`). So it is
enough to look at the last extraction or classification, as a pipeline under construction does
(`any_excludes_eq`), and wherever there are both an extraction and a classification there is a
misuse.
-/

set_option autoImplicit false

namespace RecordInference

/-! ### Calls to a pipeline -/

namespace Pipeline

/-- Extractions and classifications exclude each other. -/
def Primary.excludes : Primary → Primary → Bool
  | .extract _, .classify _ _ => true
  | .classify _ _, .extract _ => true
  | _, _ => false

/-- The extraction or classification that a call asks for. -/
def Call.primary? : Call → Option Primary
  | .extract shape => some (.extract shape)
  | .classify field categories => some (.classify field (categories.map Text.trimmed))
  | _ => none

/-- Whether one of two calls asks for an extraction and the other one for a classification. -/
def Call.excludes (call other : Call) : Bool :=
  match call.primary?, other.primary? with
  | some primary, some primary' => primary.excludes primary'
  | _, _ => false

/-- An extraction behind a classification, or the other way round. -/
def exclusionFaults (before : List Call) (call : Call) : List BuildError :=
  if before.any call.excludes then [.exclusiveSteps] else []

/-- What is wrong with what a call is given, in the order in which it is noticed. -/
def Call.ownFaults : Call → List BuildError
  | .classify field categories =>
    nameFaults field ++ (Shape.valuesFaults categories).map (.invalidValues field)
  | .draft field => nameFaults field
  | .flag rule =>
    match Rule.read rule with
    | .ok _ => []
    | .error fault => [.rule rule fault]
  | .set o => o.fault?.toList.map .setting
  | _ => []

/-- What is wrong with a call behind others, in the order in which it is noticed. -/
def Call.faults (before : List Call) (call : Call) : List BuildError :=
  exclusionFaults before call ++ call.ownFaults

/-- What is wrong with the calls that build a pipeline. -/
def misuses (calls : List Call) : List BuildError := faultsAlong Call.faults [] calls

/-- The last extraction or classification that calls ask for. -/
def primary? (calls : List Call) : Option Primary := (calls.filterMap Call.primary?).getLast?

theorem primary?_concat (calls : List Call) (call : Call) :
    primary? (calls ++ [call]) = call.primary?.or (primary? calls) := by
  rw [primary?, List.filterMap_append, List.getLast?_append]
  cases asked : call.primary? with
  | none =>
      rw [List.filterMap_cons_none asked]
      rfl
  | some primary =>
      rw [List.filterMap_cons_some asked]
      rfl

theorem excludes_comm (call call' : Call) : call.excludes call' = call'.excludes call := by
  rw [Call.excludes, Call.excludes]
  rcases call.primary? with - | ⟨_ | _⟩ <;> rcases call'.primary? with - | ⟨_ | _⟩ <;> rfl

theorem excludes_self (call : Call) : call.excludes call = false := by
  rw [Call.excludes]
  rcases call.primary? with - | ⟨_ | _⟩ <;> rfl

/-- No two calls exclude each other where nothing is wrong. -/
theorem excludes_eq_false {calls : List Call} (right : misuses calls = []) :
    ∀ call ∈ calls, ∀ call' ∈ calls, call.excludes call' = false := by
  refine forall_mem_of_faultsAlong excludes_self (fun call call' apart => ?_) ?_ right
  · rw [excludes_comm, apart]
  · intro before call right call' member
    rw [Call.faults, List.append_eq_nil_iff, exclusionFaults, ite_eq_right_iff] at right
    by_contra excluded
    rw [Bool.not_eq_false, excludes_comm] at excluded
    exact List.cons_ne_nil _ _ (right.1 (List.any_eq_true.2 ⟨call', member, excluded⟩))

/-- If any of the calls before excludes a call, the last extraction or classification does. -/
theorem any_excludes_eq {before : List Call} (right : misuses before = []) {call : Call}
    {primary : Primary} (asked : call.primary? = some primary) :
    before.any call.excludes = (primary? before).any primary.excludes := by
  rw [Bool.eq_iff_iff, List.any_eq_true, Option.any_eq_true]
  constructor
  · rintro ⟨call', member, excluded⟩
    rw [Call.excludes, asked] at excluded
    cases asked' : call'.primary? with
    | none =>
        rw [asked'] at excluded
        cases excluded
    | some primary' =>
        rw [asked'] at excluded
        have listed : primary' ∈ before.filterMap Call.primary? :=
          List.mem_filterMap.2 ⟨call', member, asked'⟩
        -- there is a last one, and it is of the same kind
        obtain ⟨last, found⟩ : ∃ last, primary? before = some last :=
          Option.isSome_iff_exists.1 (List.getLast?_isSome.2 (List.ne_nil_of_mem listed))
        obtain ⟨final, member', asked''⟩ := List.mem_filterMap.1 (List.mem_of_getLast? found)
        have apart := excludes_eq_false right call' member final member'
        rw [Call.excludes, asked', asked''] at apart
        refine ⟨last, found, ?_⟩
        revert excluded apart
        rcases primary with _ | _ <;> rcases primary' with _ | _ <;> rcases last with _ | _ <;>
          simp [Primary.excludes]
  · rintro ⟨last, found, excluded⟩
    obtain ⟨call', member, asked'⟩ := List.mem_filterMap.1 (List.mem_of_getLast? found)
    refine ⟨call', member, ?_⟩
    rw [Call.excludes, asked, asked']
    exact excluded

namespace Draft

variable {d : Draft} {e : BuildError}

theorem error_fail_of_some (h : d.error = some e) (e' : BuildError) :
    (d.fail e').error = some e := by
  rw [fail, h]
  rfl

theorem error_checkName_of_some (h : d.error = some e) (name : String) :
    (d.checkName name).error = some e := by
  rw [checkName]
  split
  · exact h
  · exact error_fail_of_some h _

/-- The draft, with a misuse if what it has excludes another step. -/
def exclusive (d : Draft) (primary : Primary) : Draft :=
  if d.primary.any primary.excludes then d.fail .exclusiveSteps else d

theorem extract_eq (d : Draft) (shape : Shape) :
    d.extract shape =
      { d.exclusive (.extract shape) with primary := some (.extract shape) } := by
  rw [extract, exclusive]
  rcases d.primary with - | ⟨_ | _⟩ <;> rfl

theorem classify_eq (d : Draft) (field : String) (categories : List String) :
    d.classify field categories =
      match (Shape.valuesFaults categories).head? with
      | some fault =>
        ((d.exclusive (.classify field (categories.map Text.trimmed))).checkName field).fail
          (.invalidValues field fault)
      | none =>
        { (d.exclusive (.classify field (categories.map Text.trimmed))).checkName field with
          primary := some (.classify field (categories.map Text.trimmed)) } := by
  rw [classify, Shape.checkedValues_eq, exclusive]
  rcases d.primary with - | ⟨_ | _⟩ <;> cases (Shape.valuesFaults categories).head? <;> rfl

theorem error_exclusive_of_some (h : d.error = some e) (primary : Primary) :
    (d.exclusive primary).error = some e := by
  rw [exclusive]
  split
  · exact error_fail_of_some h _
  · exact h

/-- A misuse stays under every call. -/
theorem error_call_of_some (h : d.error = some e) (call : Call) : (d.call call).error = some e := by
  cases call with
  | source | output | prompt | examples => exact h
  | draft field => exact error_checkName_of_some h field
  | extract shape =>
      rw [Draft.call, extract_eq]
      exact error_exclusive_of_some h _
  | classify field categories =>
      have checked := error_checkName_of_some
        (error_exclusive_of_some h (.classify field (categories.map Text.trimmed))) field
      rw [Draft.call, classify_eq]
      split
      · exact error_fail_of_some checked _
      · exact checked
  | flag rule =>
      rw [Draft.call, flag]
      cases Rule.read rule with
      | ok expr => exact h
      | error fault => exact error_fail_of_some h _
  | set o =>
      rw [Draft.call, set]
      cases o.fault? with
      | none => exact h
      | some fault => exact error_fail_of_some h _

section

variable {d' : Draft} (sound : d'.error = none)

include sound

theorem reports_fail (fault : BuildError) {others : List BuildError} {good : Prop} :
    Reports (fault :: others) (d'.fail fault).error good := by
  rw [fail, sound]
  exact .of_fault rfl

theorem reports_checkName {faults : List BuildError} (h : Reports faults d.error (d = d'))
    (name : String) :
    Reports (faults ++ nameFaults name) (d.checkName name).error (d.checkName name = d') := by
  refine h.append (fun e faulty => error_checkName_of_some faulty name) ?_
  rintro - rfl
  rw [checkName, nameFaults]
  split
  · exact .of_good rfl
  · exact reports_fail sound _

theorem reports_exclusive {before : List Call} (right : misuses before = [])
    (asked : d'.primary = primary? before) {call : Call} {primary : Primary}
    (asks : call.primary? = some primary) :
    Reports (exclusionFaults before call) (d'.exclusive primary).error
      (d'.exclusive primary = d') := by
  rw [exclusionFaults, any_excludes_eq right asks, exclusive, asked]
  split
  · exact reports_fail sound _
  · exact .of_good rfl

end

/-- Whether a draft has no misuse, and the extraction or classification that calls ask for. -/
structure Follows (calls : List Call) (d : Draft) : Prop where
  sound : d.error = none
  primary : d.primary = primary? calls

/-- What is wrong with a call is reported, if nothing was wrong before. -/
theorem reports_call {before : List Call} (right : misuses before = [])
    (follows : Follows before d) (call : Call) : Reports (call.faults before) (d.call call).error
      (Follows (before ++ [call]) (d.call call)) := by
  obtain ⟨sound, asked⟩ := follows
  have unchanged : Reports [] d.error (d = d) := .of_good rfl
  -- calls that ask for neither an extraction nor a classification are excluded by none
  have alone : call.primary? = none → call.faults before = call.ownFaults := by
    intro asks
    have apart : call.excludes = fun _ => false := by
      funext other
      rw [Call.excludes, asks]
    rw [Call.faults, exclusionFaults, apart]
    simp
  have kept : call.primary? = none → primary? (before ++ [call]) = d.primary := by
    intro asks
    rw [primary?_concat, asks, Option.none_or, asked]
  cases call with
  | source | output | prompt | examples =>
      rw [alone rfl]
      exact .of_good ⟨sound, (kept rfl).symm⟩
  | draft field =>
      rw [alone rfl]
      refine (reports_checkName sound unchanged field).imp fun same => ?_
      rw [Draft.call, same]
      exact ⟨sound, (kept rfl).symm⟩
  | extract shape =>
      have asks : (Call.extract shape).primary? = some (.extract shape) := rfl
      have own : (Call.extract shape).ownFaults = [] := rfl
      rw [Call.faults, own, List.append_nil, Draft.call, extract_eq]
      refine (reports_exclusive sound right asked asks).imp fun same => ?_
      rw [same]
      refine ⟨sound, ?_⟩
      rw [primary?_concat, asks, Option.some_or]
  | classify field categories =>
      have asks : (Call.classify field categories).primary? =
        some (.classify field (categories.map Text.trimmed)) := rfl
      -- the other step, the name and the categories are looked at one after the other
      have named := reports_checkName sound (reports_exclusive sound right asked asks) field
      rw [Call.faults, Call.ownFaults, ← List.append_assoc, Draft.call, classify_eq]
      refine named.append (fun e faulty => ?_) fun _ same => ?_
      · split
        · exact error_fail_of_some faulty _
        · exact faulty
      · rw [same]
        cases Shape.valuesFaults categories with
        | nil =>
            refine .of_good ⟨sound, ?_⟩
            rw [primary?_concat, asks, Option.some_or]
            rfl
        | cons fault others => exact reports_fail sound _
  | flag rule =>
      rw [alone rfl, Call.ownFaults, Draft.call, flag]
      cases Rule.read rule with
      | ok expr => exact .of_good ⟨sound, (kept rfl).symm⟩
      | error fault => exact reports_fail sound _
  | set o =>
      rw [alone rfl, Call.ownFaults, Draft.call, set]
      cases o.fault? with
      | none => exact .of_good ⟨sound, (kept rfl).symm⟩
      | some fault => exact reports_fail sound _

/-- The first misuse is reported, and without one the draft has what the calls ask for last. -/
theorem reports_foldl (calls : List Call) :
    Reports (misuses calls) (calls.foldl Draft.call {}).error
      (Follows calls (calls.foldl Draft.call {})) := by
  have start : Reports (faultsAlong Call.faults [] []) (Draft.error {}) (Follows [] {}) :=
    .of_good ⟨rfl, rfl⟩
  exact start.foldl Draft.error Draft.call Follows
    (fun d call e faulty => error_call_of_some faulty call)
    (fun before call d right follows => reports_call right follows call) calls

end Draft

/-- The definitions of a shape are collected unless two of them are in conflict. -/
theorem collect_eq {before : List Definition} (agree : faultsAlong Shape.conflicts [] before = [])
    (ds : List Definition) : collect (before.foldl Shape.withDefinition []) ds =
      match (faultsAlong Shape.conflicts before ds).head? with
      | some e => .error e
      | none => .ok ((before ++ ds).foldl Shape.withDefinition []) := by
  induction ds generalizing before with
  | nil =>
      rw [collect, List.append_nil]
      rfl
  | cons d rest ih =>
      rw [collect, Shape.addDefinition_eq agree, faultsAlong]
      cases faults : Shape.conflicts before d with
      | cons e others => rfl
      | nil =>
          have agree' : faultsAlong Shape.conflicts [] (before ++ [d]) = [] := by
            rw [faultsAlong_concat, agree, faults, List.nil_append]
          have final := ih agree'
          rw [List.append_assoc, List.singleton_append] at final
          exact final

/-- What is left to be reported where every call is right is a conflict in the shape to extract. -/
theorem program_eq_error_iff {calls : List Call} (right : misuses calls = []) {e : BuildError} :
    program calls = .error e ↔ ∃ shape, primary? calls = some (.extract shape) ∧
      (faultsAlong Shape.conflicts [] shape.definitions).head? = some e := by
  obtain ⟨sound, primary⟩ := (Draft.reports_foldl calls).good right
  have outcome : program calls = .error e ↔ (calls.foldl Draft.call {}).definitions = .error e := by
    rw [program, Draft.program, sound]
    cases (calls.foldl Draft.call {}).definitions with
    | error e' =>
        constructor
        · intro failed
          cases failed
          rfl
        · intro failed
          cases failed
          rfl
    | ok ds =>
        constructor
        · intro failed
          cases failed
        · intro failed
          cases failed
  rw [outcome, Draft.definitions, primary]
  constructor
  · intro failed
    split at failed
    · next shape asked =>
      -- the definitions of the shape are collected from none
      have collected := @collect_eq [] rfl shape.definitions
      rw [List.foldl_nil, failed] at collected
      refine ⟨shape, asked, ?_⟩
      split at collected
      · next first =>
        cases collected
        exact first
      · cases collected
    · cases failed
  · intro conflict
    obtain ⟨shape, asked, first⟩ := conflict
    have collected := @collect_eq [] rfl shape.definitions
    rw [List.foldl_nil, first] at collected
    rw [asked]
    exact collected

end Pipeline

/-! ### What builders report -/

/-- A shape is built exactly if no call to it is a misuse, and then it has the fields that the calls
declare, in their order, and the definitions that they hand over; otherwise the first misuse is
reported. Of a pipeline the first misuse is reported too, and without one nothing else than that the
shape to extract has two definitions of one name, which is looked at last. An extraction and a
classification are never both without a misuse. -/
theorem first_misuse_reported :
    (∀ (title : String) (calls : List Shape.Call),
      (∀ e, (Shape.misuses title calls).head? = some e → Shape.build title calls = .error e) ∧
      (Shape.misuses title calls = [] → Shape.build title calls =
        .ok ⟨⟨title, calls.map Shape.Call.field, 0⟩,
          (calls.flatMap Shape.Call.handed).foldl Shape.withDefinition []⟩)) ∧
    ∀ calls : List Pipeline.Call,
      (∀ e, (Pipeline.misuses calls).head? = some e → Pipeline.program calls = .error e) ∧
      (Pipeline.misuses calls = [] → ∀ e, Pipeline.program calls = .error e ↔
        ∃ shape, Pipeline.primary? calls = some (.extract shape) ∧
          (faultsAlong Shape.conflicts [] shape.definitions).head? = some e) ∧
      ∀ shape field categories, .extract shape ∈ calls → .classify field categories ∈ calls →
        ∃ e, Pipeline.program calls = .error e := by
  refine ⟨fun title calls => ?_, fun calls => ?_⟩
  · obtain ⟨good, bad⟩ := Shape.Draft.reports_foldl title calls
    refine ⟨fun e first => ?_, fun right => ?_⟩
    · rw [Shape.build, Shape.Draft.build, bad e first]
    · rw [Shape.build, good right]
      rfl
  · obtain ⟨good, bad⟩ := Pipeline.Draft.reports_foldl calls
    have reported : ∀ e, (Pipeline.misuses calls).head? = some e →
        Pipeline.program calls = .error e := by
      intro e first
      rw [Pipeline.program, Pipeline.Draft.program, bad e first]
    refine ⟨reported, fun right e => Pipeline.program_eq_error_iff right,
      fun shape field categories extracts classifies => ?_⟩
    -- where nothing is wrong the two would not exclude each other
    cases faults : Pipeline.misuses calls with
    | nil =>
        have apart := Pipeline.excludes_eq_false faults _ extracts _ classifies
        cases apart
    | cons e others =>
        rw [faults] at reported
        exact ⟨e, reported e rfl⟩

/-- Values are missing before two definitions have one name; the shape is built from calls that are
right. In a pipeline a setting is out of range between a classification and an extraction, and in
another one the shape to extract has a definition of its own name. -/
theorem first_misuse_reported_mixed :
    let person : Shape := ⟨⟨"person", [⟨"name", .text, 0⟩], 0⟩, []⟩
    let other : Shape := ⟨⟨"person", [⟨"id", .number, 0⟩], 0⟩, []⟩
    let wrong : List Shape.Call :=
      [.object "owner" person, .oneOf "kind" [], .object "buyer" other, .text "owner"]
    let right : List Shape.Call :=
      [.object "owner" person, .oneOf "kind" [" car ", "home"], .listOf "buyers" person]
    let claim : Shape := ⟨⟨"claim", [⟨"owner", .object "person", 0⟩,
      ⟨"kind", .oneOf ["car", "home"], 0⟩, ⟨"buyers", .listOf "person", 0⟩], 0⟩,
      [person.definition]⟩
    let nested : Shape := ⟨⟨"person", [⟨"spouse", .object "person", 0⟩], 0⟩, [person.definition]⟩
    let mixed : List Pipeline.Call :=
      [.classify "kind" ["car", "home"], .set (.maxTokens 0), .extract claim, .draft "2"]
    Shape.build "claim" wrong = .error (.invalidValues "kind" .noValues) ∧
      Shape.build "claim" right = .ok claim ∧
      Pipeline.program mixed = .error (.setting .maxTokens) ∧
      (∃ e, Pipeline.program mixed = .error e) ∧
      Pipeline.program [.extract nested] = .error (.conflictingDefinition "person") := by
  intro person other wrong right claim nested mixed
  obtain ⟨shapes, pipelines⟩ := first_misuse_reported
  have first : (Shape.misuses "claim" wrong).head? = some (.invalidValues "kind" .noValues) := by
    decide +kernel
  have none : Shape.misuses "claim" right = [] := by decide +kernel
  have first' : (Pipeline.misuses mixed).head? = some (.setting .maxTokens) := by decide +kernel
  have none' : Pipeline.misuses [.extract nested] = [] := by decide +kernel
  have conflict : (faultsAlong Shape.conflicts [] nested.definitions).head? =
      some (.conflictingDefinition "person") := by
    decide +kernel
  refine ⟨(shapes "claim" wrong).1 _ first, (shapes "claim" right).2 none,
    (pipelines mixed).1 _ first', ?_, ?_⟩
  · exact (pipelines mixed).2.2 claim "kind" ["car", "home"] (by simp [mixed]) (by simp [mixed])
  · exact ((pipelines [.extract nested]).2.1 none' _).2 ⟨nested, rfl, conflict⟩

end RecordInference
