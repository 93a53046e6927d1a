import RecordInference.Proofs.Builder.Shape

/-!
# What is wrong with calls to a shape

What is wrong with a sequence of calls is told by the calls alone, each looked at with those before
it (`faultsAlong`): names that are no identifiers, fields that are there already, values that cannot
be chosen from, and definitions that are in conflict (`Shape.misuses`).

A builder goes on after a misuse: it still takes fields, steps and definitions, or leaves them out,
so it is no longer in a state that the calls account for. Two things are kept by every call
(`Reports`): as long as nothing is wrong the state is what the calls say, so the next misuse is
found where they have it, and once something is wrong the misuse stays. Values, the definitions that
a call hands over and the calls themselves are sequences of this kind. So a shape under construction
has the first misuse, or the fields that the calls declare (`Shape.Draft.reports_foldl`).
-/

set_option autoImplicit false

namespace RecordInference

/-! ### Faults along a sequence -/

section

variable {α ε σ : Type}

/-- What is wrong with the elements of a sequence, each looked at with those before it. -/
def faultsAlong (check : List α → α → List ε) (before : List α) : List α → List ε
  | [] => []
  | a :: rest => check before a ++ faultsAlong check (before ++ [a]) rest

variable {check : List α → α → List ε}

theorem faultsAlong_append (before as more : List α) :
    faultsAlong check before (as ++ more) =
      faultsAlong check before as ++ faultsAlong check (before ++ as) more := by
  induction as generalizing before with
  | nil => rw [List.append_nil, faultsAlong, List.nil_append, List.nil_append]
  | cons a rest ih =>
      rw [List.cons_append, faultsAlong, faultsAlong, ih, List.append_assoc, List.append_assoc,
        List.singleton_append]

theorem faultsAlong_concat (as : List α) (a : α) :
    faultsAlong check [] (as ++ [a]) = faultsAlong check [] as ++ check as a := by
  rw [faultsAlong_append, faultsAlong, faultsAlong, List.nil_append, List.append_nil]

/-- What is wrong with a sequence is wrong with one of its elements behind those before it. -/
theorem mem_faultsAlong_iff {before as : List α} {e : ε} : e ∈ faultsAlong check before as ↔
    ∃ front a back, as = front ++ a :: back ∧ e ∈ check (before ++ front) a := by
  induction as generalizing before with
  | nil =>
      rw [faultsAlong]
      simp
  | cons a rest ih =>
      rw [faultsAlong, List.mem_append, ih]
      constructor
      · rintro (here | ⟨front, b, back, rfl, later⟩)
        · exact ⟨[], a, rest, rfl, by rwa [List.append_nil]⟩
        · exact ⟨a :: front, b, back, rfl, by rwa [List.append_assoc] at later⟩
      · rintro ⟨front, b, back, split, wrong⟩
        cases front with
        | nil =>
            cases split
            rw [List.append_nil] at wrong
            exact Or.inl wrong
        | cons c front =>
            cases split
            refine Or.inr ⟨front, b, back, rfl, ?_⟩
            rwa [List.append_assoc]

/-- What no element is checked to break with those before it no two elements break. -/
theorem forall_mem_of_faultsAlong {R : α → α → Prop} (refl : ∀ a, R a a)
    (symm : ∀ a b, R a b → R b a) (each : ∀ as a, check as a = [] → ∀ b ∈ as, R b a)
    {as : List α} (right : faultsAlong check [] as = []) : ∀ a ∈ as, ∀ b ∈ as, R a b := by
  induction as using List.reverseRecOn with
  | nil => exact nofun
  | append_singleton as last ih =>
      rw [faultsAlong_concat, List.append_eq_nil_iff] at right
      have here := each as last right.2
      intro a member b member'
      rw [List.mem_append, List.mem_singleton] at member member'
      rcases member with old | rfl
      · rcases member' with old' | rfl
        · exact ih right.1 a old b old'
        · exact here a old
      · rcases member' with old' | rfl
        · exact symm b _ (here b old')
        · exact refl _

/-- Whether the first fault is reported, and without one all is as it should be. -/
structure Reports (faults : List ε) (error : Option ε) (good : Prop) : Prop where
  good : faults = [] → good
  bad : ∀ e, faults.head? = some e → error = some e

namespace Reports

variable {faults more : List ε} {reported reported' : Option ε} {good good' : Prop}

theorem of_good (h : good) : Reports [] reported good := ⟨fun _ => h, nofun⟩

theorem of_fault {e : ε} (h : reported = some e) : Reports (e :: more) reported good := by
  refine ⟨nofun, ?_⟩
  rintro _ ⟨⟩
  exact h

theorem imp (h : Reports faults reported good) (weaken : good → good') :
    Reports faults reported good' :=
  ⟨fun right => weaken (h.good right), h.bad⟩

/-- What comes after a fault keeps it, and is looked at only where there is none. -/
theorem append (h : Reports faults reported good)
    (kept : ∀ e, reported = some e → reported' = some e)
    (next : faults = [] → good → Reports more reported' good') :
    Reports (faults ++ more) reported' good' := by
  cases faults with
  | nil => exact next rfl (h.good rfl)
  | cons e others => exact of_fault (kept e (h.bad e rfl))

/-- Along a sequence the first fault is reported if every step keeps the fault of a state, and
reports what is wrong with the next element if nothing was wrong before. -/
theorem foldl (error : σ → Option ε) (step : σ → α → σ) (Good : List α → σ → Prop)
    (kept : ∀ s a e, error s = some e → error (step s a) = some e)
    (next : ∀ as a s, faultsAlong check [] as = [] → Good as s →
      Reports (check as a) (error (step s a)) (Good (as ++ [a]) (step s a)))
    {as : List α} {s : σ} (h : Reports (faultsAlong check [] as) (error s) (Good as s))
    (more : List α) :
    Reports (faultsAlong check [] (as ++ more)) (error (more.foldl step s))
      (Good (as ++ more) (more.foldl step s)) := by
  -- on what is still to come, the state after what has come left open
  induction more generalizing as s with
  | nil => rwa [List.append_nil]
  | cons a rest ih =>
      have here : Reports (faultsAlong check [] (as ++ [a])) (error (step s a))
          (Good (as ++ [a]) (step s a)) := by
        rw [faultsAlong_concat]
        exact h.append (kept s a) (next as a s)
      have final := ih here
      rwa [List.append_assoc, List.singleton_append] at final

end Reports

end

/-- A name that is no identifier. -/
def nameFaults (name : String) : List BuildError :=
  if Text.isIdentifier name.toList then [] else [.invalidName name]

/-! ### Values -/

namespace Shape

/-- What is wrong with a value behind others: it is blank, or one of these again. -/
def valueFaults (before : List String) (value : String) : List ValuesFault :=
  if (Text.trimmed value).isEmpty then [.emptyValue]
  else if Text.trimmed value ∈ before.map Text.trimmed then [.duplicate (Text.trimmed value)]
  else []

/-- What is wrong with the values of a field. -/
def valuesFaults (values : List String) : List ValuesFault :=
  if values = [] then [.noValues] else faultsAlong valueFaults [] values

theorem moreValues_eq (before rest : List String) :
    moreValues (before.map Text.trimmed) rest =
      match (faultsAlong valueFaults before rest).head? with
      | some fault => .error fault
      | none =>
        if before ++ rest = [] then .error .noValues
        else .ok ((before ++ rest).map Text.trimmed) := by
  induction rest generalizing before with
  | nil =>
      rw [moreValues, faultsAlong, List.append_nil]
      cases before with
      | nil => rfl
      | cons value before => rfl
  | cons value rest ih =>
      have more : before ++ value :: rest = before ++ [value] ++ rest := by simp
      have next := ih (before ++ [value])
      rw [List.map_append, List.map_singleton] at next
      rw [moreValues, faultsAlong, more]
      simp only [valueFaults]
      split
      · rfl
      · split
        · rfl
        · exact next

/-- Values are taken without the blanks around them, unless something is wrong with them. -/
theorem checkedValues_eq (field : String) (values : List String) :
    checkedValues field values =
      match (valuesFaults values).head? with
      | some fault => .error (.invalidValues field fault)
      | none => .ok (values.map Text.trimmed) := by
  have read := moreValues_eq [] values
  rw [List.map_nil] at read
  rw [checkedValues, read, valuesFaults]
  by_cases none : values = []
  · rw [none]
    rfl
  · rw [if_neg none, List.nil_append, if_neg none]
    split
    · rfl
    · rfl

/-! ### Definitions that are handed over -/

/-- A definition with the name of one before it and other fields. -/
def conflicts (before : List Definition) (d : Definition) : List BuildError :=
  if ∃ e ∈ before, e.name = d.name ∧ e.fields ≠ d.fields then [.conflictingDefinition d.name]
  else []

theorem conflicts_eq_nil_iff {before : List Definition} {d : Definition} :
    conflicts before d = [] ↔ ∀ e ∈ before, e.name = d.name → e.fields = d.fields := by
  rw [conflicts, ite_eq_right_iff]
  constructor
  · intro none e member same
    by_contra other
    exact List.cons_ne_nil _ _ (none ⟨e, member, same, other⟩)
  · rintro agree ⟨e, member, same, other⟩
    exact absurd (agree e member same) other

theorem agree_of_faultsAlong {ds : List Definition} (agree : faultsAlong conflicts [] ds = []) :
    ∀ d ∈ ds, ∀ e ∈ ds, d.name = e.name → d.fields = e.fields :=
  forall_mem_of_faultsAlong (R := fun d e => d.name = e.name → d.fields = e.fields)
    (fun _ _ => rfl) (fun _ _ same names => (same names.symm).symm)
    (fun _ _ => conflicts_eq_nil_iff.1) agree

/-- The first definition of a name is the one that stays. -/
theorem find?_foldl_withDefinition (ds : List Definition) (name : String) :
    (ds.foldl withDefinition []).find? (fun e => e.name = name) =
      ds.find? fun e => e.name = name := by
  induction ds using List.reverseRecOn with
  | nil => rfl
  | append_singleton ds d ih =>
      rw [List.foldl_append, List.foldl_cons, List.foldl_nil, List.find?_append, ← ih,
        withDefinition]
      split
      · next old =>
        -- a definition that is left out is behind the one that is found
        by_cases same : d.name = name
        · obtain ⟨e, member, same'⟩ := List.mem_map.1 old
          have found : ((ds.foldl withDefinition []).find? fun e => e.name = name).isSome := by
            rw [List.find?_isSome]
            exact ⟨e, member, decide_eq_true (same'.trans same)⟩
          rw [Option.or_of_isSome found]
        · rw [List.find?_cons_of_neg (by simpa using same), List.find?_nil, Option.or_none]
      · rw [List.find?_append]

/-- A definition is added to others exactly if it is in conflict with none of them. -/
theorem addDefinition_eq {before : List Definition} (agree : faultsAlong conflicts [] before = [])
    (d : Definition) : addDefinition (before.foldl withDefinition []) d =
      match (conflicts before d).head? with
      | some e => .error e
      | none => .ok ((before ++ [d]).foldl withDefinition []) := by
  have added : ∀ {es}, addDefinition (before.foldl withDefinition []) d = .ok es →
      es = (before ++ [d]).foldl withDefinition [] := by
    intro es h
    rw [List.foldl_append]
    exact eq_of_addDefinition h
  -- the definition that would be in conflict is the first one of the name
  cases found : before.find? fun e => e.name = d.name with
  | none =>
      have alone : conflicts before d = [] := by
        rw [conflicts_eq_nil_iff]
        intro e member same
        exact absurd same (by simpa using List.find?_eq_none.1 found e member)
      have ok : addDefinition (before.foldl withDefinition []) d =
          .ok (before.foldl withDefinition [] ++ [d]) := by
        rw [addDefinition, find?_foldl_withDefinition, found]
      rw [alone, ok, added ok]
      rfl
  | some e =>
      have member := List.mem_of_find?_eq_some found
      have same : e.name = d.name := by simpa using List.find?_some found
      by_cases equal : e.fields = d.fields
      · -- all others of the name have the same fields too
        have alone : conflicts before d = [] := by
          rw [conflicts_eq_nil_iff]
          intro e' member' same'
          rw [← equal]
          exact agree_of_faultsAlong agree e' member' e member (same'.trans same.symm)
        have ok : addDefinition (before.foldl withDefinition []) d =
            .ok (before.foldl withDefinition []) := by
          rw [addDefinition, find?_foldl_withDefinition, found]
          exact if_pos equal
        rw [alone, ok, added ok]
        rfl
      · have conflict : conflicts before d = [.conflictingDefinition d.name] := by
          rw [conflicts, if_pos ⟨e, member, same, equal⟩]
        rw [conflict, addDefinition, find?_foldl_withDefinition, found]
        exact if_neg equal

/-! ### Calls to a shape -/

/-- The field that a call declares. -/
def Call.field : Call → Field
  | .text name => ⟨name, .text, 0⟩
  | .money name => ⟨name, .money, 0⟩
  | .number name => ⟨name, .number, 0⟩
  | .yesNo name => ⟨name, .yesNo, 0⟩
  | .oneOf name values => ⟨name, .oneOf (values.map Text.trimmed), 0⟩
  | .object name shape => ⟨name, .object shape.definition.name, 0⟩
  | .listOf name shape => ⟨name, .listOf shape.definition.name, 0⟩

/-- The definitions that a call hands over. -/
def Call.handed : Call → List Definition
  | .object _ shape => shape.definitions
  | .listOf _ shape => shape.definitions
  | _ => []

/-- What is wrong with the values that a call gives to choose from. -/
def Call.valuesFaults : Call → List BuildError
  | .oneOf name values => (Shape.valuesFaults values).map (.invalidValues name)
  | _ => []

/-- What is wrong with the name of a field behind others: it is no identifier, or the name of one of
these. -/
def fieldFaults (title : String) (fields : List Field) (name : String) : List BuildError :=
  nameFaults name ++ if name ∈ fields.map (·.name) then [.duplicateField title name] else []

/-- What is wrong with a call behind others, in the order in which it is noticed. -/
def Call.faults (title : String) (before : List Call) (call : Call) : List BuildError :=
  call.valuesFaults ++ faultsAlong conflicts (before.flatMap Call.handed) call.handed ++
    fieldFaults title (before.map Call.field) call.field.name

/-- What is wrong with the calls that build a shape, and before them with its name. -/
def misuses (title : String) (calls : List Call) : List BuildError :=
  nameFaults title ++ faultsAlong (Call.faults title) [] calls

namespace Draft

variable {d : Draft} {e : BuildError}

/-- A draft without a misuse, with fields and with the definitions that were handed over. -/
def plain (title : String) (fields : List Field) (handed : List Definition) : Draft where
  name := title
  fields := fields
  dependencies := handed.foldl withDefinition []

theorem error_fail_of_some (h : d.error = some e) (e' : BuildError) :
    (d.fail e').error = some e := by
  rw [fail, h]
  rfl

theorem error_addDependency_of_some (h : d.error = some e) (definition : Definition) :
    (d.addDependency definition).error = some e := by
  rw [addDependency]
  split
  · exact h
  · exact error_fail_of_some h _

theorem error_dependOn_of_some (h : d.error = some e) (shape : Shape) :
    (d.dependOn shape).error = some e := by
  refine List.foldlRecOn (motive := fun d : Draft => d.error = some e) shape.definitions
    addDependency h ?_
  intro d kept definition _
  exact error_addDependency_of_some kept definition

theorem error_field_of_some (h : d.error = some e) (name : String) (type : FieldType) :
    (d.field name type).error = some e := by
  simp only [field]
  split
  · exact error_fail_of_some h _
  · split
    · exact error_fail_of_some h _
    · exact h

/-- A misuse stays under every call. -/
theorem error_call_of_some (h : d.error = some e) (call : Call) : (d.call call).error = some e := by
  cases call with
  | text name | money name | number name | yesNo name => exact error_field_of_some h name _
  | oneOf name values =>
      rw [Draft.call]
      split
      · exact error_field_of_some h name _
      · exact error_fail_of_some h _
  | object name shape | listOf name shape =>
      exact error_field_of_some (error_dependOn_of_some h shape) name _

section

variable {title : String} {fields : List Field} {ds : List Definition}

/-- A field is added, and what is wrong with its name is reported. -/
theorem reports_field {faults : List BuildError}
    (h : Reports faults d.error (d = plain title fields ds)) (name : String) (type : FieldType) :
    Reports (faults ++ fieldFaults title fields name) (d.field name type).error
      (d.field name type = plain title (fields ++ [⟨name, type, 0⟩]) ds) := by
  refine h.append (fun e faulty => error_field_of_some faulty name type) ?_
  rintro - rfl
  have repeated : (fields.any fun f => f.name = name) = true ↔ name ∈ fields.map (·.name) := by
    rw [List.any_eq_true, List.mem_map]
    simp only [decide_eq_true_eq]
  rw [field, fieldFaults, nameFaults, plain]
  cases Text.isIdentifier name.toList with
  | false => exact .of_fault rfl
  | true =>
      by_cases old : name ∈ fields.map (·.name)
      · rw [if_pos (repeated.2 old), if_pos old]
        exact .of_fault rfl
      · rw [if_neg (mt repeated.1 old), if_neg old]
        exact .of_good rfl

theorem reports_addDependency (agree : faultsAlong conflicts [] ds = []) (e : Definition) :
    Reports (conflicts ds e) ((plain title fields ds).addDependency e).error
      ((plain title fields ds).addDependency e = plain title fields (ds ++ [e])) := by
  rw [addDependency, plain, addDefinition_eq agree]
  cases conflicts ds e with
  | nil => exact .of_good rfl
  | cons fault others => exact .of_fault rfl

/-- The definitions of a shape are handed over one after the other. -/
theorem reports_dependOn (agree : faultsAlong conflicts [] ds = []) (shape : Shape) :
    Reports (faultsAlong conflicts ds shape.definitions)
      ((plain title fields ds).dependOn shape).error
      ((plain title fields ds).dependOn shape = plain title fields (ds ++ shape.definitions)) := by
  have start : Reports (faultsAlong conflicts [] ds) (plain title fields ds).error
      (plain title fields ds = plain title fields ds) := by
    rw [agree]
    exact .of_good rfl
  have next : ∀ handed e (d : Draft), faultsAlong conflicts [] handed = [] →
      d = plain title fields handed → Reports (conflicts handed e) (d.addDependency e).error
        (d.addDependency e = plain title fields (handed ++ [e])) := by
    rintro handed e d agree rfl
    exact reports_addDependency agree e
  have final := start.foldl Draft.error addDependency
    (fun handed d => d = plain title fields handed)
    (fun d e fault faulty => error_addDependency_of_some faulty e) next shape.definitions
  rwa [faultsAlong_append, agree, List.nil_append, List.nil_append] at final

end

/-- Calls that are right so far hand over definitions that agree. -/
theorem agree_of_right {title : String} {calls : List Call}
    (right : faultsAlong (Call.faults title) [] calls = []) :
    faultsAlong conflicts [] (calls.flatMap Call.handed) = [] := by
  induction calls using List.reverseRecOn with
  | nil => rfl
  | append_singleton calls call ih =>
      rw [faultsAlong_concat, List.append_eq_nil_iff, Call.faults, List.append_eq_nil_iff,
        List.append_eq_nil_iff] at right
      obtain ⟨others, ⟨-, here⟩, -⟩ := right
      -- what the last call hands over was checked against all definitions before
      rw [List.flatMap_append, List.flatMap_singleton, faultsAlong_append, ih others,
        List.nil_append, List.nil_append, here]

/-- The draft without a misuse that calls lead to. -/
def described (title : String) (calls : List Call) : Draft :=
  plain title (calls.map Call.field) (calls.flatMap Call.handed)

/-- What is wrong with a call is reported, if nothing was wrong before. -/
theorem reports_call {title : String} {before : List Call}
    (right : faultsAlong (Call.faults title) [] before = []) (call : Call) :
    Reports (call.faults title before) ((described title before).call call).error
      ((described title before).call call = described title (before ++ [call])) := by
  have start : Reports [] (described title before).error
      (described title before = described title before) := .of_good rfl
  have agree := agree_of_right right
  rw [Call.faults, described, described, List.map_append, List.flatMap_append,
    List.flatMap_singleton, List.map_singleton]
  cases call with
  | text name | money name | number name | yesNo name =>
      -- no definitions are handed over
      simp only [Call.handed, List.append_nil]
      exact reports_field start name _
  | oneOf name values =>
      simp only [Call.handed, List.append_nil]
      rw [Call.valuesFaults, faultsAlong, List.append_nil, Draft.call, checkedValues_eq]
      cases Shape.valuesFaults values with
      | nil => exact reports_field start name _
      | cons fault others => exact .of_fault rfl
  | object name shape | listOf name shape =>
      exact reports_field (reports_dependOn agree shape) name _

/-- The first misuse is reported, and without one the draft is what the calls say. -/
theorem reports_foldl (title : String) (calls : List Call) :
    Reports (misuses title calls) (calls.foldl Draft.call (new title)).error
      (calls.foldl Draft.call (new title) = described title calls) := by
  have kept : ∀ (d : Draft) (call : Call) e, d.error = some e → (d.call call).error = some e :=
    fun d call e faulty => error_call_of_some faulty call
  have start : Reports (nameFaults title) (new title).error
      (new title = described title []) := by
    rw [new, nameFaults]
    split
    · exact .of_good rfl
    · exact .of_fault rfl
  -- the name is looked at before the first call
  refine start.append (fun e faulty => ?_) fun _ same => ?_
  · exact List.foldlRecOn (motive := fun d : Draft => d.error = some e) calls Draft.call faulty
      fun d faulty call _ => kept d call e faulty
  · have next : ∀ before call (d : Draft), faultsAlong (Call.faults title) [] before = [] →
        d = described title before → Reports (call.faults title before) (d.call call).error
          (d.call call = described title (before ++ [call])) := by
      rintro before call d right rfl
      exact reports_call right call
    have begun : Reports (faultsAlong (Call.faults title) [] []) (new title).error
        (new title = described title []) := by
      rw [same]
      exact .of_good rfl
    exact begun.foldl Draft.error Draft.call (fun calls d => d = described title calls) kept next
      calls

end Draft

/-- A shape is built from calls without a misuse, and the first misuse is reported. -/
theorem build_eq (title : String) (calls : List Call) : build title calls =
    match (misuses title calls).head? with
    | some e => .error e
    | none => .ok ⟨⟨title, calls.map Call.field, 0⟩,
        (calls.flatMap Call.handed).foldl withDefinition []⟩ := by
  obtain ⟨good, bad⟩ := Draft.reports_foldl title calls
  cases faults : misuses title calls with
  | nil =>
      rw [build, good faults]
      rfl
  | cons e others =>
      rw [build, Draft.build, bad e (by rw [faults]; rfl)]
      rfl

end Shape

end RecordInference
