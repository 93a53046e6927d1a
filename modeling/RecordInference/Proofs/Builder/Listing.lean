import RecordInference.Proofs.Builder.Pipeline
import RecordInference.Proofs.Declaration.Listing
import RecordInference.Proofs.Declaration.Regularity

/-!
# Programs that are listed

The lines of a definition that are taken up one after the other leave the definition open, with
the fields under the numbers of their lines (`takeAll_definition`), and each line of a construct
adds the construct (`takeAll_steps`). So a regular program whose parts are on the lines that they
are numbered by (`Program.Listed`) is read from its text if the values and categories in it are
told apart (`Program.read_text`). If they are not, its text is not read at all
(`Program.unbroken_of_read_text`): the same lines are followed up to the first list that is taken
apart.
-/

set_option autoImplicit false

namespace RecordInference

open Text Declaration Pipeline

variable {margin n : Nat} {s s' : State}

namespace Declaration

/-! ### Lines of a listing -/

theorem statements_cons_indented {cs : List Char} (trimmed : Trimmed cs)
    (loud : isSilent cs = false) (n indent : Nat) (raws : List (List Char)) :
    statements n (indented indent cs :: raws) = ⟨n, indent, cs⟩ :: statements (n + 1) raws := by
  rw [statements, statement?_indented trimmed loud]
  rfl

theorem isSilent_row {w : String} (opening : Opening w.toList) (words : List String) :
    isSilent (row (w :: words)) = false := isSilent_intercalate opening _

/-- The line of a field. -/
def fieldLine (n margin : Nat) (f : Field) : Statement := ⟨n, margin, row [f.name, f.type.written]⟩

theorem statements_cons_field {f : Field} (regular : f.Regular) (n margin : Nat)
    (raws : List (List Char)) :
    statements n (indented margin (row [f.name, f.type.written]) :: raws) =
      fieldLine n margin f :: statements (n + 1) raws := by
  apply statements_cons_indented
  · apply trimmed_row (List.cons_ne_nil _ _)
    exact List.forall_mem_cons.2 ⟨(oneLine_of_isIdentifier regular.name).1,
      List.forall_mem_singleton.2 (oneLine_written regular.type).1⟩
  · exact isSilent_row (opening_of_isIdentifier regular.name) _

/-- The line of a field adds the field to the open definition. -/
theorem take_fieldLine {f : Field} {d : Definition} (pos : 0 < margin) (regular : f.Regular)
    (unbroken : f.type.Unbroken) (fresh : f.name ∉ d.fields.map (·.name)) (n : Nat) (s : State) :
    State.take { s with block := some ⟨0, d⟩ } (fieldLine n margin f) = .ok { s with
      block := some ⟨0, { d with fields := d.fields ++ [{ f with line := n }] }⟩ } := by
  have read : readField (fieldLine n margin f).line (fieldLine n margin f).text =
      .ok { f with line := n } := by
    rw [fieldLine, readField_row regular, readType_written regular.type unbroken]
    rfl
  have fresh' : ({ f with line := n } : Field).name ∉ d.fields.map (·.name) := fresh
  exact take_of_readField read pos fresh' s

/-- If the line of a field is taken up at all, the values of the field are told apart. -/
theorem unbroken_of_take {f : Field} {d : Definition} (pos : 0 < margin) (regular : f.Regular)
    (taken : State.take { s with block := some ⟨0, d⟩ } (fieldLine n margin f) = .ok s') :
    f.type.Unbroken := by
  simp only [State.take, fieldLine, if_pos pos, readField_row regular] at taken
  obtain ⟨f', read, -⟩ := Except.bind_eq_ok_iff.1 taken
  obtain ⟨type, read, -⟩ := Except.map_eq_ok_iff.1 read
  exact unbroken_of_readType read

theorem nodup_renumbered {fields rest : List Field} {f : Field} (n : Nat)
    (distinct : ((fields ++ [f] ++ rest).map (·.name)).Nodup) :
    ((fields ++ [({ f with line := n } : Field)] ++ rest).map (·.name)).Nodup := by
  simpa using distinct

/-- The lines of fields add the fields to the open definition, under their own numbers. -/
theorem takeAll_fields (pos : 0 < margin) {fields : List Field} (regular : ∀ f ∈ fields, f.Regular)
    (unbroken : ∀ f ∈ fields, f.type.Unbroken) (d : Definition)
    (distinct : ((d.fields ++ fields).map (·.name)).Nodup) (n : Nat) (s : State) :
    takeAll (statements n (fields.map fun f => indented margin (row [f.name, f.type.written])))
      { s with block := some ⟨0, d⟩ } = .ok { s with
        block := some ⟨0, { d with fields := d.fields ++ numberFields n fields }⟩ } := by
  induction fields generalizing n d with
  | nil =>
      rw [numberFields, List.append_nil]
      rfl
  | cons f rest ih =>
      obtain ⟨here, later⟩ := List.forall_mem_cons.1 regular
      obtain ⟨whole, others⟩ := List.forall_mem_cons.1 unbroken
      rw [List.append_cons] at distinct
      have taken := take_fieldLine pos here whole (fresh_of_nodup distinct) n s
      rw [List.map_cons, statements_cons_field here, takeAll_cons_of_ok taken,
        ih later others _ (nodup_renumbered n distinct), numberFields, ← List.append_cons]

theorem takeAll_cons_eq_ok_iff {st : Statement} {sts : List Statement} :
    takeAll (st :: sts) s = .ok s' ↔ ∃ s₁, s.take st = .ok s₁ ∧ takeAll sts s₁ = .ok s' := by
  rw [takeAll]
  cases s.take st with
  | error cause => simp
  | ok s₁ => simp

/-- If the lines of fields are taken up at all, the values of the fields are told apart. -/
theorem unbroken_of_takeAll_fields (pos : 0 < margin) {fields : List Field}
    (regular : ∀ f ∈ fields, f.Regular) {d : Definition}
    (distinct : ((d.fields ++ fields).map (·.name)).Nodup)
    (taken : takeAll (statements n
      (fields.map fun f => indented margin (row [f.name, f.type.written])))
        { s with block := some ⟨0, d⟩ } = .ok s') : ∀ f ∈ fields, f.type.Unbroken := by
  induction fields generalizing n d with
  | nil => exact nofun
  | cons f rest ih =>
      obtain ⟨here, later⟩ := List.forall_mem_cons.1 regular
      rw [List.append_cons] at distinct
      rw [List.map_cons, statements_cons_field here, takeAll_cons_eq_ok_iff] at taken
      obtain ⟨s₁, first, others⟩ := taken
      have whole := unbroken_of_take pos here first
      -- so the line is read as the field, and the other lines go on behind it
      rw [take_fieldLine pos here whole (fresh_of_nodup distinct)] at first
      cases first
      exact List.forall_mem_cons.2 ⟨whole, ih later (nodup_renumbered n distinct) others⟩

/-! ### Definitions -/

/-- Whether the open definition, if there is one, has its header in front of the line. -/
def State.AtMargin (s : State) : Prop := ∀ i ∈ s.header, i = 0

theorem take_header {name : String} (identifier : isIdentifier name.toList = true)
    (margin : s.AtMargin) (fresh : name ∉ s.allDefinitions.map (·.name)) (n : Nat) :
    s.take ⟨n, 0, row ["DEFINE", name ++ ":"]⟩ = .ok
      { s.close with block := some ⟨0, ⟨name, [], n⟩⟩, inRun := false } := by
  have outside : Statement.Outside s.header ⟨n, 0, row ["DEFINE", name ++ ":"]⟩ := by
    intro i header
    rw [margin i header]
  rw [take_of_outside outside, topLine_header identifier fresh]

theorem solid_title {name : String} (identifier : isIdentifier name.toList = true) :
    Solid (name ++ ":").toList := by
  rw [String.toList_append]
  obtain ⟨some, solid⟩ := Solid.of_isIdentifier identifier
  refine ⟨List.append_ne_nil_of_left_ne_nil some _, List.forall_mem_append.2 ⟨solid, ?_⟩⟩
  exact List.forall_mem_singleton.2 (by decide)

theorem statements_cons_header {name : String} (identifier : isIdentifier name.toList = true)
    (n : Nat) (raws : List (List Char)) :
    statements n (row ["DEFINE", name ++ ":"] :: raws) =
      ⟨n, 0, row ["DEFINE", name ++ ":"]⟩ :: statements (n + 1) raws := by
  have trimmed : Trimmed (row ["DEFINE", name ++ ":"]) := by
    apply trimmed_row (List.cons_ne_nil _ _)
    exact List.forall_mem_cons.2 ⟨Solid.trimmed (by decide),
      List.forall_mem_singleton.2 (solid_title identifier).trimmed⟩
  exact statements_cons_indented trimmed (isSilent_row ⟨_, _, rfl, by decide⟩ _) n 0 raws

/-- The lines of a definition add the definition, under their own numbers. -/
theorem takeAll_definition (pos : 0 < margin) {d : Definition} (regular : d.Regular)
    (unbroken : ∀ f ∈ d.fields, f.type.Unbroken) (left : s.AtMargin)
    (fresh : d.name ∉ s.allDefinitions.map (·.name)) (n : Nat) :
    takeAll (statements n (d.rows margin)) s = .ok { s.close with
      block := some ⟨0, { d with line := n, fields := numberFields (n + 1) d.fields }⟩,
      inRun := false } := by
  rw [Definition.rows, statements_cons_header regular.name,
    takeAll_cons_of_ok (take_header regular.name left fresh n)]
  exact takeAll_fields pos regular.fields unbroken ⟨d.name, [], n⟩ regular.distinct (n + 1)
    { s.close with inRun := false }

theorem unbroken_of_takeAll_definition (pos : 0 < margin) {d : Definition} (regular : d.Regular)
    (left : s.AtMargin) (fresh : d.name ∉ s.allDefinitions.map (·.name))
    (taken : takeAll (statements n (d.rows margin)) s = .ok s') :
    ∀ f ∈ d.fields, f.type.Unbroken := by
  rw [Definition.rows, statements_cons_header regular.name,
    takeAll_cons_of_ok (take_header regular.name left fresh n)] at taken
  exact unbroken_of_takeAll_fields (d := ⟨d.name, [], n⟩) (s := { s.close with inRun := false }) pos
    regular.fields regular.distinct taken

theorem statements_append_rows (n margin : Nat) (d : Definition) (raws : List (List Char)) :
    statements n (d.rows margin ++ raws) =
      statements n (d.rows margin) ++ statements (n + 1 + d.fields.length) raws := by
  rw [statements_append, Definition.rows, List.length_cons, List.length_map, Nat.add_assoc,
    Nat.add_comm 1]

/-- The lines of definitions add the definitions, under their own numbers. -/
theorem takeAll_definitions (pos : 0 < margin) {ds : List Definition}
    (regular : ∀ d ∈ ds, d.Regular) (unbroken : ∀ d ∈ ds, ∀ f ∈ d.fields, f.type.Unbroken)
    (left : s.AtMargin) (idle : s.inRun = false)
    (distinct : ((s.allDefinitions ++ ds).map (·.name)).Nodup) (n : Nat) :
    ∃ s', takeAll (statements n (ds.flatMap (Definition.rows margin))) s = .ok s' ∧ s'.AtMargin ∧
      s'.close =
        ⟨s.allDefinitions ++ numberDefinitions n ds, none, s.settings, s.pipeline, false⟩ := by
  induction ds generalizing s n with
  | nil =>
      refine ⟨s, rfl, left, ?_⟩
      rw [numberDefinitions, List.append_nil, ← idle]
      rfl
  | cons d rest ih =>
      obtain ⟨here, later⟩ := List.forall_mem_cons.1 regular
      obtain ⟨whole, others⟩ := List.forall_mem_cons.1 unbroken
      rw [List.append_cons] at distinct
      have first := takeAll_definition pos here whole left (fresh_of_nodup distinct) n
      -- the definition stays open in front of the others, and the next header closes it
      have names : ((s.allDefinitions ++
          [{ d with line := n, fields := numberFields (n + 1) d.fields }] ++ rest).map
            Definition.name).Nodup := by
        simpa using distinct
      obtain ⟨s', taken, left', final⟩ := ih later others (s := { s.close with
        block := some ⟨0, { d with line := n, fields := numberFields (n + 1) d.fields }⟩,
        inRun := false }) (by rintro _ ⟨⟩; rfl) rfl names (n + 1 + d.fields.length)
      refine ⟨s', ?_, left', ?_⟩
      · rw [List.flatMap_cons, statements_append_rows, takeAll_append_of_ok first, taken]
      · rw [final, numberDefinitions, List.append_cons]
        rfl

/-- If the lines of definitions are taken up at all, the values of their fields are told apart. -/
theorem unbroken_of_takeAll_definitions (pos : 0 < margin) {ds : List Definition}
    (regular : ∀ d ∈ ds, d.Regular) (left : s.AtMargin)
    (distinct : ((s.allDefinitions ++ ds).map (·.name)).Nodup)
    (taken : takeAll (statements n (ds.flatMap (Definition.rows margin))) s = .ok s') :
    ∀ d ∈ ds, ∀ f ∈ d.fields, f.type.Unbroken := by
  induction ds generalizing s n with
  | nil => exact nofun
  | cons d rest ih =>
      obtain ⟨here, later⟩ := List.forall_mem_cons.1 regular
      rw [List.append_cons] at distinct
      have fresh := fresh_of_nodup distinct
      rw [List.flatMap_cons, statements_append_rows, takeAll_append] at taken
      obtain ⟨s₁, first, others⟩ := Except.bind_eq_ok_iff.1 taken
      have whole := unbroken_of_takeAll_definition pos here left fresh first
      -- so its lines add the definition, and those of the others come behind it
      rw [takeAll_definition pos here whole left fresh] at first
      cases first
      refine List.forall_mem_cons.2 ⟨whole, ih later ?_ ?_ others⟩
      · rintro _ ⟨⟩
        rfl
      · simpa [State.allDefinitions, State.close] using distinct

/-! ### Constructs -/

/-- The words of a construct are each on one line, and the first of them is a keyword. -/
theorem oneLine_words {step : Step} (regular : step.Regular) (listed : step.isSet = false) :
    (∀ w ∈ step.words, OneLine w.toList) ∧
      ∃ w words, step.words = w :: words ∧ Opening w.toList := by
  cases step with
  | source locator line =>
      exact ⟨List.forall_mem_cons.2 ⟨oneLine_of_solid (by decide),
        List.forall_mem_singleton.2 regular⟩, _, _, rfl, _, _, rfl, by decide⟩
  | output locator line =>
      exact ⟨List.forall_mem_cons.2 ⟨oneLine_of_solid (by decide),
        List.forall_mem_singleton.2 regular⟩, _, _, rfl, _, _, rfl, by decide⟩
  | rule expression line =>
      exact ⟨List.forall_mem_cons.2 ⟨oneLine_of_solid (by decide),
        List.forall_mem_cons.2 ⟨oneLine_of_solid (by decide),
          List.forall_mem_singleton.2 regular⟩⟩, _, _, rfl, _, _, rfl, by decide⟩
  | inference step =>
      refine ⟨List.forall_mem_cons.2 ⟨oneLine_of_solid (solid_keyword step.verb),
        oneLine_details regular⟩, _, _, rfl, ?_⟩
      cases step.verb with
      | extract | classify | draft => exact ⟨_, _, rfl, by decide⟩
  | set => cases listed

theorem statements_cons_step {step : Step} (regular : step.Regular) (listed : step.isSet = false)
    (n : Nat) (raws : List (List Char)) :
    statements n (row step.words :: raws) = ⟨n, 0, row step.words⟩ :: statements (n + 1) raws := by
  obtain ⟨oneLine, w, words, eq, opening⟩ := oneLine_words regular listed
  rw [eq] at oneLine ⊢
  have trimmed := trimmed_row (List.cons_ne_nil w words) fun v member => (oneLine v member).1
  exact statements_cons_indented trimmed (isSilent_row opening words) n 0 raws

/-- The lines of constructs add the constructs, which have the numbers of their lines. -/
theorem takeAll_steps {steps : List Step} (regular : ∀ step ∈ steps, step.Regular)
    (unbroken : ∀ step ∈ steps, step.Unbroken) (listed : ∀ step ∈ steps, step.isSet = false)
    (numbered : steps.map Step.line = List.range' n steps.length) (closed : s.block = none)
    (idle : s.inRun = false) :
    takeAll (statements n (steps.map fun step => row step.words)) s =
      .ok { s with pipeline := s.pipeline ++ steps } := by
  induction steps generalizing s n with
  | nil =>
      rw [List.append_nil]
      rfl
  | cons step rest ih =>
      obtain ⟨here, later⟩ := List.forall_mem_cons.1 regular
      obtain ⟨whole, others⟩ := List.forall_mem_cons.1 unbroken
      obtain ⟨construct, constructs⟩ := List.forall_mem_cons.1 listed
      rw [List.map_cons, List.length_cons, List.range'_succ, List.cons.injEq] at numbered
      obtain ⟨rfl, numbers⟩ := numbered
      have taken : s.take ⟨step.line, 0, row step.words⟩ =
          .ok { s with pipeline := s.pipeline ++ [step] } := by
        rw [take_of_closed closed, topLine_row here whole construct, ← idle]
        rfl
      rw [List.map_cons, statements_cons_step here construct, takeAll_cons_of_ok taken,
        List.append_cons s.pipeline step rest]
      exact ih later others constructs numbers (s := { s with pipeline := s.pipeline ++ [step] })
        closed idle

/-- If the lines of constructs are taken up at all, their categories are told apart. -/
theorem unbroken_of_takeAll_steps {steps : List Step} (regular : ∀ step ∈ steps, step.Regular)
    (listed : ∀ step ∈ steps, step.isSet = false)
    (numbered : steps.map Step.line = List.range' n steps.length) (closed : s.block = none)
    (taken : takeAll (statements n (steps.map fun step => row step.words)) s = .ok s') :
    ∀ step ∈ steps, step.Unbroken := by
  induction steps generalizing s n with
  | nil => exact nofun
  | cons step rest ih =>
      obtain ⟨here, later⟩ := List.forall_mem_cons.1 regular
      obtain ⟨construct, constructs⟩ := List.forall_mem_cons.1 listed
      rw [List.map_cons, List.length_cons, List.range'_succ, List.cons.injEq] at numbered
      obtain ⟨rfl, numbers⟩ := numbered
      rw [List.map_cons, statements_cons_step here construct, takeAll_cons_eq_ok_iff] at taken
      obtain ⟨s₁, first, others⟩ := taken
      rw [take_of_closed closed] at first
      have whole := unbroken_of_topLine here first
      -- so the line adds the construct, and the others go on behind it
      rw [topLine_row here whole construct] at first
      cases first
      have shut : (State.push { s with inRun := false } step).block = none := closed
      exact List.forall_mem_cons.2 ⟨whole, ih later constructs numbers shut others⟩

end Declaration

/-! ### Programs -/

/-- Whether a program can be listed: it has no settings, and its parts have the numbers of their
lines, the definitions first. -/
structure Program.Listed (p : Program) : Prop where
  settings : p.settings = []
  steps : ∀ step ∈ p.pipeline, step.isSet = false
  definitions : numberDefinitions 1 p.definitions = p.definitions
  pipeline : p.pipeline.map Step.line =
    List.range' (1 + lineCount p.definitions) p.pipeline.length

/-- Whether the values and categories of a program are told apart. -/
def Program.Unbroken (p : Program) : Prop :=
  (∀ d ∈ p.definitions, ∀ f ∈ d.fields, f.type.Unbroken) ∧ ∀ step ∈ p.pipeline, step.Unbroken

namespace Program

variable {p p' : Program}

theorem length_rows (margin : Nat) (ds : List Definition) :
    (ds.flatMap (Definition.rows margin)).length = lineCount ds := by
  induction ds with
  | nil => rfl
  | cons d rest ih =>
      have count : lineCount (d :: rest) = 1 + d.fields.length + lineCount rest := rfl
      rw [List.flatMap_cons, List.length_append, ih, Definition.rows, List.length_cons,
        List.length_map, count, Nat.add_comm 1]

theorem not_mem_rows {d : Definition} (regular : d.Regular) (margin : Nat) :
    ∀ raw ∈ d.rows margin, '\n' ∉ raw := by
  refine List.forall_mem_cons.2 ⟨?_, fun raw member => ?_⟩
  · have title := oneLine_of_solid (solid_title regular.name)
    exact (oneLine_row (List.cons_ne_nil _ _) (List.forall_mem_cons.2
      ⟨oneLine_of_solid (by decide), List.forall_mem_singleton.2 title⟩)).2
  · obtain ⟨f, declared, rfl⟩ := List.mem_map.1 member
    have field := regular.fields f declared
    have oneLine : OneLine (row [f.name, f.type.written]) := by
      apply oneLine_row (List.cons_ne_nil _ _)
      exact List.forall_mem_cons.2 ⟨oneLine_of_isIdentifier field.name,
        List.forall_mem_singleton.2 (oneLine_written field.type)⟩
    intro ending
    rcases List.mem_append.1 ending with blank | inside
    · cases List.eq_of_mem_replicate blank
    · exact oneLine.2 inside

/-- The lines of a regular program are those of its text. -/
theorem statements_text (regular : p.Regular) (listed : p.Listed) (margin : Nat) :
    statements 1 (lines (p.text margin).toList) = statements 1 (p.rows margin) := by
  have whole : ∀ raw ∈ p.rows margin, '\n' ∉ raw := by
    refine List.forall_mem_append.2 ⟨fun raw member => ?_, fun raw member => ?_⟩
    · obtain ⟨d, defined, inside⟩ := List.mem_flatMap.1 member
      exact not_mem_rows (regular.definitions d defined) margin raw inside
    · obtain ⟨step, there, rfl⟩ := List.mem_map.1 member
      obtain ⟨oneLine, w, words, eq, -⟩ :=
        oneLine_words (regular.pipeline step there) (listed.steps step there)
      rw [eq] at oneLine ⊢
      exact (oneLine_row (List.cons_ne_nil w words) oneLine).2
  rw [Program.text, String.toList_ofList, lines_ofLines whole, statements_dropReturn]

/-- The lines of constructs are not taken for fields. -/
theorem outside_of_steps (regular : p.Regular) (listed : p.Listed) (left : s.AtMargin) :
    ∀ st ∈ (statements n (p.pipeline.map fun step => row step.words)).head?,
      st.Outside s.header := by
  intro st first i header
  obtain rfl := left i header
  cases steps : p.pipeline with
  | nil =>
      rw [steps] at first
      cases first
  | cons step rest =>
      have member : step ∈ p.pipeline := steps ▸ List.mem_cons_self
      rw [steps, List.map_cons, statements_cons_step (regular.pipeline step member)
        (listed.steps step member)] at first
      cases first
      exact Nat.le_refl 0

theorem read_text_eq (regular : p.Regular) (listed : p.Listed) (margin : Nat) :
    read (p.text margin) =
      (takeAll (statements 1 (p.definitions.flatMap (Definition.rows margin))) {} >>=
        takeAll (statements (1 + lineCount p.definitions)
          (p.pipeline.map fun step => row step.words))).map State.program := by
  rw [Declaration.read, readLines_eq_takeAll, statements_text regular listed, Program.rows,
    statements_append, length_rows, takeAll_append]

/-- A program is read from its text, if its values and categories are told apart. -/
theorem read_text (regular : p.Regular) (listed : p.Listed) (unbroken : p.Unbroken)
    (pos : 0 < margin) : read (p.text margin) = .ok p := by
  obtain ⟨s, taken, left, closed⟩ := takeAll_definitions (s := {}) pos regular.definitions
    unbroken.1 nofun rfl regular.distinct 1
  have final := takeAll_steps regular.pipeline unbroken.2 listed.steps listed.pipeline
    (s := s.close) rfl (by rw [closed])
  -- the first construct closes the last definition
  have outside := outside_of_steps (n := 1 + lineCount p.definitions) regular listed left
  have behind := takeAll_close outside
  rw [read_text_eq regular listed, taken]
  show (takeAll _ s).map State.program = _
  rw [behind, final, closed]
  refine congrArg Except.ok ?_
  simp [State.program, State.allDefinitions, listed.definitions, ← listed.settings]

/-- If a text is read at all, the values and categories of its program are told apart. -/
theorem unbroken_of_read_text (regular : p.Regular) (listed : p.Listed) (pos : 0 < margin)
    (taken : read (p.text margin) = .ok p') : p.Unbroken := by
  rw [read_text_eq regular listed] at taken
  obtain ⟨s', taken, -⟩ := Except.map_eq_ok_iff.1 taken
  obtain ⟨s, definitions, pipeline⟩ := Except.bind_eq_ok_iff.1 taken
  -- the definitions come first, and where they end is known once their values are told apart
  have values := unbroken_of_takeAll_definitions (s := {}) pos regular.definitions nofun
    regular.distinct definitions
  refine ⟨values, ?_⟩
  obtain ⟨s₁, same, left, -⟩ := takeAll_definitions (s := {}) pos regular.definitions values nofun
    rfl regular.distinct 1
  rw [definitions] at same
  cases same
  have outside := outside_of_steps (n := 1 + lineCount p.definitions) regular listed left
  have behind := takeAll_close outside
  rw [pipeline] at behind
  obtain ⟨s₂, closed, -⟩ := Except.map_eq_ok_iff.1 behind.symm
  exact unbroken_of_takeAll_steps (s := s.close) regular.pipeline listed.steps listed.pipeline rfl
    closed

end Program

end RecordInference
