import RecordInference.Proofs.Decimal.Exact
import RecordInference.Proofs.Declaration.Completeness

/-!
# Writing a program

Every well-formed program can be written (`exists_writtenAs`): a line for each construct, with single
blanks between its words. `Sayable` says that there are lines of which something holds wherever they
stand; the lines of a program are put together from those of its parts. What is read from any text that
writes a program is the program, with the lines that its constructs have in the text
(`read_of_writtenAs`).
-/

set_option autoImplicit false

namespace RecordInference

open Text Declaration

/-- The program without the numbers of its lines. -/
def Program.unnumbered (p : Program) : Program := p.renumber fun _ => 0

/-- Whether the text writes the program, whatever the lines of its constructs are. -/
def Program.WrittenAs (p : Program) (text : String) : Prop :=
  ∃ p' : Program, p'.unnumbered = p.unnumbered ∧ p'.Written (statements 1 (lines text.toList))

namespace Declaration

variable {w : List Char} {words : List (List Char)}

/-! ### Lines that can be written -/

/-- Whether there are lines of which this holds, wherever they stand. -/
def Sayable (said : List Statement → Prop) : Prop :=
  ∃ raws : List (List Char), (∀ raw ∈ raws, '\n' ∉ raw) ∧ ∀ n, said (statements n raws)

theorem Sayable.nil {said : List Statement → Prop} (h : said []) : Sayable said :=
  ⟨[], nofun, fun _ => h⟩

theorem Sayable.mono {said said' : List Statement → Prop} (h : Sayable said)
    (weaken : ∀ sts, said sts → said' sts) : Sayable said' := by
  obtain ⟨raws, whole, each⟩ := h
  exact ⟨raws, whole, fun n => weaken _ (each n)⟩

theorem Sayable.append {said said' both : List Statement → Prop} (h : Sayable said)
    (h' : Sayable said') (join : ∀ sts sts', said sts → said' sts' → both (sts ++ sts')) :
    Sayable both := by
  obtain ⟨raws, whole, each⟩ := h
  obtain ⟨raws', whole', each'⟩ := h'
  refine ⟨raws ++ raws', List.forall_mem_append.2 ⟨whole, whole'⟩, fun n => ?_⟩
  rw [statements_append]
  exact join _ _ (each n) (each' _)

theorem oneLine_of_solid (h : Solid w) : OneLine w :=
  ⟨h.trimmed, fun member => absurd (h.2 _ member) (by decide)⟩

theorem spaced_intercalate (some : words ≠ []) : Spaced words ([' '].intercalate words) := by
  induction words with
  | nil => exact absurd rfl some
  | cons w rest ih =>
      cases rest with
      | nil =>
          rw [List.intercalate_singleton]
          exact .one w
      | cons next rest =>
          rw [List.intercalate_cons_cons]
          exact .cons w (List.forall_mem_singleton.2 (by decide)) (List.cons_ne_nil _ _)
            (ih (List.cons_ne_nil next rest))

/-- A text with single blanks in front. -/
def indented (indent : Nat) (cs : List Char) : List Char := List.replicate indent ' ' ++ cs

theorem statement?_indented {cs : List Char} (trimmed : Trimmed cs) (loud : isSilent cs = false)
    (line indent : Nat) : statement? line (indented indent cs) = some ⟨line, indent, cs⟩ := by
  have blank : Blanks (List.replicate indent ' ') := by
    intro c member
    rw [List.eq_of_mem_replicate member]
    decide
  have same : trim (indented indent cs) = cs := by
    rw [indented, trim_blanks_append blank, trimmed.2]
  have front : Text.indent (indented indent cs) = indent := by
    have first : cs.takeWhile isBlank = [] := by
      have parts := @List.takeWhile_append_dropWhile _ isBlank cs
      rwa [← trimStart, trimmed.trimStart_eq, List.append_left_eq_self] at parts
    have size : ∀ n, width (List.replicate n ' ') = n := by
      intro n
      induction n with
      | zero => rfl
      | succ n ih => rw [List.replicate_succ, width, List.foldr_cons, ← width, ih, Nat.add_comm]; rfl
    rw [Text.indent, indented, List.takeWhile_append_of_pos blank, first, List.append_nil, size]
  rw [statement?, same, loud, front]
  rfl

/-- A word that does not open a comment. -/
def Opening (w : List Char) : Prop := ∃ c cs, w = c :: cs ∧ c ≠ '-'

theorem opening_of_isIdentifier (h : isIdentifier w = true) : Opening w := by
  cases w with
  | nil => cases h
  | cons c cs =>
      refine ⟨c, cs, rfl, ?_⟩
      rintro rfl
      cases h

theorem isSilent_intercalate (h : Opening w) (words : List (List Char)) :
    isSilent ([' '].intercalate (w :: words)) = false := by
  obtain ⟨c, cs, rfl, loud⟩ := h
  obtain ⟨rest, eq⟩ : ∃ rest, [' '].intercalate ((c :: cs) :: words) = c :: rest := by
    cases words with
    | nil => exact ⟨cs, List.intercalate_singleton⟩
    | cons next words => exact ⟨_, List.intercalate_cons_cons⟩
  rw [eq, isSilent]
  · intro same
    cases same
  · intro rest' same
    exact loud (List.cons.inj same).1

/-- A line of words. -/
theorem sayable_line (opening : Opening w) (oneLine : ∀ v ∈ w :: words, OneLine v) (indent : Nat) :
    Sayable fun sts => ∃ st, sts = [st] ∧ st.indent = indent ∧ Spaced (w :: words) st.text := by
  have spaced := spaced_intercalate (List.cons_ne_nil w words)
  have trimmed := spaced.trimmed fun v member => (oneLine v member).1
  refine ⟨[indented indent ([' '].intercalate (w :: words))], ?_, fun n => ?_⟩
  · refine List.forall_mem_singleton.2 fun member => ?_
    rcases List.mem_append.1 member with blank | inside
    · cases List.eq_of_mem_replicate blank
    · rcases mem_intercalate inside with blank | ⟨v, there, inside⟩
      · cases blank
      · exact (oneLine v there).2 inside
  · rw [statements, statement?_indented trimmed (isSilent_intercalate opening words)]
    exact ⟨_, rfl, rfl, spaced⟩

/-- A line that opens with a keyword, without an indent. -/
theorem sayable_keyword {keyword : String} (opening : Opening keyword.toList)
    (solid : Solid keyword.toList) (oneLine : ∀ v ∈ words, OneLine v) :
    Sayable fun sts => ∃ st, sts = [st] ∧ st.indent = 0 ∧
      Spaced (keyword.toList :: words) st.text :=
  sayable_line opening (List.forall_mem_cons.2 ⟨oneLine_of_solid solid, oneLine⟩) 0

/-! ### Definitions -/

theorem oneLine_of_isIdentifier (h : isIdentifier w = true) : OneLine w :=
  oneLine_of_solid (.of_isIdentifier h)

theorem listed_intercalate (values : List String) :
    Listed values ('[' :: [','].intercalate (values.map String.toList) ++ [']']) := by
  refine ⟨values.map String.toList, ?_, rfl⟩
  rw [List.forall₂_map_right_iff]
  exact List.forall₂_same.2 fun value _ => ⟨[], [], nofun, nofun, by simp⟩

/-- Every list can be written in a line. -/
theorem exists_listed {values : List String} (list : IsList values) :
    ∃ cs, Listed values cs ∧ OneLine cs := by
  have listed := listed_intercalate values
  refine ⟨_, listed, (IsToken.of_listed list listed).1, fun member => ?_⟩
  rcases List.mem_append.1 member with front | last
  · rcases List.mem_cons.1 front with first | inside
    · cases first
    · rcases mem_intercalate inside with comma | ⟨piece, there, inside⟩
      · cases comma
      · obtain ⟨value, here, rfl⟩ := List.mem_map.1 there
        exact ((list.each value here).plain _ inside).2.2.2 rfl
  · cases List.mem_singleton.1 last

theorem exists_typeWords {type : FieldType} (isType : IsType type) :
    ∃ words, TypeWords type words ∧ ∀ w ∈ words, OneLine w := by
  have plain : ∀ {keyword : String}, Solid keyword.toList → OneLine keyword.toList := oneLine_of_solid
  cases type with
  | text =>
      exact ⟨_, @TypeWords.text "TEXT".toList rfl, List.forall_mem_singleton.2 (plain (by decide))⟩
  | money =>
      exact ⟨_, @TypeWords.money "MONEY".toList rfl, List.forall_mem_singleton.2 (plain (by decide))⟩
  | number =>
      exact ⟨_, @TypeWords.number "NUMBER".toList rfl,
        List.forall_mem_singleton.2 (plain (by decide))⟩
  | yesNo =>
      exact ⟨_, @TypeWords.yesNo "BOOL".toList (Or.inr rfl),
        List.forall_mem_singleton.2 (plain (by decide))⟩
  | oneOf values =>
      obtain ⟨cs, listed, oneLine⟩ := exists_listed isType
      exact ⟨_, @TypeWords.oneOf "ONE".toList "OF".toList cs values rfl rfl listed,
        List.forall_mem_cons.2 ⟨plain (by decide), List.forall_mem_cons.2 ⟨plain (by decide),
          List.forall_mem_singleton.2 oneLine⟩⟩⟩
  | listOf d =>
      exact ⟨_, @TypeWords.listOf "LIST".toList "OF".toList d rfl rfl,
        List.forall_mem_cons.2 ⟨plain (by decide), List.forall_mem_cons.2 ⟨plain (by decide),
          List.forall_mem_singleton.2 (oneLine_of_isIdentifier isType)⟩⟩⟩
  | object d =>
      exact ⟨_, .object d, List.forall_mem_singleton.2 (oneLine_of_isIdentifier isType.1)⟩

/-- The fields of a definition, one line each. -/
theorem sayable_fields {fields : List Field} (wf : ∀ f ∈ fields, f.WellFormed) :
    Sayable fun sts => ∃ fields' : List Field,
      fields'.map (Field.renumber fun _ => 0) = fields.map (Field.renumber fun _ => 0) ∧
      List.Forall₂ (fun (line : Statement) f => line.Declares f ∧ 0 < line.indent) sts fields' := by
  induction fields with
  | nil => exact .nil ⟨[], rfl, .nil⟩
  | cons f fields ih =>
      obtain ⟨here, later⟩ := List.forall_mem_cons.1 wf
      obtain ⟨words, type, oneLine⟩ := exists_typeWords here.type
      have line := sayable_line (opening_of_isIdentifier here.name)
        (List.forall_mem_cons.2 ⟨oneLine_of_isIdentifier here.name, oneLine⟩) 1
      refine line.append (ih later) ?_
      rintro _ sts ⟨st, rfl, indent, spaced⟩ ⟨fields', same, written⟩
      refine ⟨{ f with line := st.line } :: fields', congrArg₂ List.cons rfl same,
        .cons ⟨?_, ?_⟩ written⟩
      · exact ⟨rfl, words, type, spaced⟩
      · rw [indent]
        exact Nat.one_pos

/-- The header of a definition and its fields. -/
theorem sayable_definition {d : Definition} (wf : d.WellFormed) : Sayable fun sts =>
    ∃ (st : Statement) (fields : List Statement) (d' : Definition),
      sts = st :: fields ∧ st.indent = 0 ∧ st.Opens d' ∧
      d'.renumber (fun _ => 0) = d.renumber (fun _ => 0) ∧
      List.Forall₂ (fun (line : Statement) f => line.Declares f ∧ 0 < line.indent)
        fields d'.fields := by
  have line := @sayable_keyword _ "DEFINE" ⟨_, _, rfl, by decide⟩ (by decide)
    (List.forall_mem_singleton.2 (oneLine_of_isIdentifier wf.name))
  refine line.append (sayable_fields wf.fields) ?_
  rintro _ fields ⟨st, rfl, indent, spaced⟩ ⟨fields', same, declared⟩
  refine ⟨st, fields, ⟨d.name, fields', st.line⟩, rfl, indent, ?_, ?_, declared⟩
  · refine ⟨rfl, "DEFINE".toList, d.name.toList, rfl, ?_, spaced⟩
    exact ⟨[], [], nofun, nofun, fun _ => rfl, by simp⟩
  · rw [Definition.renumber, Definition.renumber, same]

/-- The definitions of a program. -/
theorem sayable_definitions {ds : List Definition} (wf : ∀ d ∈ ds, d.WellFormed)
    (header : Option Nat) : Sayable fun sts => ∃ ds' header',
      ds'.map (Definition.renumber fun _ => 0) = ds.map (Definition.renumber fun _ => 0) ∧
      DefinitionsWritten header ds' sts header' := by
  induction ds generalizing header with
  | nil => exact .nil ⟨[], header, rfl, .nil header⟩
  | cons d ds ih =>
      obtain ⟨here, later⟩ := List.forall_mem_cons.1 wf
      refine (sayable_definition here).append (ih later (some 0)) ?_
      rintro _ sts ⟨st, fields, d', rfl, indent, opens, same, declared⟩ ⟨ds', header', same', rest⟩
      refine ⟨d' :: ds', header', congrArg₂ List.cons same same', .cons ?_ opens ?_ ?_⟩
      · intro i _
        rw [indent]
        exact Nat.zero_le i
      · rwa [indent]
      · rwa [indent]

/-! ### Settings -/

theorem exists_numeral {x hi : Float} {low high : Int} {fault : OverrideFault}
    (h : (if isBetween 0 hi x then none else some fault) = none)
    (normal : Decimal.Normal low high hi.toModel.unpack) (small : high ≤ -23) :
    ∃ cs, Solid cs ∧ Decimal.readFloat? cs = some x := by
  split at h
  · next between => exact Decimal.exists_readFloat? between normal small
  · cases h

theorem exists_settingWords {o : Override} (wf : o.WellFormed) :
    ∃ words, SettingWords o words ∧ ∀ w ∈ words, OneLine w := by
  have two : ∀ {keyword : String} {value : List Char}, Solid keyword.toList → OneLine value →
      ∀ w ∈ [keyword.toList, value], OneLine w := fun solid oneLine =>
    List.forall_mem_cons.2 ⟨oneLine_of_solid solid, List.forall_mem_singleton.2 oneLine⟩
  obtain ⟨inRange, writable⟩ := wf
  cases o with
  | model name => exact ⟨_, @SettingWords.model "MODEL".toList name rfl, two (by decide) writable⟩
  | temperature t =>
      obtain ⟨cs, solid, denotes⟩ := exists_numeral inRange Decimal.normal_two (by decide)
      exact ⟨_, @SettingWords.temperature "TEMPERATURE".toList cs t rfl solid denotes,
        two (by decide) (oneLine_of_solid solid)⟩
  | topP p =>
      obtain ⟨cs, solid, denotes⟩ := exists_numeral inRange Decimal.normal_unit (by decide)
      exact ⟨_, @SettingWords.topP "TOP_P".toList cs p rfl solid denotes,
        two (by decide) (oneLine_of_solid solid)⟩
  | seed n =>
      have solid := Decimal.solid_toDigits n
      exact ⟨_, @SettingWords.seed "SEED".toList _ n rfl solid
        (Decimal.readNat?_toDigits (Nat.le_sub_one_of_lt writable)),
        two (by decide) (oneLine_of_solid solid)⟩
  | maxTokens n =>
      have solid := Decimal.solid_toDigits n
      exact ⟨_, @SettingWords.maxTokens "MAX_TOKENS".toList _ n rfl solid
        (Decimal.readNat?_toDigits (Nat.le_sub_one_of_lt writable)),
        two (by decide) (oneLine_of_solid solid)⟩
  | header name value =>
      exact ⟨_, @SettingWords.header "HEADER".toList name value rfl,
        List.forall_mem_cons.2 ⟨oneLine_of_solid (by decide),
          List.forall_mem_cons.2 ⟨oneLine_of_solid writable.1,
            List.forall_mem_singleton.2 writable.2⟩⟩⟩

/-- Settings, one line each. -/
theorem sayable_sets {overrides : List Override} (wf : ∀ o ∈ overrides, o.WellFormed) :
    Sayable fun sts => List.Forall₂ Statement.Sets sts overrides ∧ ∀ st ∈ sts, st.indent = 0 := by
  induction overrides with
  | nil => exact .nil ⟨.nil, nofun⟩
  | cons o overrides ih =>
      obtain ⟨here, later⟩ := List.forall_mem_cons.1 wf
      obtain ⟨words, setting, oneLine⟩ := exists_settingWords here
      have line := @sayable_keyword _ "SET" ⟨_, _, rfl, by decide⟩ (by decide) oneLine
      refine line.append (ih later) ?_
      rintro _ sts ⟨st, rfl, indent, spaced⟩ ⟨written, left⟩
      exact ⟨.cons ⟨"SET".toList, words, rfl, setting, spaced⟩ written,
        List.forall_mem_cons.2 ⟨indent, left⟩⟩

/-! ### Steps -/

theorem exists_targetWords {step : InferenceStep} (wf : step.WellFormed) :
    ∃ words, TargetWords step words ∧ ∀ w ∈ words, OneLine w := by
  have target : OneLine step.target.toList := by
    have parts := wf.target
    simp only [isTarget, Bool.and_eq_true] at parts
    exact oneLine_of_isIdentifier parts.1.1
  cases categories : step.categories with
  | none => exact ⟨_, .alone categories, List.forall_mem_singleton.2 target⟩
  | some values =>
      obtain ⟨cs, listed, oneLine⟩ := exists_listed (wf.categories values categories).2
      exact ⟨_, @TargetWords.into step "INTO".toList cs values categories rfl listed,
        List.forall_mem_cons.2 ⟨target, List.forall_mem_cons.2 ⟨oneLine_of_solid (by decide),
          List.forall_mem_singleton.2 oneLine⟩⟩⟩

theorem exists_resourceWords {resources : List (ResourceKind × String)}
    (named : ∀ r ∈ resources, isResourceName r.2.toList = true) :
    ∃ words, ResourceWords resources words ∧ ∀ w ∈ words, OneLine w := by
  induction resources with
  | nil => exact ⟨[], .nil, nofun⟩
  | cons resource resources ih =>
      obtain ⟨kind, name⟩ := resource
      obtain ⟨here, later⟩ := List.forall_mem_cons.1 named
      obtain ⟨words, rest, oneLine⟩ := ih later
      obtain ⟨w, word, solid⟩ : ∃ w, IsResourceWord kind w ∧ Solid w := by
        cases kind with
        | prompt => exact ⟨"PROMPT".toList, Or.inr rfl, by decide⟩
        | examples => exact ⟨"USE".toList, rfl, by decide⟩
      exact ⟨_, .cons word rest, List.forall_mem_cons.2 ⟨oneLine_of_solid solid,
        List.forall_mem_cons.2 ⟨oneLine_of_solid (.of_isResourceName here), oneLine⟩⟩⟩

/-- A construct of the pipeline. -/
theorem sayable_step {step : Step} (wf : step.WellFormed) : Sayable fun sts =>
    (∃ step' : Step, step'.renumber (fun _ => 0) = step.renumber (fun _ => 0) ∧ step'.Written sts) ∧
      ∀ st ∈ sts, st.indent = 0 := by
  cases step with
  | source locator line =>
      refine (@sayable_keyword _ "FROM" ⟨_, _, rfl, by decide⟩ (by decide)
        (List.forall_mem_singleton.2 wf)).mono ?_
      rintro _ ⟨st, rfl, indent, spaced⟩
      exact ⟨⟨.source locator st.line, rfl, .source rfl spaced⟩, List.forall_mem_singleton.2 indent⟩
  | output locator line =>
      refine (@sayable_keyword _ "OUTPUT" ⟨_, _, rfl, by decide⟩ (by decide)
        (List.forall_mem_singleton.2 wf)).mono ?_
      rintro _ ⟨st, rfl, indent, spaced⟩
      exact ⟨⟨.output locator st.line, rfl, .output rfl spaced⟩, List.forall_mem_singleton.2 indent⟩
  | rule expression line =>
      have when_ : OneLine "WHEN".toList := oneLine_of_solid (by decide)
      refine (@sayable_keyword _ "FLAG" ⟨_, _, rfl, by decide⟩ (by decide)
        (List.forall_mem_cons.2 ⟨when_, List.forall_mem_singleton.2 wf⟩)).mono ?_
      rintro _ ⟨st, rfl, indent, spaced⟩
      exact ⟨⟨.rule expression st.line, rfl, .rule rfl rfl spaced⟩,
        List.forall_mem_singleton.2 indent⟩
  | set overrides line =>
      refine (sayable_sets wf.2).mono ?_
      rintro sts ⟨written, left⟩
      refine ⟨?_, left⟩
      cases sts with
      | nil =>
          -- a construct of settings has at least one
          cases written
          exact absurd rfl wf.1
      | cons st sts => exact ⟨.set overrides st.line, rfl, .set written⟩
  | inference step =>
      have wf : step.WellFormed := wf
      obtain ⟨target, targetWords, oneLine⟩ := exists_targetWords wf
      have fits := fits_resources wf.prompt wf.examples
      obtain ⟨words, resourceWords, oneLine'⟩ := exists_resourceWords fits.named
      obtain ⟨opening, solid, word⟩ : Opening step.verb.keyword.toList ∧
          Solid step.verb.keyword.toList ∧
          isWord step.verb.keyword step.verb.keyword.toList = true := by
        cases step.verb with
        | extract | classify | draft => exact ⟨⟨_, _, rfl, by decide⟩, by decide, rfl⟩
      refine (sayable_keyword opening solid
        (List.forall_mem_append.2 ⟨oneLine, oneLine'⟩)).mono ?_
      rintro _ ⟨st, rfl, indent, spaced⟩
      refine ⟨⟨.inference { step with line := st.line }, rfl, ?_⟩, List.forall_mem_singleton.2 indent⟩
      -- the words of the target do not depend on the line
      have target' : TargetWords { step with line := st.line } target := by
        cases targetWords with
        | alone none => exact .alone none
        | into some into listed => exact .into some into listed
      refine .inference rfl word target' resourceWords spaced .nil ?_
      rw [List.flatten_nil, List.append_nil]
      exact .refl _

/-- The pipeline of a program. -/
theorem sayable_pipeline {steps : List Step} (wf : ∀ step ∈ steps, step.WellFormed) :
    Sayable fun sts => (∃ steps' : List Step,
      steps'.map (Step.renumber fun _ => 0) = steps.map (Step.renumber fun _ => 0) ∧
      PipelineWritten steps' sts) ∧ ∀ st ∈ sts, st.indent = 0 := by
  induction steps with
  | nil => exact .nil ⟨⟨[], rfl, .nil⟩, nofun⟩
  | cons step steps ih =>
      obtain ⟨here, later⟩ := List.forall_mem_cons.1 wf
      refine (sayable_step here).append (ih later) ?_
      rintro first sts ⟨⟨step', same, written⟩, left⟩ ⟨⟨steps', same', rest⟩, left'⟩
      exact ⟨⟨step' :: steps', congrArg₂ List.cons same same', .cons written rest⟩,
        List.forall_mem_append.2 ⟨left, left'⟩⟩

/-! ### Programs -/

/-- The lines of a program. -/
theorem sayable_program {p : Program} (wf : p.WellFormed) :
    Sayable fun sts => ∃ p' : Program, p'.unnumbered = p.unnumbered ∧ p'.Written sts := by
  have rest : Sayable fun sts => ∃ (settings pipeline : List Statement) (steps' : List Step),
      sts = settings ++ pipeline ∧ List.Forall₂ Statement.Sets settings p.settings ∧
      steps'.map (Step.renumber fun _ => 0) = p.pipeline.map (Step.renumber fun _ => 0) ∧
      PipelineWritten steps' pipeline ∧ ∀ st ∈ sts, st.indent = 0 := by
    refine (sayable_sets wf.settings).append (sayable_pipeline wf.pipeline) ?_
    rintro settings pipeline ⟨set, left⟩ ⟨⟨steps', same, written⟩, left'⟩
    exact ⟨settings, pipeline, steps', rfl, set, same, written,
      List.forall_mem_append.2 ⟨left, left'⟩⟩
  refine (sayable_definitions wf.definitions none).append rest ?_
  rintro definitions _ ⟨ds', header, same, defined⟩
    ⟨settings, pipeline, steps', rfl, set, same', written, left⟩
  refine ⟨⟨ds', p.settings, steps'⟩, ?_, header, definitions, settings, pipeline, rfl, defined, set,
    written, ?_⟩
  · rw [Program.unnumbered, Program.unnumbered, Program.renumber, Program.renumber, same, same']
  · intro st member i _
    rw [left st (List.mem_of_head? member)]
    exact Nat.zero_le i

/-- The text of lines. -/
def ofLines (raws : List (List Char)) : List Char := raws.flatMap (· ++ ['\n'])

theorem lines_ofLines {raws : List (List Char)} (whole : ∀ raw ∈ raws, '\n' ∉ raw) :
    lines (ofLines raws) = raws.map dropReturn := by
  induction raws with
  | nil => rfl
  | cons raw rest ih =>
      obtain ⟨here, later⟩ := List.forall_mem_cons.1 whole
      rw [ofLines, List.flatMap_cons, List.append_assoc, List.singleton_append,
        lines_append_newline here, ← ofLines, ih later, List.map_cons]

theorem statements_dropReturn (line : Nat) (raws : List (List Char)) :
    statements line (raws.map dropReturn) = statements line raws := by
  induction raws generalizing line with
  | nil => rfl
  | cons raw rest ih => rw [List.map_cons, statements, statement?_dropReturn, ih, statements]

/-- Lines are said by a text. -/
theorem Sayable.exists_text {said : List Statement → Prop} (h : Sayable said) :
    ∃ text : String, said (statements 1 (lines text.toList)) := by
  obtain ⟨raws, whole, each⟩ := h
  refine ⟨String.ofList (ofLines raws), ?_⟩
  rw [String.toList_ofList, lines_ofLines whole, statements_dropReturn]
  exact each 1

end Declaration

/-- Every well-formed program can be written. -/
theorem Program.WellFormed.exists_writtenAs {p : Program} (wf : p.WellFormed) :
    ∃ text, p.WrittenAs text := (sayable_program wf).exists_text

/-! ### Reading back -/

section

variable {f : Nat → Nat}

theorem Definition.wellFormed_renumber {d : Definition} :
    (d.renumber f).WellFormed ↔ d.WellFormed := by
  have fields (x : Field) : (x.renumber f).WellFormed ↔ x.WellFormed :=
    ⟨fun wf => ⟨wf.name, wf.type⟩, fun wf => ⟨wf.name, wf.type⟩⟩
  have names : (d.renumber f).fields.map (·.name) = d.fields.map (·.name) := by
    rw [Definition.renumber, List.map_map]
    rfl
  have all : (∀ x ∈ (d.renumber f).fields, x.WellFormed) ↔ ∀ x ∈ d.fields, x.WellFormed := by
    simp only [Definition.renumber, List.forall_mem_map, fields]
  constructor
  · intro wf
    exact ⟨wf.name, all.1 wf.fields, names ▸ wf.distinct⟩
  · intro wf
    exact ⟨wf.name, all.2 wf.fields, names.symm ▸ wf.distinct⟩

theorem Step.wellFormed_renumber {step : Step} : (step.renumber f).WellFormed ↔ step.WellFormed := by
  cases step with
  | source | output | rule | set => exact Iff.rfl
  | inference step =>
      constructor
      · rintro ⟨target, categories, prompt, examples⟩
        exact ⟨target, categories, prompt, examples⟩
      · rintro ⟨target, categories, prompt, examples⟩
        exact ⟨target, categories, prompt, examples⟩

theorem Step.isSet_renumber (step : Step) : (step.renumber f).isSet = step.isSet := by
  cases step with
  | source | inference | output | rule | set => rfl

theorem Program.wellFormed_renumber {p : Program} : (p.renumber f).WellFormed ↔ p.WellFormed := by
  have definitions : (∀ d ∈ (p.renumber f).definitions, d.WellFormed) ↔
      ∀ d ∈ p.definitions, d.WellFormed := by
    simp only [Program.renumber, List.forall_mem_map, Definition.wellFormed_renumber]
  have names : (p.renumber f).definitions.map (·.name) = p.definitions.map (·.name) := by
    rw [Program.renumber, List.map_map]
    rfl
  have pipeline : (∀ step ∈ (p.renumber f).pipeline, step.WellFormed) ↔
      ∀ step ∈ p.pipeline, step.WellFormed := by
    simp only [Program.renumber, List.forall_mem_map, Step.wellFormed_renumber]
  have first : (∀ step ∈ (p.renumber f).pipeline.head?, step.isSet = false) ↔
      ∀ step ∈ p.pipeline.head?, step.isSet = false := by
    simp [Program.renumber, List.head?_map, Step.isSet_renumber]
  have apart : (p.renumber f).pipeline.IsChain (fun step next =>
      step.isSet = true → next.isSet = false) ↔ p.pipeline.IsChain fun step next =>
        step.isSet = true → next.isSet = false := by
    simp only [Program.renumber, List.isChain_map, Step.isSet_renumber]
  constructor
  · intro wf
    exact ⟨definitions.1 wf.definitions, names ▸ wf.distinct, wf.settings, pipeline.1 wf.pipeline,
      first.1 wf.first, apart.1 wf.apart⟩
  · intro wf
    exact ⟨definitions.2 wf.definitions, names.symm ▸ wf.distinct, wf.settings,
      pipeline.2 wf.pipeline, first.2 wf.first, apart.2 wf.apart⟩

end

/-- What is read from a text that writes a well-formed program is the program, on the lines where the
text has its constructs. -/
theorem Program.WellFormed.read_of_writtenAs {p : Program} (wf : p.WellFormed) {text : String}
    (written : p.WrittenAs text) : ∃ p' : Program, read text = .ok p' ∧
      p'.unnumbered = p.unnumbered ∧ p'.Written (statements 1 (lines text.toList)) := by
  obtain ⟨p', same, written⟩ := written
  have wf' : p'.WellFormed := by
    rw [← Program.wellFormed_renumber, ← Program.unnumbered] at wf ⊢
    rwa [same]
  exact ⟨p', read_of_written wf' written, same, written⟩

/-- Every well-formed program can be written, and from every text that writes it the program is read,
on the lines where the text has its constructs. -/
theorem Program.read_of_wellFormed {p : Program} (wf : p.WellFormed) :
    (∃ text, p.WrittenAs text) ∧ ∀ text, p.WrittenAs text → ∃ p' : Program, read text = .ok p' ∧
      p'.unnumbered = p.unnumbered ∧ p'.Written (statements 1 (lines text.toList)) :=
  ⟨wf.exists_writtenAs, fun _ => wf.read_of_writtenAs⟩

/-- A program with a definition, a setting and a classification. -/
def billing : Program where
  definitions := [⟨"Bill", [⟨"total", .money, 0⟩], 0⟩]
  settings := [.seed 7]
  pipeline := [.inference ⟨.classify, "kind", some ["paid", "due"], none, some "shots", 0⟩]

/-- The program as a text, with mixed cases and more blanks than it needs. -/
def billingText : String :=
  "define Bill :\n  total  Money\n\nSET seed 7\n" ++
    "Classify kind INTO [paid , due]\n  -- examples\n  use shots"

theorem statements_billingText : statements 1 (lines billingText.toList) =
    [⟨1, 0, "define Bill :".toList⟩, ⟨2, 2, "total  Money".toList⟩, ⟨4, 0, "SET seed 7".toList⟩,
      ⟨5, 0, "Classify kind INTO [paid , due]".toList⟩, ⟨7, 2, "use shots".toList⟩] := by
  decide +kernel

theorem wellFormed_billing : billing.WellFormed where
  definitions := List.forall_mem_singleton.2
    ⟨by decide, List.forall_mem_singleton.2 ⟨by decide, trivial⟩, by decide⟩
  distinct := by decide
  settings := List.forall_mem_singleton.2 ⟨rfl, show 7 < UInt64.size by decide⟩
  pipeline := List.forall_mem_singleton.2
    { target := by decide
      categories := by
        rintro _ ⟨⟩
        refine ⟨rfl, by decide, by decide, ?_⟩
        exact List.forall_mem_cons.2 ⟨⟨by decide, by simp⟩,
          List.forall_mem_singleton.2 ⟨by decide, by simp⟩⟩
      prompt := nofun
      examples := by
        rintro _ ⟨⟩
        decide }
  first := by
    rintro _ ⟨⟩
    rfl
  apart := List.isChain_singleton _

theorem writtenAs_billing : billing.WrittenAs billingText := by
  have gap : Blanks [' '] := by decide
  have wide : Blanks [' ', ' '] := by decide
  have header : Spaced ["define".toList, "Bill :".toList] "define Bill :".toList :=
    @Spaced.cons _ [' '] _ _ gap (by decide) (.one _)
  have field : Spaced ["total".toList, "Money".toList] "total  Money".toList :=
    @Spaced.cons _ [' ', ' '] _ _ wide (by decide) (.one _)
  have setting : Spaced ["SET".toList, "seed".toList, "7".toList] "SET seed 7".toList :=
    @Spaced.cons _ [' '] _ _ gap (by decide) (@Spaced.cons _ [' '] _ _ gap (by decide) (.one _))
  have step : Spaced ["Classify".toList, "kind".toList, "INTO".toList, "[paid , due]".toList]
      "Classify kind INTO [paid , due]".toList :=
    @Spaced.cons _ [' '] _ _ gap (by decide) (@Spaced.cons _ [' '] _ _ gap (by decide)
      (@Spaced.cons _ [' '] _ _ gap (by decide) (.one _)))
  have modifier : Spaced ["use".toList, "shots".toList] "use shots".toList :=
    @Spaced.cons _ [' '] _ _ gap (by decide) (.one _)
  have values : Listed ["paid", "due"] "[paid , due]".toList :=
    ⟨["paid ".toList, " due".toList], .cons ⟨[], [' '], nofun, gap, rfl⟩
      (.cons ⟨[' '], [], gap, nofun, rfl⟩ .nil), by decide⟩
  have title : Titled "Bill".toList "Bill :".toList :=
    ⟨[' '], [':'], gap, List.forall_mem_singleton.2 rfl, nofun, by decide⟩
  have definitions : DefinitionsWritten none [⟨"Bill", [⟨"total", .money, 2⟩], 1⟩]
      [⟨1, 0, "define Bill :".toList⟩, ⟨2, 2, "total  Money".toList⟩] (some 0) :=
    @DefinitionsWritten.cons none _ _ _ _ [_] _ nofun ⟨rfl, _, _, rfl, title, header⟩
      (.cons ⟨⟨rfl, _, .money rfl, field⟩, by decide⟩ .nil) (.nil _)
  have shots : ResourceWords [(.examples, "shots")] ["use".toList, "shots".toList] := .cons rfl .nil
  have pipeline : PipelineWritten
      [.inference ⟨.classify, "kind", some ["paid", "due"], none, some "shots", 5⟩]
      [⟨5, 0, "Classify kind INTO [paid , due]".toList⟩, ⟨7, 2, "use shots".toList⟩] :=
    @PipelineWritten.cons _ _ [_, _] _ (.inference rfl rfl (.into rfl rfl values) .nil step
      (.cons ⟨by decide, _, shots, modifier⟩ .nil) (.refl _)) .nil
  refine ⟨⟨[⟨"Bill", [⟨"total", .money, 2⟩], 1⟩], [.seed 7],
    [.inference ⟨.classify, "kind", some ["paid", "due"], none, some "shots", 5⟩]⟩, rfl, ?_⟩
  rw [statements_billingText]
  refine ⟨some 0, [_, _], [_], [_, _], rfl, definitions, .cons ?_ .nil, pipeline, ?_⟩
  · exact ⟨_, _, rfl, .seed rfl (by decide) (by decide), setting⟩
  · rintro _ ⟨⟩ i ⟨⟩
    exact Nat.zero_le 0

/-- The program is read from the text. -/
theorem Program.read_of_wellFormed_billing : billing.WellFormed ∧ billing.WrittenAs billingText ∧
    ∃ p' : Program, read billingText = .ok p' ∧ p'.unnumbered = billing.unnumbered ∧
      p'.Written (statements 1 (lines billingText.toList)) :=
  ⟨wellFormed_billing, writtenAs_billing,
    (Program.read_of_wellFormed wellFormed_billing).2 billingText writtenAs_billing⟩

end RecordInference
