import Mathlib.Data.List.Nodup
import RecordInference.Proofs.Declaration.Spelling

/-!
# Reading the words of a line

The words that write a field, an override, a step or its resources are read as what they write, with
any blanks between them (`readField_of_declares`, `readOverride_of_words`, `readStep_of_words`,
`modify_of_words`). A line that opens with a keyword is taken up as the construct of the keyword
(`topLine_of_spaced`), and resources may be added to a step in any order (`withResources_perm`).
-/

set_option autoImplicit false

namespace RecordInference.Declaration

open Text

variable {cs w w' name : List Char} {words : List (List Char)}

/-! ### Words -/

theorem eq_of_spaced_one (h : Spaced [w] cs) : cs = w := by
  cases h with
  | one => rfl
  | cons _ _ _ rest => cases rest

theorem keyword?_of_isWord {keyword : String} (h : isWord keyword w = true)
    (capitals : upper keyword.toList = keyword.toList) : keyword? w = keyword? keyword.toList := by
  have same : ∀ other, isWord other w = isWord other keyword.toList := by
    intro other
    rw [isWord_of_isWord h, isWord, capitals]
  simp only [keyword?, same]

/-- A line that opens with a keyword is a construct. -/
theorem topLine_of_spaced {text : List Char} {keyword : Keyword}
    (spaced : Spaced (w :: w' :: words) text) (solid : Solid w) (opens : keyword? w = some keyword)
    (trimmed : ∀ v ∈ w' :: words, Trimmed v) (line indent : Nat) (s : State) :
    ∃ rest, Spaced (w' :: words) rest ∧
      topLine line indent text s = construct line indent keyword text rest s := by
  obtain ⟨rest, first, spaced⟩ := firstWord_spaced spaced solid trimmed
  refine ⟨rest, spaced, ?_⟩
  rw [topLine, first]
  simp only [opens]

theorem isEmpty_trim_of_trimmed (h : Trimmed cs) : (trim cs).isEmpty = false := by
  rw [h.2]
  exact List.isEmpty_eq_false_iff.2 h.1

theorem required_of_trimmed {missing : Cause} {s : String} (h : Trimmed s.toList) :
    required missing s.toList = .ok s := by
  rw [required, isEmpty_trim_of_trimmed h, if_neg Bool.false_ne_true, h.2, String.ofList_toList]

/-! ### Definitions -/

theorem dropColons_of_not_mem (h : ':' ∉ cs) : dropColons cs = cs := by
  induction cs with
  | nil => rfl
  | cons c rest ih =>
      simp only [List.mem_cons, not_or] at h
      rw [dropColons, ih h.2]
      cases rest with
      | nil => exact if_neg (Ne.symm h.1)
      | cons d rest => rfl

theorem dropColons_append {colons : List Char} (h : ∀ c ∈ colons, c = ':') (cs : List Char) :
    dropColons (cs ++ colons) = dropColons cs := by
  induction cs with
  | nil =>
      induction colons with
      | nil => rfl
      | cons c rest ih =>
          obtain ⟨rfl, others⟩ := List.forall_mem_cons.1 h
          have none : dropColons rest = [] := ih others
          simp only [List.nil_append, dropColons, none, if_true]
  | cons c rest ih => rw [List.cons_append, dropColons, ih, dropColons]

theorem Titled.trimmed (h : Titled name cs) (identifier : isIdentifier name = true) : Trimmed cs := by
  obtain ⟨bs, colons, blank, all, bare, rfl⟩ := h
  have solid := Solid.of_isIdentifier identifier
  by_cases none : colons = []
  · rw [bare none, none, List.append_nil, List.append_nil]
    exact solid.trimmed
  · refine Trimmed.append (Solid.trimmed ⟨none, fun c member => ?_⟩) solid.trimmed bs
    rw [all c member]
    rfl

/-- The header of a definition has its name. -/
theorem Titled.name_eq (h : Titled name cs) (identifier : isIdentifier name = true) :
    trim (dropColons (trim cs)) = name := by
  rw [(h.trimmed identifier).2]
  obtain ⟨bs, colons, blank, all, -, rfl⟩ := h
  have plain : ':' ∉ name ++ bs := by
    intro member
    rcases List.mem_append.1 member with inside | inside
    · exact (ne_of_isNameChar ((isNameChar_of_isIdentifier identifier).2 _ inside)).1 rfl
    · exact Bool.false_ne_true (blank _ inside)
  rw [dropColons_append all, dropColons_of_not_mem plain, trim_append_blanks blank,
    (Solid.of_isIdentifier identifier).trimmed.2]

/-- The header of a definition opens it. -/
theorem topLine_of_opens {st : Statement} {d : Definition} (opens : st.Opens d)
    (identifier : isIdentifier d.name.toList = true) {s : State}
    (fresh : d.name ∉ s.definitions.map (·.name)) : topLine st.line st.indent st.text s =
      .ok { s with block := some ⟨st.indent, ⟨d.name, [], d.line⟩⟩, inRun := false } := by
  obtain ⟨line, w, title, word, titled, spaced⟩ := opens
  obtain ⟨rest, alone, eq⟩ := topLine_of_spaced spaced (.of_isWord word (by decide))
    (keyword?_of_isWord word (by decide))
    (List.forall_mem_singleton.2 (titled.trimmed identifier)) st.line st.indent s
  have none : s.definitions.find? (fun other => other.name = d.name) = none := by
    refine List.find?_eq_none.2 fun other member same => fresh ?_
    exact List.mem_map.2 ⟨other, member, of_decide_eq_true same⟩
  rw [eq, eq_of_spaced_one alone, ← line]
  simp only [construct, define, titled.name_eq identifier, identifier, String.ofList_toList, none,
    reduceCtorEq, if_false, Bool.not_true, Bool.false_eq_true]

/-- The line of a field is read as the field. -/
theorem readField_of_declares {st : Statement} {f : Field} (declares : st.Declares f)
    (wf : f.WellFormed) : readField st.line st.text = .ok f := by
  obtain ⟨line, words, type, spaced⟩ := declares
  have trimmed : ∀ v ∈ words, Trimmed v := fun v member => (type.isToken wf.type v member).1
  obtain ⟨first, more, rfl⟩ := List.exists_cons_of_ne_nil type.ne_nil
  obtain ⟨rest, split, others⟩ := firstWord_spaced spaced (.of_isIdentifier wf.name) trimmed
  have some : rest.isEmpty = false := List.isEmpty_eq_false_iff.2 (others.trimmed trimmed).1
  simp only [readField, split, wf.name, some, readType_of_words type wf.type others,
    Bool.not_true, Bool.false_eq_true, if_false, String.ofList_toList, Except.map, line]

/-! ### Settings -/

theorem readValue_of_words {o : Override} {value : List Char} (h : SettingWords o [w, value]) :
    readValue w value = .ok o := by
  cases h with
  | model word => simp only [readValue, word, if_true, String.ofList_toList]
  | temperature word solid denotes | topP word solid denotes =>
      simp [readValue, word, isWord_of_isWord word, denotes]
  | seed word solid denotes | maxTokens word solid denotes =>
      simp only [readValue, denotes]
      simp [word, isWord_of_isWord word]

theorem readValue_of_header {name value : String} {text : List Char} (word : isWord "HEADER" w = true)
    (spaced : Spaced [name.toList, value.toList] text) (solid : Solid name.toList)
    (trimmed : Trimmed value.toList) : readValue w text = .ok (.header name value) := by
  obtain ⟨rest, split, alone⟩ := firstWord_spaced spaced solid (List.forall_mem_singleton.2 trimmed)
  obtain rfl := eq_of_spaced_one alone
  have some : value ≠ "" := fun none => trimmed.1 (by rw [none]; rfl)
  simp [readValue, word, isWord_of_isWord word, split, trimmed.2, some]

theorem SettingWords.ne_nil {o : Override} (h : SettingWords o words) : words ≠ [] := by
  cases h with
  | model | temperature | topP | seed | maxTokens | header => exact List.cons_ne_nil _ _

/-- The words behind `SET` are trimmed. -/
theorem SettingWords.trimmed {o : Override} (h : SettingWords o words) (wf : o.WellFormed) :
    ∀ v ∈ words, Trimmed v := by
  obtain ⟨-, value⟩ := wf
  cases h with
  | model word =>
      exact List.forall_mem_cons.2 ⟨(Solid.of_isWord word (by decide)).trimmed,
        List.forall_mem_singleton.2 value.1⟩
  | temperature word solid | topP word solid | seed word solid | maxTokens word solid =>
      exact List.forall_mem_cons.2 ⟨(Solid.of_isWord word (by decide)).trimmed,
        List.forall_mem_singleton.2 solid.trimmed⟩
  | header word =>
      exact List.forall_mem_cons.2 ⟨(Solid.of_isWord word (by decide)).trimmed,
        List.forall_mem_cons.2 ⟨value.1.trimmed, List.forall_mem_singleton.2 value.2.1⟩⟩

/-- The words behind `SET` are read as the override. -/
theorem readOverride_of_words {o : Override} (h : SettingWords o words) (wf : o.WellFormed)
    (spaced : Spaced words cs) : readOverride cs = .ok o := by
  -- what is behind the parameter is its value, as far as it is read as one
  have goOn : ∀ {w value : List Char}, firstWord cs = (w, value) → Trimmed value →
      readValue w value = .ok o → readOverride cs = .ok o := by
    intro w value split trimmed read
    simp only [readOverride, split, trimmed.2, List.isEmpty_eq_false_iff.2 trimmed.1, read,
      Bool.false_eq_true, if_false, bind, Except.bind, wf.inRange]
  have trimmed := h.trimmed wf
  have two : ∀ {w value : List Char}, words = [w, value] → Solid w → readOverride cs = .ok o := by
    rintro w value rfl solid
    obtain ⟨rest, split, alone⟩ :=
      firstWord_spaced spaced solid (List.forall_mem_cons.1 trimmed).2
    obtain rfl := eq_of_spaced_one alone
    exact goOn split (trimmed rest (by simp)) (readValue_of_words h)
  cases h with
  | model word | temperature word | topP word | seed word | maxTokens word =>
      exact two rfl (.of_isWord word (by decide))
  | header word =>
      have others := (List.forall_mem_cons.1 trimmed).2
      obtain ⟨rest, split, spaced⟩ := firstWord_spaced spaced (.of_isWord word (by decide)) others
      exact goOn split (spaced.trimmed others)
        (readValue_of_header word spaced wf.value.1 wf.value.2.1)

/-- The line of a setting gives the setting. -/
theorem topLine_of_sets {st : Statement} {o : Override} (sets : st.Sets o) (wf : o.WellFormed)
    (s : State) : topLine st.line st.indent st.text s = .ok (set st.line o s) := by
  obtain ⟨w, words, word, setting, spaced⟩ := sets
  have trimmed := setting.trimmed wf
  obtain ⟨first, more, rfl⟩ := List.exists_cons_of_ne_nil setting.ne_nil
  obtain ⟨rest, others, eq⟩ := topLine_of_spaced spaced (.of_isWord word (by decide))
    (keyword?_of_isWord word (by decide)) trimmed st.line st.indent s
  rw [eq]
  simp only [construct, readOverride_of_words setting wf others, Except.map, if_true]

/-! ### Resources -/

/-- The step with resources. -/
def withResources (resources : List (ResourceKind × String)) (step : InferenceStep) :
    InferenceStep :=
  resources.foldl (fun step r => withResource r.1 r.2 step) step

theorem withResources_append (resources resources' : List (ResourceKind × String))
    (step : InferenceStep) : withResources (resources ++ resources') step =
      withResources resources' (withResources resources step) := List.foldl_append

/-- Whether resources can be added to a step: they have names, and the step has none of their
kinds. -/
structure Fits (resources : List (ResourceKind × String)) (step : InferenceStep) : Prop where
  named : ∀ r ∈ resources, isResourceName r.2.toList = true
  distinct : (resources.map (·.1)).Nodup
  free : ∀ r ∈ resources, resourceOf r.1 step = none

theorem resourceOf_withResource {kind kind' : ResourceKind} (other : kind ≠ kind') (name : String)
    (step : InferenceStep) : resourceOf kind (withResource kind' name step) = resourceOf kind step := by
  cases kind with
  | prompt =>
      cases kind' with
      | prompt => exact absurd rfl other
      | examples => rfl
  | examples =>
      cases kind' with
      | prompt => rfl
      | examples => exact absurd rfl other

/-- When the first resource has been added the others still fit. -/
theorem Fits.rest {resource : ResourceKind × String} {resources : List (ResourceKind × String)}
    {step : InferenceStep} (h : Fits (resource :: resources) step) :
    Fits resources (withResource resource.1 resource.2 step) := by
  obtain ⟨named, distinct, free⟩ := h
  rw [List.map_cons, List.nodup_cons] at distinct
  refine ⟨(List.forall_mem_cons.1 named).2, distinct.2, fun r member => ?_⟩
  rw [resourceOf_withResource]
  · exact free r (List.mem_cons_of_mem _ member)
  · intro same
    exact distinct.1 (same ▸ List.mem_map_of_mem member)

theorem Fits.append {resources resources' : List (ResourceKind × String)} {step : InferenceStep}
    (h : Fits (resources ++ resources') step) :
    Fits resources step ∧ Fits resources' (withResources resources step) := by
  induction resources generalizing step with
  | nil => exact ⟨⟨nofun, List.nodup_nil, nofun⟩, h⟩
  | cons resource rest ih =>
      obtain ⟨first, second⟩ := ih h.rest
      refine ⟨⟨fun r member => h.named r (List.mem_append_left _ member), ?_,
        fun r member => h.free r (List.mem_append_left _ member)⟩, second⟩
      have distinct := h.distinct
      rw [List.map_append, List.nodup_append] at distinct
      exact distinct.1

/-- What the reader sees in a word that stands in front of a resource. -/
theorem IsResourceWord.reads {kind : ResourceKind} (h : IsResourceWord kind w) :
    Solid w ∧ IsToken w ∧ keyword? w = some (.modifier kind) ∧ isWord "INTO" w = false := by
  cases kind with
  | prompt =>
      rcases h with word | word
      · refine ⟨.of_isWord word (by decide), .of_isWord word (by decide) (by decide),
          keyword?_of_isWord word (by decide), ?_⟩
        rw [isWord_of_isWord word]
        decide
      · refine ⟨.of_isWord word (by decide), .of_isWord word (by decide) (by decide),
          keyword?_of_isWord word (by decide), ?_⟩
        rw [isWord_of_isWord word]
        decide
  | examples =>
      refine ⟨.of_isWord h (by decide), .of_isWord h (by decide) (by decide),
        keyword?_of_isWord h (by decide), ?_⟩
      rw [isWord_of_isWord h]
      decide

theorem ResourceWords.isToken {resources : List (ResourceKind × String)}
    (h : ResourceWords resources words) (named : ∀ r ∈ resources, isResourceName r.2.toList = true) :
    ∀ w ∈ words, IsToken w := by
  induction h with
  | nil => exact nofun
  | cons word rest ih =>
      obtain ⟨here, later⟩ := List.forall_mem_cons.1 named
      exact List.forall_mem_cons.2 ⟨word.reads.2.1,
        List.forall_mem_cons.2 ⟨.of_isResourceName here, ih later⟩⟩

theorem modify_cons {resource : ResourceKind × String} {resources : List (ResourceKind × String)}
    {step : InferenceStep} (fits : Fits (resource :: resources) step)
    (word : keyword? w = some (.modifier resource.1)) :
    modify (w :: resource.2.toList :: words) step =
      modify words (withResource resource.1 resource.2 step) := by
  have named := fits.named resource List.mem_cons_self
  have free := fits.free resource List.mem_cons_self
  rw [modify, word]
  simp only [named, free, Bool.not_true, Bool.false_eq_true, if_false, String.ofList_toList]

/-- The words of resources add them to a step that they fit. -/
theorem modify_of_words {resources : List (ResourceKind × String)} {step : InferenceStep}
    (h : ResourceWords resources words) (fits : Fits resources step) :
    modify words step = .ok (withResources resources step) := by
  induction h generalizing step with
  | nil => rfl
  | cons word rest ih =>
      rw [modify_cons fits word.reads.2.2.1]
      exact ih fits.rest

/-- Resources of different kinds may be added in any order. -/
theorem withResources_perm {resources resources' : List (ResourceKind × String)}
    (same : resources.Perm resources') (distinct : (resources.map (·.1)).Nodup)
    (step : InferenceStep) : withResources resources step = withResources resources' step := by
  refine same.foldl_eq' (fun r member r' member' step => ?_) step
  by_cases alike : r.1 = r'.1
  · rw [List.inj_on_of_nodup_map distinct member member' alike]
  · obtain ⟨kind, name⟩ := r
    obtain ⟨kind', name'⟩ := r'
    cases kind with
    | prompt =>
        cases kind' with
        | prompt => exact absurd rfl alike
        | examples => rfl
    | examples =>
        cases kind' with
        | prompt => rfl
        | examples => exact absurd rfl alike

/-- The step without its resources. -/
def bare (step : InferenceStep) : InferenceStep := { step with prompt := none, examples := none }

theorem withResources_resources (step : InferenceStep) :
    withResources (resources step) (bare step) = step := by
  obtain ⟨verb, target, categories, prompt, examples, line⟩ := step
  cases prompt with
  | none =>
      cases examples with
      | none | some examples => rfl
  | some prompt =>
      cases examples with
      | none | some examples => rfl

theorem fits_resources {step : InferenceStep}
    (prompt : ∀ name, step.prompt = some name → isResourceName name.toList = true)
    (examples : ∀ name, step.examples = some name → isResourceName name.toList = true) :
    Fits (resources step) (bare step) := by
  refine ⟨fun r member => ?_, ?_, fun r _ => ?_⟩
  · rcases List.mem_append.1 member with first | second
    · obtain ⟨name, there, rfl⟩ := List.mem_map.1 first
      exact prompt name (Option.mem_toList.1 there)
    · obtain ⟨name, there, rfl⟩ := List.mem_map.1 second
      exact examples name (Option.mem_toList.1 there)
  · rw [resources]
    cases step.prompt with
    | none =>
        cases step.examples with
        | none | some examples => simp
    | some prompt =>
        cases step.examples with
        | none | some examples => simp
  · cases r.1 with
    | prompt | examples => rfl

theorem Fits.perm {resources resources' : List (ResourceKind × String)} {step : InferenceStep}
    (h : Fits resources step) (same : resources'.Perm resources) : Fits resources' step :=
  ⟨fun r member => h.named r (same.mem_iff.1 member), (same.map _).nodup_iff.2 h.distinct,
    fun r member => h.free r (same.mem_iff.1 member)⟩

/-! ### Steps -/

theorem TargetWords.ne_nil {step : InferenceStep} (h : TargetWords step words) : words ≠ [] := by
  cases h with
  | alone | into => exact List.cons_ne_nil _ _

theorem TargetWords.isToken {step : InferenceStep} (h : TargetWords step words)
    (wf : step.WellFormed) : ∀ w ∈ words, IsToken w := by
  have target : isIdentifier step.target.toList = true := by
    have := wf.target
    simp only [isTarget, Bool.and_eq_true] at this
    exact this.1.1
  cases h with
  | alone none => exact List.forall_mem_singleton.2 (.of_isIdentifier target)
  | into some word listed =>
      exact List.forall_mem_cons.2 ⟨.of_isIdentifier target,
        List.forall_mem_cons.2 ⟨.of_isWord word (by decide) (by decide),
          List.forall_mem_singleton.2 (.of_listed (wf.categories _ some).2 listed)⟩⟩

/-- The tokens of a step are read as the step with the resources that they name. -/
theorem readStep_of_tokens {step : InferenceStep} {target : List (List Char)}
    {here : List (ResourceKind × String)} (h : TargetWords step target)
    (named : ResourceWords here words) (isTarget : isTarget step.target.toList = true)
    (chosen : ∀ values, step.categories = some values → step.verb = .classify ∧ IsChoice values)
    (fits : Fits here (bare step)) (split : tokens cs = target ++ words) :
    readStep step.line step.verb cs = .ok (withResources here (bare step)) := by
  have modified := modify_of_words named fits
  cases h with
  | alone no =>
      have same : bare step = ⟨step.verb, step.target, none, none, none, step.line⟩ := by
        rw [bare, no]
      rw [same] at modified
      simp only [readStep, split, List.singleton_append, isTarget, Bool.not_true,
        Bool.false_eq_true, if_false, String.ofList_toList, same]
      -- a word behind the target opens the resources, and not the categories
      cases named with
      | nil => exact modified
      | cons word rest =>
          simp only [word.reads.2.2.2, Bool.and_false, Bool.false_eq_true, if_false, modified]
  | @into into list values some word listed =>
      obtain ⟨verb, choice⟩ := chosen _ some
      have same : bare step = ⟨step.verb, step.target, .some values, none, none, step.line⟩ := by
        rw [bare, some]
      rw [same] at modified
      simp only [readStep, split, List.cons_append, List.nil_append, isTarget, Bool.not_true,
        Bool.false_eq_true, if_false, String.ofList_toList, same, verb, decide_true, word,
        Bool.and_self, if_true, readList_of_listed choice.isEnumeration listed]
      rw [verb] at modified
      exact modified

/-- The line of a step is read as the step with the resources that it names. -/
theorem readStep_of_words {step : InferenceStep} {target : List (List Char)}
    {here : List (ResourceKind × String)} (h : TargetWords step target)
    (named : ResourceWords here words) (wf : step.WellFormed) (fits : Fits here (bare step))
    (spaced : Spaced (target ++ words) cs) :
    readStep step.line step.verb cs = .ok (withResources here (bare step)) := by
  apply readStep_of_tokens h named wf.target _ fits
  · exact tokens_spaced spaced
      (List.forall_mem_append.2 ⟨h.isToken wf, named.isToken fits.named⟩)
  · intro values some
    exact (wf.categories values some).imp_right IsList.isChoice

end RecordInference.Declaration
