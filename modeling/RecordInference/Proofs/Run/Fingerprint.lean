import RecordInference.Proofs.Digest.Fingerprint
import RecordInference.Proofs.Digest.Words
import RecordInference.Proofs.Plan.Canonical
import RecordInference.Proofs.Run.Preparation

/-!
# What the fingerprint of a preparation pins

The fingerprint of a prepared plan covers the canonical text of the plan and the texts that its
steps name (`fingerprint_of_ofPlan`). The list of these texts does not say where a text belongs;
but the canonical text of the plan comes first, and tells which steps name a prompt and which
examples (`handles_of_canonical`), so that every text finds its step (`texts_agree`). Where no two
of the hashed byte sequences share a digest, equal fingerprints are therefore those of plans with
one canonical text and of loaders that agree on every text that is named
(`agree_of_fingerprint`).
-/

set_option autoImplicit false

namespace RecordInference

namespace PlannedStep

/-- Whether a step names a resource. -/
def Names (step : PlannedStep) (handle : Handle) : Prop :=
  step.prompt = some handle ∨ step.examples = some handle

/-- The resources that a step names. -/
def handles (step : PlannedStep) : Option Handle × Option Handle := (step.prompt, step.examples)

/-- The text of a resource that may be named or not. -/
def textOf (loader : Loader) (handle : Option Handle) : List String :=
  (handle.bind fun handle => loader handle.kind handle.name).toList

/-- The texts of the resources that a step names. -/
def texts (loader : Loader) (step : PlannedStep) : List String :=
  textOf loader step.prompt ++ textOf loader step.examples

/-- Whether a loader finds every resource that a step names. -/
def Provided (loader : Loader) (step : PlannedStep) : Prop :=
  ∀ handle, step.Names handle → ∃ text, loader handle.kind handle.name = some text

end PlannedStep

/-- The byte sequences that are hashed for the fingerprint of a prepared plan. -/
def Plan.hashed (loader : Loader) (plan : Plan) : List ByteArray :=
  Digest.hashed (plan.canonical :: plan.steps.flatMap (·.texts loader))

namespace Prepared

open PlannedStep

variable {loader loader' : Loader}

/-! ### What is loaded -/

theorem found_of_loadOptional {handle : Option Handle} {text : Option String}
    (h : loadOptional loader handle = .ok text) :
    ∀ named ∈ handle, ∃ found, loader named.kind named.name = some found := by
  intro named same
  cases same
  obtain ⟨found, loaded, -⟩ := Except.map_eq_ok_iff.1 h
  exact ⟨found, load_eq_ok_iff.1 loaded⟩

theorem texts_of_prepareStep {step : PlannedStep} {p : PreparedStep} {texts : List String}
    (h : prepareStep loader step = .ok (p, texts)) :
    texts = step.texts loader ∧ step.Provided loader := by
  obtain ⟨context, prompt, h⟩ := Except.bind_eq_ok_iff.1 h
  obtain ⟨source, examples, h⟩ := Except.bind_eq_ok_iff.1 h
  obtain ⟨shown, -, h⟩ := Except.bind_eq_ok_iff.1 h
  cases h
  constructor
  · rw [loaded_of_loadOptional prompt, loaded_of_loadOptional examples]
    rfl
  · rintro handle (named | named)
    · exact found_of_loadOptional prompt handle named
    · exact found_of_loadOptional examples handle named

theorem texts_of_prepareSteps {steps : List PlannedStep} {prepared : List PreparedStep}
    {texts : List String} (h : prepareSteps loader steps = .ok (prepared, texts)) :
    texts = steps.flatMap (·.texts loader) ∧ ∀ step ∈ steps, step.Provided loader := by
  induction steps generalizing prepared texts with
  | nil =>
      cases h
      exact ⟨rfl, List.forall_mem_nil _⟩
  | cons step rest ih =>
      obtain ⟨⟨p, first⟩, here, h⟩ := Except.bind_eq_ok_iff.1 h
      obtain ⟨⟨later, more⟩, there, h⟩ := Except.bind_eq_ok_iff.1 h
      cases h
      obtain ⟨rfl, provided⟩ := texts_of_prepareStep here
      obtain ⟨rfl, each⟩ := ih there
      exact ⟨rfl, List.forall_mem_cons.2 ⟨provided, each⟩⟩

/-- The fingerprint covers the canonical text of the plan and the texts that its steps name. -/
theorem fingerprint_of_ofPlan {plan : Plan} {settings : Settings} {prepared : Prepared}
    (h : ofPlan plan loader settings = .ok prepared) :
    prepared.fingerprint =
      Digest.ofTexts ((plan.canonical :: plan.steps.flatMap (·.texts loader)).map Digest.ofText) ∧
    ∀ step ∈ plan.steps, step.Provided loader := by
  obtain ⟨-, steps, texts, loaded, rfl⟩ := ofPlan_eq_ok_iff.1 h
  obtain ⟨rfl, provided⟩ := texts_of_prepareSteps loaded
  exact ⟨rfl, provided⟩

/-! ### Where a text belongs -/

theorem handles_of_shown {step step' : PlannedStep}
    (same : step.toJson.shown = step'.toJson.shown) : step.handles = step'.handles := by
  simp only [PlannedStep.toJson, Json.shown_obj, List.map_cons, List.map_nil, Json.obj.injEq,
    List.cons.injEq, Prod.mk.injEq, shown_ofHandle, true_and, and_true] at same
  obtain ⟨-, -, -, -, -, -, -, prompts, sets⟩ := same
  rw [handles, handles, Json.ofOption_inj Handle.toJson_ne_null (fun _ _ => Handle.toJson_inj)
      prompts, Json.ofOption_inj Handle.toJson_ne_null (fun _ _ => Handle.toJson_inj) sets]

/-- The canonical text of a plan tells which resources its steps name. -/
theorem handles_of_canonical {p q : Plan} (same : p.canonical = q.canonical) :
    p.steps.map handles = q.steps.map handles := by
  have steps := Plan.shown_steps_of_canonical same
  generalize p.steps = ps at steps ⊢
  generalize q.steps = qs at steps ⊢
  induction ps generalizing qs with
  | nil => rw [List.map_eq_nil_iff.1 steps.symm]
  | cons step rest ih =>
      cases qs with
      | nil => cases steps
      | cons step' rest' =>
          obtain ⟨here, later⟩ := List.cons.inj steps
          rw [List.map_cons, List.map_cons, handles_of_shown here, ih rest' later]

theorem textOf_agree {handle : Option Handle} {texts texts' : List String}
    (found : ∀ named ∈ handle, ∃ text, loader named.kind named.name = some text)
    (found' : ∀ named ∈ handle, ∃ text, loader' named.kind named.name = some text)
    (same : textOf loader handle ++ texts = textOf loader' handle ++ texts') :
    (∀ named ∈ handle, ∃ text, loader named.kind named.name = some text ∧
      loader' named.kind named.name = some text) ∧ texts = texts' := by
  cases handle with
  | none => exact ⟨nofun, same⟩
  | some handle =>
      obtain ⟨text, eq⟩ := found handle rfl
      obtain ⟨text', eq'⟩ := found' handle rfl
      simp only [textOf, Option.bind_some, eq, eq', Option.toList_some, List.cons_append,
        List.nil_append, List.cons.injEq] at same
      obtain ⟨rfl, rest⟩ := same
      refine ⟨?_, rest⟩
      rintro named ⟨⟩
      exact ⟨text, eq, eq'⟩

/-- Every text finds its step, since the steps tell which of them have texts. -/
theorem texts_agree {steps steps' : List PlannedStep}
    (named : steps.map handles = steps'.map handles)
    (provided : ∀ step ∈ steps, step.Provided loader)
    (provided' : ∀ step ∈ steps', step.Provided loader')
    (same : steps.flatMap (·.texts loader) = steps'.flatMap (·.texts loader')) :
    ∀ step ∈ steps, ∀ handle, step.Names handle →
      ∃ text, loader handle.kind handle.name = some text ∧
        loader' handle.kind handle.name = some text := by
  induction steps generalizing steps' with
  | nil => exact List.forall_mem_nil _
  | cons step rest ih =>
      cases steps' with
      | nil => cases named
      | cons step' rest' =>
          obtain ⟨here, later⟩ := List.forall_mem_cons.1 provided
          obtain ⟨here', later'⟩ := List.forall_mem_cons.1 provided'
          obtain ⟨handles, others⟩ := List.cons.inj named
          obtain ⟨prompts, sets⟩ := Prod.mk.inj handles
          simp only [List.flatMap_cons, texts, ← prompts, ← sets, List.append_assoc] at same
          obtain ⟨prompt, same⟩ := textOf_agree (fun h member => here h (Or.inl member))
            (fun h member => here' h (Or.inl (prompts ▸ member))) same
          obtain ⟨examples, same⟩ := textOf_agree (fun h member => here h (Or.inr member))
            (fun h member => here' h (Or.inr (sets ▸ member))) same
          refine List.forall_mem_cons.2 ⟨?_, ih others later later' same⟩
          rintro handle (member | member)
          · exact prompt handle member
          · exact examples handle member

/-- Equal fingerprints are those of plans with one canonical text and of loaders that agree on
every text that is named. -/
theorem agree_of_fingerprint {plan plan' : Plan} {settings settings' : Settings}
    {prepared prepared' : Prepared} (ready : ofPlan plan loader settings = .ok prepared)
    (ready' : ofPlan plan' loader' settings' = .ok prepared')
    (apart : Digest.Distinguishes (plan.hashed loader ++ plan'.hashed loader'))
    (same : prepared.fingerprint = prepared'.fingerprint) :
    plan.canonical = plan'.canonical ∧ plan.steps.map handles = plan'.steps.map handles ∧
    ∀ step ∈ plan.steps, ∀ handle, step.Names handle →
      ∃ text, loader handle.kind handle.name = some text ∧
        loader' handle.kind handle.name = some text := by
  obtain ⟨covers, provided⟩ := fingerprint_of_ofPlan ready
  obtain ⟨covers', provided'⟩ := fingerprint_of_ofPlan ready'
  rw [covers, covers'] at same
  obtain ⟨canonical, texts⟩ := List.cons.inj (Digest.eq_of_ofTexts apart same)
  have named := handles_of_canonical canonical
  exact ⟨canonical, named, texts_agree named provided provided' texts⟩

/-- Texts of distinct digests share none. -/
theorem distinguishes_of_digests {plan : Plan} {texts : List String}
    (named : plan.steps.flatMap (·.texts loader) = texts)
    (named' : plan.steps.flatMap (·.texts loader') = texts)
    (short : ∀ bytes ∈ Digest.hashedBytes (plan.bytes :: texts.map Digest.bytesOf),
      bytes.length ≤ 1024)
    (distinct : ((Digest.hashedBytes (plan.bytes :: texts.map Digest.bytesOf)).map
      Digest.digestOf).Nodup) :
    Digest.Distinguishes (plan.hashed loader ++ plan.hashed loader') := by
  rw [← Plan.bytesOf_canonical, ← List.map_cons] at short distinct
  have inside (text : String) (member : text ∈ plan.canonical :: texts) :
      (Digest.bytesOf text).length ≤ 1024 :=
    short _ (List.mem_cons_of_mem _ (List.mem_map_of_mem member))
  rw [Plan.hashed, Plan.hashed, named, named', Digest.hashed_eq_map inside]
  exact Digest.distinguishes_of_nodup short distinct

/-- Loaders that agree on the prompt that is named, whatever else they find. -/
theorem agree_of_fingerprint_prompt :
    ∃ plan prepared prepared',
      Plan.ofDeclaration "DRAFT r\nWITH p" (.ofTexts [("p", "hi")] []) = .ok plan ∧
      ofPlan plan (.ofTexts [("p", "hi")] []) {} = .ok prepared ∧
      ofPlan plan (.ofTexts [("q", "no"), ("p", "hi")] []) { concurrency := 1 } = .ok prepared' ∧
      Digest.Distinguishes (plan.hashed (.ofTexts [("p", "hi")] []) ++
        plan.hashed (.ofTexts [("q", "no"), ("p", "hi")] [])) ∧
      prepared.fingerprint = prepared'.fingerprint ∧
      ∀ step ∈ plan.steps, ∀ handle, step.Names handle →
        ∃ text, Loader.ofTexts [("p", "hi")] [] handle.kind handle.name = some text ∧
          Loader.ofTexts [("q", "no"), ("p", "hi")] [] handle.kind handle.name = some text := by
  have run : ((Plan.ofDeclaration "DRAFT r\nWITH p" (.ofTexts [("p", "hi")] [])).toOption.bind
        fun plan => (ofPlan plan (.ofTexts [("p", "hi")] []) {}).toOption.bind fun _ =>
      (ofPlan plan (.ofTexts [("q", "no"), ("p", "hi")] []) { concurrency := 1 }).toOption.map
        fun _ =>
      decide (plan.steps.flatMap (·.texts (.ofTexts [("p", "hi")] [])) = ["hi"] ∧
        plan.steps.flatMap (·.texts (.ofTexts [("q", "no"), ("p", "hi")] [])) = ["hi"] ∧
        (∀ bytes ∈ Digest.hashedBytes (plan.bytes :: ["hi"].map Digest.bytesOf),
          bytes.length ≤ 1024) ∧
        ((Digest.hashedBytes (plan.bytes :: ["hi"].map Digest.bytesOf)).map
          Digest.digestOf).Nodup)) = some true := by decide +kernel
  obtain ⟨plan, compiled, run⟩ := Option.bind_eq_some_iff.1 run
  obtain ⟨prepared, ready, run⟩ := Option.bind_eq_some_iff.1 run
  obtain ⟨prepared', ready', run⟩ := Option.map_eq_some_iff.1 run
  rw [Except.toOption_eq_some_iff] at compiled ready ready'
  obtain ⟨named, named', short, distinct⟩ := of_decide_eq_true run
  have apart := distinguishes_of_digests named named' short distinct
  have same : prepared.fingerprint = prepared'.fingerprint := by
    rw [(fingerprint_of_ofPlan ready).1, (fingerprint_of_ofPlan ready').1, named, named']
  exact ⟨plan, prepared, prepared', compiled, ready, ready', apart, same,
    (agree_of_fingerprint ready ready' apart same).2.2⟩

end Prepared

end RecordInference
