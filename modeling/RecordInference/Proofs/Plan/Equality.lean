import RecordInference.Proofs.Decimal.Distinct
import RecordInference.Proofs.Digest.Words
import RecordInference.Proofs.Plan.Parameters

/-!
# Plans that compare equal

Two plans compare equal (`Plan.Equal`) if they differ at most in the order in which collections
keep their entries and in the sign of a zero. The canonical text shows both, so that plans may
compare equal and have different fingerprints (`Plan.fingerprint_ne_of_headerOrder`).

For plans of declarations this is about the parameters of their steps alone: such plans have one
canonical text, and with it one fingerprint, exactly if their steps keep their headers in the same
order and their numbers under the same signs (`Parameters.Alike`, `Plan.fingerprint_of_equal`). The
shape of the record and the rules leave no choice, since they follow from the steps and from the
texts of the rules.
-/

set_option autoImplicit false

namespace RecordInference

/-! ### Equality -/

/-- Whether two collections have the same entries, in whatever order. -/
def Keyed.Equal {α : Type} (m m' : Keyed α) : Prop :=
  m.length = m'.length ∧ ∀ e ∈ m, Keyed.get? e.1 m' = some e.2

/-- Whether parameters compare equal. Numbers are compared by their value. -/
structure Parameters.Equal (p q : Parameters) : Prop where
  model : p.model = q.model
  temperature : (p.temperature == q.temperature) = true
  topP : (p.topP == q.topP) = true
  seed : p.seed = q.seed
  maxTokens : p.maxTokens = q.maxTokens
  headers : p.headers.Equal q.headers

namespace Rule

/-- Whether operands compare equal. -/
def Operand.Equal : Operand → Operand → Prop
  | number x, number y => (x == y) = true
  | yesNo b, yesNo b' => b = b'
  | text s, text s' => s = s'
  | _, _ => False

/-- Whether conditions compare equal. -/
def Condition.Equal : Condition → Condition → Prop
  | compare field op operand, compare field' op' operand' =>
    field = field' ∧ op = op' ∧ operand.Equal operand'
  | join op left right, join op' left' right' => op = op' ∧ left.Equal left' ∧ right.Equal right'
  | _, _ => False

end Rule

/-- Whether steps compare equal. -/
structure PlannedStep.Equal (step step' : PlannedStep) : Prop where
  index : step.index = step'.index
  verb : step.verb = step'.verb
  target : step.target = step'.target
  schema : step.schema = step'.schema
  output : step.output = step'.output
  instructions : step.instructions = step'.instructions
  parameters : step.parameters.Equal step'.parameters
  prompt : step.prompt = step'.prompt
  examples : step.examples = step'.examples

/-- Whether rules compare equal. -/
structure PlannedRule.Equal (rule rule' : PlannedRule) : Prop where
  text : rule.text = rule'.text
  condition : rule.condition.Equal rule'.condition

/-- Whether plans compare equal. -/
structure Plan.Equal (p q : Plan) : Prop where
  source : p.source = q.source
  steps : List.Forall₂ PlannedStep.Equal p.steps q.steps
  rules : List.Forall₂ PlannedRule.Equal p.rules q.rules
  output : p.output = q.output
  shape : p.shape.Equal q.shape

/-! ### What equality leaves open -/

/-- Whether parameters have their headers in the same order and numbers of the same signs. -/
structure Parameters.Alike (p q : Parameters) : Prop where
  headers : Keyed.keys p.headers = Keyed.keys q.headers
  temperature : Decimal.Layout.signed p.temperature = Decimal.Layout.signed q.temperature
  topP : p.topP.map Decimal.Layout.signed = q.topP.map Decimal.Layout.signed

/-- Whether the steps of plans have their headers in the same order and numbers of the same
signs. -/
def Plan.Alike (p q : Plan) : Prop :=
  List.Forall₂ (fun step step' => step.parameters.Alike step'.parameters) p.steps q.steps

theorem Plan.alike_of_steps {p q : Plan} (same : p.steps = q.steps) : p.Alike q := by
  rw [Plan.Alike, same]
  exact List.forall₂_same.2 fun _ _ => ⟨rfl, rfl, rfl⟩

/-- Distinct names in the same order leave one list of entries. -/
theorem Keyed.eq_of_keys {α : Type} {m m' : Keyed α} (distinct : (keys m').Nodup)
    (order : keys m = keys m') (entries : ∀ e ∈ m, e ∈ m') : m = m' := by
  induction m generalizing m' with
  | nil => exact (List.map_eq_nil_iff.1 order.symm).symm
  | cons e rest ih =>
      cases m' with
      | nil => cases order
      | cons e' rest' =>
          obtain ⟨name, names⟩ := List.cons.inj order
          obtain ⟨fresh, distinct⟩ := List.nodup_cons.1 distinct
          obtain ⟨here, later⟩ := List.forall_mem_cons.1 entries
          -- an entry under the first name is the first, and no later entry has that name
          have first : e = e' := by
            rcases List.mem_cons.1 here with eq | member
            · exact eq
            · exact absurd (name ▸ List.mem_map_of_mem member) fresh
          have others : ∀ f ∈ rest, f ∈ rest' := by
            intro f member
            rcases List.mem_cons.1 (later f member) with rfl | member'
            · exact absurd (names ▸ List.mem_map_of_mem member) fresh
            · exact member'
          rw [first, ih distinct names others]

namespace Parameters

theorem eq_of_equal {p q : Parameters} (sound : p.Sound) (sound' : q.Sound) (same : p.Equal q)
    (alike : p.Alike q) : p = q := by
  obtain ⟨model, temperature, topP, seed, maxTokens, headers⟩ := p
  obtain ⟨model', temperature', topP', seed', maxTokens', headers'⟩ := q
  obtain ⟨⟨finite, finiteP⟩, -⟩ := sound
  obtain ⟨⟨finite', finiteP'⟩, distinct⟩ := sound'
  obtain ⟨rfl, temperatures, topPs, rfl, rfl, entries⟩ := same
  obtain ⟨order, sign, signs⟩ := alike
  obtain rfl := Decimal.eq_of_beq_of_signed finite finite' temperatures sign
  obtain rfl := Keyed.eq_of_keys distinct order fun e member =>
    Keyed.mem_of_get? (entries.2 e member)
  cases topP with
  | none =>
      cases topP' with
      | none => rfl
      | some y => cases topPs
  | some x =>
      cases topP' with
      | none => cases topPs
      | some y =>
          obtain rfl := Decimal.eq_of_beq_of_signed (finiteP x rfl) (finiteP' y rfl) topPs
            (Option.some.inj signs)
          rfl

end Parameters

theorem PlannedStep.eq_of_equal {step step' : PlannedStep} (sound : step.parameters.Sound)
    (sound' : step'.parameters.Sound) (same : step.Equal step')
    (alike : step.parameters.Alike step'.parameters) : step = step' := by
  have parameters := Parameters.eq_of_equal sound sound' same.parameters alike
  cases step
  cases step'
  rw [PlannedStep.mk.injEq]
  exact ⟨same.index, same.verb, same.target, same.schema, same.output, same.instructions,
    parameters, same.prompt, same.examples⟩

theorem steps_eq_of_equal {steps steps' : List PlannedStep}
    (sound : ∀ step ∈ steps, step.parameters.Sound)
    (sound' : ∀ step ∈ steps', step.parameters.Sound)
    (same : List.Forall₂ PlannedStep.Equal steps steps')
    (alike : List.Forall₂ (fun step step' => step.parameters.Alike step'.parameters) steps steps') :
    steps = steps' := by
  induction same with
  | nil => rfl
  | cons first _ ih =>
      obtain ⟨here, later⟩ := List.forall_mem_cons.1 sound
      obtain ⟨here', later'⟩ := List.forall_mem_cons.1 sound'
      obtain ⟨firstAlike, restAlike⟩ := List.forall₂_cons.1 alike
      rw [PlannedStep.eq_of_equal here here' first firstAlike, ih later later' restAlike]

/-- A rule is determined by its text and the shape of the record. -/
theorem RuleFits.eq_of_text {shape : Keyed Schema} {rule rule' : PlannedRule}
    (fits : RuleFits shape rule) (fits' : RuleFits shape rule') (text : rule.text = rule'.text) :
    rule = rule' := by
  obtain ⟨expr, read, typed⟩ := fits
  obtain ⟨expr', read', typed'⟩ := fits'
  rw [text, read', Except.ok.injEq] at read
  rw [← read, typed', Except.ok.injEq] at typed
  cases rule
  cases rule'
  rw [PlannedRule.mk.injEq]
  exact ⟨text, typed.symm⟩

theorem rules_eq_of_equal {shape : Keyed Schema} {rules rules' : List PlannedRule}
    (fits : ∀ rule ∈ rules, RuleFits shape rule) (fits' : ∀ rule ∈ rules', RuleFits shape rule)
    (same : List.Forall₂ PlannedRule.Equal rules rules') : rules = rules' := by
  induction same with
  | nil => rfl
  | cons first _ ih =>
      obtain ⟨here, later⟩ := List.forall_mem_cons.1 fits
      obtain ⟨here', later'⟩ := List.forall_mem_cons.1 fits'
      rw [here.eq_of_text here' first.text, ih later later']

namespace Plan

/-- Plans that compare equal and fit are the same if their steps are. -/
theorem eq_of_equal_of_steps {p q : Plan} {loader loader' : Loader} (fits : p.Fits loader)
    (fits' : q.Fits loader') (same : p.Equal q) (steps : p.steps = q.steps) : p = q := by
  have shape : p.shape = q.shape := by
    rw [fits.shape, fits'.shape, steps]
  have rules : p.rules = q.rules :=
    rules_eq_of_equal fits.rules (shape ▸ fits'.rules) same.rules
  cases p
  cases q
  rw [Plan.mk.injEq]
  exact ⟨same.source, steps, rules, same.output, shape⟩

/-- The canonical text shows the steps as they are. -/
theorem steps_of_canonical {p q : Plan} (sound : ∀ step ∈ p.steps, step.parameters.Sound)
    (sound' : ∀ step ∈ q.steps, step.parameters.Sound) (same : p.canonical = q.canonical) :
    p.steps = q.steps := by
  have shown := shown_steps_of_canonical same
  rw [List.map_congr_left fun step member => PlannedStep.shown_toJson (sound step member).finite,
    List.map_congr_left fun step member =>
      PlannedStep.shown_toJson (sound' step member).finite] at shown
  exact (List.map_inj_right fun _ _ => PlannedStep.toJson_inj).1 shown

/-- Plans of declarations that compare equal have one canonical text exactly if their steps keep
headers in the same order and numbers under the same signs. Their fingerprints are then the
same. -/
theorem fingerprint_of_equal {text text' : String} {loader loader' : Loader} {p q : Plan}
    (compiled : ofDeclaration text loader = .ok p) (compiled' : ofDeclaration text' loader' = .ok q)
    (same : p.Equal q) :
    (p.canonical = q.canonical ↔ p.Alike q) ∧ (p.Alike q → p.fingerprint = q.fingerprint) := by
  have sound := sound_of_ofDeclaration compiled
  have sound' := sound_of_ofDeclaration compiled'
  have eq (alike : p.Alike q) : p = q :=
    eq_of_equal_of_steps (fits_of_ofDeclaration compiled).1 (fits_of_ofDeclaration compiled').1 same
      (steps_eq_of_equal sound sound' same.steps alike)
  refine ⟨⟨?_, ?_⟩, ?_⟩
  · intro canonical
    exact alike_of_steps (steps_of_canonical sound sound' canonical)
  · intro alike
    rw [eq alike]
  · intro alike
    rw [eq alike]

/-- The plan of a single draft. -/
def ofDraft (temperature : Float) (headers : Keyed String) : Plan where
  source := none
  steps := [⟨0, .draft, "r", .text, .field "r", Instructions.text .draft "r" .text,
    ⟨none, temperature, none, none, none, headers⟩, none, none⟩]
  rules := []
  output := none
  shape := [("r", .text)]

theorem equal_ofDraft {t t' : Float} {headers headers' : Keyed String}
    (temperature : (t == t') = true) (entries : headers.Equal headers') :
    (ofDraft t headers).Equal (ofDraft t' headers') where
  source := rfl
  steps := .cons ⟨rfl, rfl, rfl, rfl, rfl, rfl, ⟨rfl, temperature, rfl, rfl, rfl, entries⟩, rfl,
    rfl⟩ .nil
  rules := .nil
  output := rfl
  shape := ⟨rfl, List.forall_mem_singleton.2 rfl⟩

/-- Zeros of both signs compare equal, but only zeros of one sign leave one fingerprint. -/
theorem fingerprint_of_equal_zeros :
    ∃ p q r, ofDeclaration "SET TEMPERATURE 0\nDRAFT r" (fun _ _ => none) = .ok p ∧
      ofDeclaration "SET TEMPERATURE -0\nDRAFT r" (fun _ _ => none) = .ok q ∧
      ofDeclaration "SET TEMPERATURE 0e5\nDRAFT r" (fun _ _ => none) = .ok r ∧
      p.Equal q ∧ p.canonical ≠ q.canonical ∧ p.Equal r ∧ p.fingerprint = r.fingerprint := by
  have compiled : ofDeclaration "SET TEMPERATURE 0\nDRAFT r" (fun _ _ => none) =
    .ok (ofDraft 0 []) := rfl
  have negative : ofDeclaration "SET TEMPERATURE -0\nDRAFT r" (fun _ _ => none) =
    .ok (ofDraft (-0) []) := rfl
  have again : ofDeclaration "SET TEMPERATURE 0e5\nDRAFT r" (fun _ _ => none) =
    .ok (ofDraft 0 []) := rfl
  have zeros : (ofDraft 0 []).Equal (ofDraft (-0) []) :=
    equal_ofDraft (by decide +kernel) ⟨rfl, List.forall_mem_nil _⟩
  have same : (ofDraft 0 []).Equal (ofDraft 0 []) :=
    equal_ofDraft (by decide +kernel) ⟨rfl, List.forall_mem_nil _⟩
  refine ⟨_, _, _, compiled, negative, again, zeros, ?_, same, ?_⟩
  · intro canonical
    have alike := (fingerprint_of_equal compiled negative zeros).1.1 canonical
    have signs := (List.forall₂_cons.1 alike).1.temperature
    revert signs
    decide +kernel
  · exact (fingerprint_of_equal compiled again same).2 (alike_of_steps rfl)

theorem fingerprint_ne_of_bytes {p q : Plan} (short : p.bytes.length ≤ 1024)
    (short' : q.bytes.length ≤ 1024) (apart : Digest.digestOf p.bytes ≠ Digest.digestOf q.bytes) :
    p.fingerprint ≠ q.fingerprint := by
  rw [← bytesOf_canonical] at short short'
  rw [← bytesOf_canonical, ← bytesOf_canonical] at apart
  exact Digest.ofText_ne_of_digestOf short short' apart

/-- Plans that compare equal may have different fingerprints. -/
theorem fingerprint_ne_of_headerOrder :
    ∃ p q, ofDeclaration "SET HEADER a 1\nSET HEADER b 2\nDRAFT r" (fun _ _ => none) = .ok p ∧
      ofDeclaration "SET HEADER b 2\nSET HEADER a 1\nDRAFT r" (fun _ _ => none) = .ok q ∧
      p.Equal q ∧ p.fingerprint ≠ q.fingerprint := by
  have same : (ofDraft 0.7 [("a", "1"), ("b", "2")]).Equal (ofDraft 0.7 [("b", "2"), ("a", "1")]) :=
    equal_ofDraft (by decide +kernel) ⟨rfl, by decide⟩
  refine ⟨ofDraft 0.7 [("a", "1"), ("b", "2")], ofDraft 0.7 [("b", "2"), ("a", "1")], rfl, rfl,
    same, ?_⟩
  have digests : (ofDraft 0.7 [("a", "1"), ("b", "2")]).bytes.length ≤ 1024 ∧
      (ofDraft 0.7 [("b", "2"), ("a", "1")]).bytes.length ≤ 1024 ∧
      Digest.digestOf (ofDraft 0.7 [("a", "1"), ("b", "2")]).bytes ≠
        Digest.digestOf (ofDraft 0.7 [("b", "2"), ("a", "1")]).bytes := by
    decide +kernel
  exact fingerprint_ne_of_bytes digests.1 digests.2.1 digests.2.2

end Plan

end RecordInference
