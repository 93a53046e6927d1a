import RecordInference.Proofs.Decimal.Distinct
import RecordInference.Proofs.Outcome
import RecordInference.Response.Validation
import RecordInference.Rule.Evaluation

/-!
# Literals of rules and texts of responses

A literal that is compared with a field and a text that a response has for the field are read by
rules of their own. They denote the same (`Denotes`): where the text is accepted, so is the literal,
and the comparison holds of the accepted value. The converse fails for numbers only. A literal may
denote an infinity or what is no number, and such a text is not accepted (`typed_iff_validate`).
-/

set_option autoImplicit false

namespace RecordInference

/-- Whether values of the shape can be written as literals: texts, numbers, truth values and given
values can, lists and objects cannot. -/
def Schema.IsSimple : Schema → Prop
  | .list _ | .object _ _ => False
  | .text | .money | .number | .yesNo | .oneOf _ => True

namespace Rule

variable {schema : Schema} {s : String}

/-- Whether a literal for a field of numbers denotes an infinity or what is no number. -/
def NotFinite (schema : Schema) (literal : String) : Prop :=
  schema.isNumeric = true ∧ ∃ x, Decimal.readFloat? literal.toList = some x ∧ x.isFinite = false

theorem suits_equals (simple : schema.IsSimple) : suits .equals schema = true := by
  cases schema with
  | text | money | number | yesNo | oneOf => rfl
  | list | object => cases simple

/-- A text of a response gives the number that it denotes as a literal, unless that is not finite. -/
theorem number?_str (trimmed : Text.trim s.toList = s.toList) {x : Float} :
    Response.number? (.str s) = some x ↔
      Decimal.readFloat? s.toList = some x ∧ x.isFinite = true := by
  rw [Response.number?, trimmed, Option.filter_eq_some_iff]

theorem yesNo?_str (trimmed : Text.trim s.toList = s.toList) :
    Response.yesNo? (.str s) = readYesNo? s.toList := by
  rw [Response.yesNo?, trimmed]

/-- The literal and the text of a response denote the operand and the value. -/
inductive Denotes (s : String) : Schema → Operand → Value → Prop
  | text : Denotes s .text (.text s) (.text s)
  | money {x : Float} (read : Decimal.readFloat? s.toList = some x) (finite : x.isFinite = true) :
      Denotes s .money (.number x) (.money x)
  | number {x : Float} (read : Decimal.readFloat? s.toList = some x) (finite : x.isFinite = true) :
      Denotes s .number (.number x) (.number x)
  | yesNo {b : Bool} (read : readYesNo? s.toList = some b) :
      Denotes s .yesNo (.yesNo b) (.yesNo b)
  | oneOf {values : List String} (member : s ∈ values) :
      Denotes s (.oneOf values) (.text s) (.oneOf s)

variable {o : Operand} {v : Value}

/-- The operand compares equal with the value. -/
theorem Denotes.compare? (h : Denotes s schema o v) : compare? v .equals o = some true := by
  cases h with
  | text | oneOf => exact congrArg some (beq_self_eq_true s)
  | money read finite | number read finite => exact congrArg some (Decimal.beq_self finite)
  | yesNo => exact congrArg some (beq_self_eq_true _)

theorem Denotes.operand? (h : Denotes s schema o v) : operand? schema s = some o := by
  cases h with
  | text => rfl
  | money read | number read => rw [Rule.operand?, read, Option.map_some]
  | yesNo read => rw [Rule.operand?, read, Option.map_some]
  | oneOf member => exact if_pos member

theorem Denotes.validate (h : Denotes s schema o v) (trimmed : Text.trim s.toList = s.toList) :
    Response.validate schema (.str s) = .ok v := by
  cases h with
  | text => rfl
  | money read finite | number read finite =>
      simp only [Response.validate, Response.check, (number?_str trimmed).2 ⟨read, finite⟩]
  | yesNo read => simp only [Response.validate, Response.check, yesNo?_str trimmed, read]
  | oneOf member => exact if_pos member

/-- What a text of a response is accepted as is what it denotes. -/
theorem exists_denotes_of_validate (simple : schema.IsSimple)
    (trimmed : Text.trim s.toList = s.toList) (h : Response.validate schema (.str s) = .ok v) :
    ∃ o, Denotes s schema o v := by
  rw [Response.validate] at h
  cases schema with
  | text =>
      cases h
      exact ⟨_, .text⟩
  | money =>
      simp only [Response.check] at h
      split at h
      · next x given =>
        cases h
        obtain ⟨read, finite⟩ := (number?_str trimmed).1 given
        exact ⟨_, .money read finite⟩
      · cases h
  | number =>
      simp only [Response.check] at h
      split at h
      · next x given =>
        cases h
        obtain ⟨read, finite⟩ := (number?_str trimmed).1 given
        exact ⟨_, .number read finite⟩
      · cases h
  | yesNo =>
      simp only [Response.check, yesNo?_str trimmed] at h
      split at h
      · next b read =>
        cases h
        exact ⟨_, .yesNo read⟩
      · cases h
  | oneOf values =>
      simp only [Response.check] at h
      split at h
      · next member =>
        cases h
        exact ⟨_, .oneOf member⟩
      · cases h
  | list | object => cases simple

/-- A literal denotes a value of its field, or a number that is not finite. -/
theorem denotes_or_notFinite (h : operand? schema s = some o) :
    (∃ v, Denotes s schema o v) ∨ NotFinite schema s := by
  cases schema with
  | text =>
      cases h
      exact Or.inl ⟨_, .text⟩
  | money =>
      obtain ⟨x, read, rfl⟩ := Option.map_eq_some_iff.1 h
      cases finite : x.isFinite with
      | true => exact Or.inl ⟨_, .money read finite⟩
      | false => exact Or.inr ⟨rfl, x, read, finite⟩
  | number =>
      obtain ⟨x, read, rfl⟩ := Option.map_eq_some_iff.1 h
      cases finite : x.isFinite with
      | true => exact Or.inl ⟨_, .number read finite⟩
      | false => exact Or.inr ⟨rfl, x, read, finite⟩
  | yesNo =>
      obtain ⟨b, read, rfl⟩ := Option.map_eq_some_iff.1 h
      exact Or.inl ⟨_, .yesNo read⟩
  | oneOf values =>
      simp only [operand?] at h
      split at h
      · next member =>
        cases h
        exact Or.inl ⟨_, .oneOf member⟩
      · cases h
  | list | object => cases h

theorem NotFinite.exists_operand? (h : NotFinite schema s) : ∃ o, operand? schema s = some o := by
  obtain ⟨numeric, x, read, -⟩ := h
  cases schema with
  | money | number => exact ⟨.number x, by rw [operand?, read, Option.map_some]⟩
  | text | yesNo | oneOf | list | object => cases numeric

/-- A number that is not finite is no value of a response. -/
theorem NotFinite.not_denotes (h : NotFinite schema s) : ¬ Denotes s schema o v := by
  obtain ⟨numeric, x, read, infinite⟩ := h
  intro denotes
  cases denotes with
  | money read' finite | number read' finite =>
      cases read.symm.trans read'
      exact Bool.false_ne_true (infinite.symm.trans finite)
  | text | yesNo | oneOf => cases numeric

theorem typed_compare_iff {shape : Keyed Schema} {field : String} {c : Condition}
    (declared : Schema.lookup? shape field = some schema) (simple : schema.IsSimple) :
    typed shape (.compare field .equals s) = .ok c ↔
      ∃ o, operand? schema s = some o ∧ c = .compare field .equals o := by
  simp only [typed, typedComparison, declared, suits_equals simple]
  cases operand? schema s with
  | none => simp
  | some o => simp [eq_comm]

theorem evaluate_compare_of_denotes (h : Denotes s schema o v) {record : Record} {field : String}
    (held : record.lookup? field = some v) (rule : String) :
    (Condition.compare field .equals o).evaluate rule record = .ok true := by
  simp only [Condition.evaluate, held, h.compare?]

/-- A literal is accepted where a field is compared for equality exactly if the text is accepted for
the field in a response, or denotes a number that is not finite, which no text of a response does.
Where both are accepted, the comparison holds of the value that the text was accepted as. -/
theorem typed_iff_validate {shape : Keyed Schema} {field : String}
    (declared : Schema.lookup? shape field = some schema) (simple : schema.IsSimple)
    (trimmed : Text.trim s.toList = s.toList) :
    ((∃ c, typed shape (.compare field .equals s) = .ok c) ↔
      (∃ v, Response.validate schema (.str s) = .ok v) ∨ NotFinite schema s) ∧
    (NotFinite schema s → ∀ v, Response.validate schema (.str s) ≠ .ok v) ∧
    ∀ c v, typed shape (.compare field .equals s) = .ok c →
      Response.validate schema (.str s) = .ok v →
      ∀ record : Record, record.lookup? field = some v →
        ∀ rule, c.evaluate rule record = .ok true := by
  refine ⟨⟨?_, ?_⟩, ?_, ?_⟩
  · rintro ⟨c, typed⟩
    obtain ⟨o, read, -⟩ := (typed_compare_iff declared simple).1 typed
    rcases denotes_or_notFinite read with ⟨v, denotes⟩ | infinite
    · exact Or.inl ⟨v, denotes.validate trimmed⟩
    · exact Or.inr infinite
  · intro accepted
    have read : ∃ o, operand? schema s = some o := by
      rcases accepted with ⟨v, valid⟩ | infinite
      · obtain ⟨o, denotes⟩ := exists_denotes_of_validate simple trimmed valid
        exact ⟨o, denotes.operand?⟩
      · exact infinite.exists_operand?
    obtain ⟨o, read⟩ := read
    exact ⟨_, (typed_compare_iff declared simple).2 ⟨o, read, rfl⟩⟩
  · intro infinite v valid
    obtain ⟨o, denotes⟩ := exists_denotes_of_validate simple trimmed valid
    exact infinite.not_denotes denotes
  · intro c v typed valid record held rule
    obtain ⟨o, read, rfl⟩ := (typed_compare_iff declared simple).1 typed
    obtain ⟨o', denotes⟩ := exists_denotes_of_validate simple trimmed valid
    -- the literal is read once, so the operand of the rule is the one that the text denotes
    cases denotes.operand?.symm.trans read
    exact evaluate_compare_of_denotes denotes held rule

/-- A number with a sign and a needless zero, for a field of an object. -/
theorem typed_iff_validate_rating : ∃ c v,
    Schema.lookup? [("vendor", .object "vendor" [("rating", .number)])] "vendor.rating" =
      some .number ∧
    typed [("vendor", .object "vendor" [("rating", .number)])]
      (.compare "vendor.rating" .equals "+2.50") = .ok c ∧
    Response.validate .number (.str "+2.50") = .ok v ∧
    ∀ rule, c.evaluate rule [("vendor", .object [("rating", v)])] = .ok true := by
  have declared : Schema.lookup? [("vendor", .object "vendor" [("rating", .number)])]
      "vendor.rating" = some .number := rfl
  obtain ⟨v, accepted⟩ := Except.exists_of_isOk
    (by decide +kernel : (Response.validate .number (.str "+2.50")).isOk = true)
  obtain ⟨fits, -, holds⟩ := typed_iff_validate declared trivial (s := "+2.50") (by decide)
  obtain ⟨c, typed⟩ := fits.2 (Or.inl ⟨v, accepted⟩)
  exact ⟨c, v, declared, typed, accepted, holds c v typed accepted _ rfl⟩

/-- An infinity is accepted as a literal and not as a text of a response. -/
theorem exists_typed_infinity :
    (∃ c, typed [("amount", .money)] (.compare "amount" .equals "inf") = .ok c) ∧
    ∀ v, Response.validate .money (.str "inf") ≠ .ok v := by
  have fits : (typed [("amount", .money)] (.compare "amount" .equals "inf")).isOk = true := by
    decide +kernel
  have refused : (Response.validate .money (.str "inf")).isOk = false := by decide +kernel
  refine ⟨Except.exists_of_isOk fits, fun v accepted => ?_⟩
  rw [accepted] at refused
  cases refused

end Rule

end RecordInference
