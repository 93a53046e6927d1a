import RecordInference.Proofs.Outcome
import RecordInference.Proofs.Schema.Conformance
import RecordInference.Rule.Evaluation

/-!
# Rules that have an answer

A rule that is typed against the shape of a record has an answer on every record of that shape
(`evaluate_of_typed`). A comparison finds its field because paths lead to the same places in a
record and in its shape, and it can compare the value there because the operators and operands
that suit a shape are ones that values of the shape can be compared with (`compare?_of_suits`).
-/

set_option autoImplicit false

namespace RecordInference.Rule

/-- What suits a shape compares with every value of the shape. -/
theorem compare?_of_suits {schema : Schema} {v : Value} {op : Comparison} {literal : String}
    {operand : Operand} (conforms : Conforms schema v) (suitable : suits op schema = true)
    (h : operand? schema literal = some operand) : ∃ b, compare? v op operand = some b := by
  -- `suits` and `operand?` go by the shape, `compare?` by the value: they agree in each case
  cases conforms with
  | money | number =>
      obtain ⟨n, -, rfl⟩ := Option.map_eq_some_iff.1 h
      cases op with
      | above | below | equals => exact ⟨_, rfl⟩
  | yesNo b =>
      obtain ⟨c, -, rfl⟩ := Option.map_eq_some_iff.1 h
      cases op with
      | above | below => cases suitable
      | equals => exact ⟨_, rfl⟩
  | text s =>
      cases h
      cases op with
      | above | below => cases suitable
      | equals => exact ⟨_, rfl⟩
  | @oneOf values s member =>
      simp only [operand?] at h
      split at h
      · cases h
        cases op with
        | above | below => cases suitable
        | equals => exact ⟨_, rfl⟩
      · cases h
  | list | object => cases h

theorem evaluate_of_typedComparison {shape : Keyed Schema} {record : Record}
    (conforms : FieldsConform shape record) {field : String} {op : Comparison} {literal : String}
    {condition : Condition} (h : typedComparison shape field op literal = .ok condition)
    (rule : String) : ∃ b, condition.evaluate rule record = .ok b := by
  simp only [typedComparison] at h
  split at h
  · cases h
  · next schema declared =>
    split at h
    · cases h
    · next suitable =>
      split at h
      · cases h
      · next operand read =>
        cases h
        -- the path leads somewhere in the shape, hence in the record
        have found := conforms.lookup?_rel field
        rw [declared] at found
        cases eq : record.lookup? field with
        | none =>
            rw [eq] at found
            cases found
        | some v =>
            rw [eq] at found
            cases found with
            | some conforms =>
                obtain ⟨b, compared⟩ := compare?_of_suits conforms (by simpa using suitable) read
                refine ⟨b, ?_⟩
                rw [Condition.evaluate, eq]
                simp only [compared]

/-- A rule that is typed against a shape has an answer on every record of that shape. -/
theorem evaluate_of_typed {shape : Keyed Schema} {record : Record}
    (conforms : FieldsConform shape record) {expr : Expr} {condition : Condition}
    (h : typed shape expr = .ok condition) (rule : String) :
    ∃ b, condition.evaluate rule record = .ok b := by
  induction expr generalizing condition with
  | compare field op literal =>
      rw [typed] at h
      split at h
      · next comparison =>
        cases h
        exact evaluate_of_typedComparison conforms comparison rule
      · cases h
  | join op left right ihl ihr =>
      rw [typed] at h
      split at h
      · next l r typedLeft typedRight =>
        cases h
        obtain ⟨b, evaluatedLeft⟩ := ihl typedLeft
        obtain ⟨c, evaluatedRight⟩ := ihr typedRight
        refine ⟨op.apply b c, ?_⟩
        rw [Condition.evaluate, evaluatedLeft, evaluatedRight]
        rfl
      · cases h
      · cases h
      · cases h

end RecordInference.Rule
