import RecordInference.Proofs.Response.Soundness
import RecordInference.Proofs.Schema.Serialization

/-!
# Checking what was accepted

A value of a schema, written as JSON, passes the check of the schema and comes back as it was
(`check_of_same`): numbers are read from doubles and truth values from themselves, so nothing that
the check reads generously is left to read. The order of members does not matter, and neither does
whether a whole number is kept as an integer. So the check of what was accepted gives the same
value again (`validate_serialized`).
-/

set_option autoImplicit false

namespace RecordInference.Response

theorem number?_of_double? {v : Json} {x : Float} (h : v.double? = some x) :
    number? v = some x := by
  cases v with
  | int | float => exact h
  | null | bool | str | arr | obj => cases h

theorem checkItems_eq_ok {check : Json → String → Verdict} {path : String} {i : Nat}
    {items : List Json} {ts : List Value}
    (each : List.Forall₂ (fun v t => ∀ path, check v path = .ok t) items ts) :
    checkItems check path i items = .ok ts := by
  induction each generalizing i with
  | nil => rfl
  | cons first rest ih => exact collect_eq_ok_iff.2 ⟨_, _, first _, ih, rfl⟩

theorem checkFields_eq_ok {fields : List (String × Schema)} {values : List (String × Value)}
    {members : List (String × Json)} {path : String} (conform : FieldsConform fields values)
    (each : ∀ f ∈ fields, ∀ t, Conforms f.2 t → (f.1, t) ∈ values →
      ∃ v, Keyed.get? f.1 members = some v ∧ ∀ path, check f.2 v path = .ok t) :
    checkFields fields members path = .ok values := by
  induction fields generalizing values with
  | nil =>
      cases conform
      rfl
  | cons field fields ih =>
      cases conform with
      | @cons name schema t _ values first rest =>
          obtain ⟨v, found, checked⟩ := each _ List.mem_cons_self t first List.mem_cons_self
          have later : checkFields fields members path = .ok values := by
            refine ih rest fun f member t conforms stands => ?_
            exact each f (List.mem_cons_of_mem _ member) t conforms (List.mem_cons_of_mem _ stands)
          simp only [checkFields, found]
          exact collect_eq_ok_iff.2
            ⟨_, _, Except.map_eq_ok_iff.2 ⟨t, checked _, rfl⟩, later, rfl⟩

/-- What is the same data as a value of the schema passes the check of the schema, and the check
yields the value. -/
theorem check_of_same {schema : Schema} (distinct : schema.Distinct) {t : Value}
    (conforms : Conforms schema t) {v : Json} (same : Json.Same t.toJson v) (path : String) :
    check schema v path = .ok t := by
  induction schema using Schema.induction generalizing t v path with
  | text =>
      cases conforms
      obtain rfl := same.eq_str
      rfl
  | money | number =>
      cases conforms
      simp only [check, number?_of_double? (same.double?_eq rfl)]
  | yesNo =>
      cases conforms
      obtain rfl := same.eq_bool
      rfl
  | oneOf values =>
      cases conforms with
      | oneOf member =>
          obtain rfl := same.eq_str
          exact if_pos member
  | list items ih =>
      cases conforms with
      | @list _ ts each =>
          obtain ⟨elements, rfl, sames⟩ := same.exists_arr
          rw [Value.itemsToJson_eq_map, List.forall₂_map_left_iff] at sames
          have checked : List.Forall₂ (fun v t => ∀ path, check items v path = .ok t) elements ts :=
            sames.symm_of fun t member v same path => ih distinct (each t member) same path
          simp only [check, checkItems_eq_ok checked]
          rfl
  | object name fields ih =>
      cases conforms with
      | @object _ _ values conform =>
          obtain ⟨members, rfl, sames⟩ := same.exists_obj
          obtain ⟨names, inside⟩ := distinct
          rw [Schema.fieldsDistinct_iff] at inside
          have keys : (Keyed.keys values).Nodup := by
            rw [conform.keys_eq]
            exact names
          have checked : checkFields fields members path = .ok values := by
            refine checkFields_eq_ok conform fun f declared t conforms stands => ?_
            -- the names of fields differ, so the member found under the name is this one
            have here := sames f.1
            rw [Value.fieldsToJson_eq_map, Keyed.get?_map, Keyed.get?_of_mem keys stands] at here
            obtain ⟨v, found, same⟩ := here.exists_of_some
            exact ⟨v, found, fun path => ih f declared (inside f declared) conforms same path⟩
          simp only [check, checked, Except.map, Keyed.ofList_eq_self keys]

/-- The check of a schema accepts only values of the schema, and it gives every such value back for
its JSON form: so it gives for the JSON form of what it accepted the same value again. -/
theorem validate_serialized {schema : Schema} (distinct : schema.Distinct) :
    (∀ v t, v.Finite → validate schema v = .ok t → Conforms schema t) ∧
    (∀ t, Conforms schema t → validate schema t.toJson.sorted = .ok t) ∧
    (∀ v t, v.Finite → validate schema v = .ok t → validate schema t.toJson.sorted = .ok t) := by
  have sound : ∀ v t, v.Finite → validate schema v = .ok t → Conforms schema t :=
    fun v t finite accepted => conforms_of_check distinct finite accepted
  have complete : ∀ t, Conforms schema t → validate schema t.toJson.sorted = .ok t :=
    fun t conforms => check_of_same distinct conforms (conforms.same_sorted distinct) rootPath
  exact ⟨sound, complete, fun v t finite accepted => complete t (sound v t finite accepted)⟩

/-- An order whose number and truth values come as texts, with a member that is not declared. -/
theorem validate_serialized_order : ∃ v t,
    decode "\x7b\"total\": \"12.50 \", \"paid\": [\" Yes\", false], \"note\": null\x7d" = .ok v ∧
    validate (.object "order" [("total", .money), ("paid", .list .yesNo)]) v = .ok t ∧
    Conforms (.object "order" [("total", .money), ("paid", .list .yesNo)]) t ∧
    validate (.object "order" [("total", .money), ("paid", .list .yesNo)]) t.toJson.sorted =
      .ok t := by
  have distinct : (Schema.object "order" [("total", .money), ("paid", .list .yesNo)]).Distinct := by
    simp [Schema.Distinct, Schema.FieldsDistinct, Keyed.keys]
  have valid : ((decode
      "\x7b\"total\": \"12.50 \", \"paid\": [\" Yes\", false], \"note\": null\x7d").toOption.bind
      fun v => (validate (.object "order" [("total", .money), ("paid", .list .yesNo)])
        v).toOption).isSome = true := by decide +kernel
  obtain ⟨t, found⟩ := Option.isSome_iff_exists.1 valid
  obtain ⟨v, decoded, accepted⟩ := Option.bind_eq_some_iff.1 found
  rw [Except.toOption_eq_some_iff] at decoded accepted
  have finite := finite_of_decode decoded
  obtain ⟨sound, -, again⟩ := validate_serialized distinct
  exact ⟨v, t, decoded, accepted, sound v t finite accepted, again v t finite accepted⟩

end RecordInference.Response
