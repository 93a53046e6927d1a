import RecordInference.Json.Reader
import RecordInference.Proofs.Decimal.Finite
import RecordInference.Proofs.Outcome

/-!
# Numbers in JSON texts

`Json.Finite v` says that the whole numbers in `v` fit 64 bits and that the other numbers in it
are finite. Every value that is read from a text is finite (`finite_of_read`), and so is its
ascending form (`Finite.sorted`).
-/

set_option autoImplicit false

namespace RecordInference.Json

/-- The values whose numbers are finite. -/
inductive Finite : Json → Prop
  | null : Finite .null
  | bool (b : Bool) : Finite (.bool b)
  | int {i : Int} (low : -2 ^ 63 ≤ i) (high : i < 2 ^ 64) : Finite (.int i)
  | float {x : Float} (finite : x.isFinite = true) : Finite (.float x)
  | str (s : String) : Finite (.str s)
  | arr {items : List Json} (each : ∀ v ∈ items, Finite v) : Finite (.arr items)
  | obj {members : List (String × Json)} (each : ∀ m ∈ members, Finite m.2) :
      Finite (.obj members)

/-! ### Numbers -/

section

theorem isFinite_of_scale {x y : Float} {e : Int} (h : x.isFinite = true)
    (scaled : scale x e = some y) : y.isFinite = true := by
  -- a scale of more than 308 digits goes down by 308 at a time, and not up
  fun_induction scale x e with
  | case1 => cases scaled
  | case2 x e small power up notInf =>
      cases scaled
      exact Decimal.isFinite_mul h (Decimal.isFinite_power small) (Bool.eq_false_iff.2 notInf)
  | case3 x e small power down =>
      cases scaled
      exact Decimal.isFinite_div_power h (by omega) small
  | case4 x e small zero =>
      cases scaled
      exact h
  | case5 => cases scaled
  | case6 x e small nonzero down ih =>
      exact ih (Decimal.isFinite_div_power h (by decide) (by decide)) scaled

theorem gather_lt {s : Nat} (small : s < 2 ^ 64) (cs : List Char) : (gather s cs).1 < 2 ^ 64 := by
  induction cs generalizing s with
  | nil => exact small
  | cons c rest ih =>
      simp only [gather]
      split
      · split
        · next fits => exact ih fits
        · exact small
      · exact small

variable {negative : Bool} {s : Nat} {e : Int} {cs rest : List Char} {v : Json}

theorem finite_of_double (small : s < 2 ^ 64) (h : double negative s e cs = .ok (v, rest)) :
    v.Finite := by
  simp only [double] at h
  split at h
  · cases h
  · next x scaled =>
    cases h
    have finite := isFinite_of_scale (Decimal.isFinite_ofNat small) scaled
    cases negative with
    | false => exact .float finite
    | true => exact .float (Decimal.isFinite_neg finite)

theorem finite_of_afterSign {up : Bool} (small : s < 2 ^ 64)
    (h : afterSign negative up s e cs = .ok (v, rest)) : v.Finite := by
  simp only [afterSign] at h
  split at h
  · cases h
  · split at h
    · split at h
      · exact finite_of_double small h
      · split at h
        · cases h
        · cases h
          refine .float ?_
          cases negative with
          | false => decide +kernel
          | true => decide +kernel
    · cases h

theorem finite_of_afterExponentMark (small : s < 2 ^ 64)
    (h : afterExponentMark negative s e cs = .ok (v, rest)) : v.Finite := by
  simp only [afterExponentMark] at h
  split at h
  · exact finite_of_afterSign small h
  · exact finite_of_afterSign small h
  · exact finite_of_afterSign small h

theorem finite_of_afterDigits (small : s < 2 ^ 64)
    (h : afterDigits negative s e cs = .ok (v, rest)) : v.Finite := by
  simp only [afterDigits] at h
  split at h
  · split at h
    · exact finite_of_afterExponentMark small h
    · exact finite_of_double small h
  · exact finite_of_double small h

theorem finite_of_afterPoint (small : s < 2 ^ 64)
    (h : afterPoint negative s e cs = .ok (v, rest)) : v.Finite := by
  simp only [afterPoint] at h
  split at h
  · cases h
  · split at h
    · next c tail _ => exact finite_of_afterDigits (gather_lt small (c :: tail)) h
    · cases h

theorem finite_whole (small : s < 2 ^ 64) : (whole negative s).Finite := by
  simp only [whole]
  split
  · split
    · exact .float (Decimal.isFinite_neg (Decimal.isFinite_ofNat small))
    · next fits =>
      -- a negative number that fits in 63 bits stays whole
      simp only [UInt64.size, Bool.or_eq_true, decide_eq_true_eq, not_or] at fits
      exact .int (by omega) (by omega)
  · exact .int (by omega) (by omega)

theorem finite_of_afterWhole {left : Nat} (small : s < 2 ^ 64)
    (h : afterWhole negative s left cs = .ok (v, rest)) : v.Finite := by
  simp only [afterWhole] at h
  split at h
  · exact finite_of_afterPoint small h
  · split at h
    · cases h
      exact finite_whole small
    · exact finite_of_afterDigits small h

theorem finite_of_unsigned (h : unsigned negative cs = .ok (v, rest)) : v.Finite := by
  simp only [unsigned] at h
  split at h
  · cases h
  · split at h
    · split at h
      · cases h
      · exact finite_of_afterWhole (by decide) h
    · split at h
      · next c tail _ _ =>
        -- that the first character is a digit does not matter for its size
        have value : digitValue c < 2 ^ 64 := by
          have := c.val.toNat_lt
          simp only [digitValue, Char.toNat]
          omega
        exact finite_of_afterWhole (gather_lt value tail) h
      · cases h

end

/-! ### Lists and objects -/

section

variable {κ α : Type} {P : α → Prop}

theorem forall_of_elements {item : Reader α} (each : ∀ cs t, item cs = .ok t → P t.value)
    {cs : List Char} {t : Taken (List α) cs} (h : elements item cs = .ok t) :
    ∀ v ∈ t.value, P v := by
  fun_induction elements item cs with
  | case1 | case2 | case4 | case5 | case6 | case8 => cases h
  | case3 cs first found =>
      cases h
      simpa using each _ _ found
  | case7 cs first found _ _ _ _ _ _ _ more found' _ _ _ ih =>
      cases h
      simpa using ⟨each _ _ found, ih found'⟩

theorem forall_of_list {item : Reader α} (each : ∀ cs t, item cs = .ok t → P t.value)
    {cs : List Char} {t : Taken (List α) cs} (h : list item cs = .ok t) : ∀ v ∈ t.value, P v := by
  simp only [list] at h
  split at h
  · cases h
  · split at h
    · cases h
      simp
    · split at h
      · cases h
      · next taken found =>
        cases h
        show ∀ v ∈ taken.value, P v
        exact forall_of_elements each found

theorem of_member {name : Reader κ} {item : κ → Reader α}
    (each : ∀ k cs t, item k cs = .ok t → P t.value) {cs : List Char} {t : Taken (κ × α) cs}
    (h : member name item cs = .ok t) : P t.value.2 := by
  simp only [member] at h
  split at h
  · cases h
  · split at h
    · split at h
      · cases h
      · split at h
        · cases h
        · split at h
          · split at h
            · cases h
            · next taken found =>
              cases h
              exact each _ _ _ found
          · cases h
    · cases h

theorem forall_of_members {name : Reader κ} {item : κ → Reader α}
    (each : ∀ k cs t, item k cs = .ok t → P t.value) {cs : List Char}
    {t : Taken (List (κ × α)) cs} (h : members name item cs = .ok t) :
    ∀ m ∈ t.value, P m.2 := by
  fun_induction members name item cs with
  | case1 | case2 | case4 | case5 | case6 | case8 => cases h
  | case3 cs first found =>
      cases h
      simpa using of_member each found
  | case7 cs first found _ _ _ _ _ _ _ more found' _ _ _ ih =>
      cases h
      intro m member
      rcases List.mem_cons.1 member with rfl | later
      · exact of_member each found
      · exact ih found' m later

theorem forall_of_object {name : Reader κ} {item : κ → Reader α}
    (each : ∀ k cs t, item k cs = .ok t → P t.value) {cs : List Char}
    {t : Taken (List (κ × α)) cs} (h : object name item cs = .ok t) : ∀ m ∈ t.value, P m.2 := by
  simp only [object] at h
  split at h
  · cases h
  · split at h
    · cases h
      simp
    · split at h
      · cases h
      · next taken found =>
        cases h
        show ∀ m ∈ taken.value, P m.2
        exact forall_of_members each found

end

/-! ### Values -/

theorem finite_of_word {value v : Json} {es cs rest : List Char} (finite : value.Finite)
    (h : word value es cs = .ok (v, rest)) : v.Finite := by
  fun_induction word value es cs with
  | case1 =>
      cases h
      exact finite
  | case2 | case4 => cases h
  | case3 _ _ _ ih => exact ih h

theorem finite_of_scalar {c : Char} {cs : List Char} {t : Taken Json (c :: cs)}
    (h : scalar c cs = .ok t) : t.value.Finite := by
  simp only [scalar] at h
  split at h
  · split at h
    · cases h
    · next found =>
      cases h
      exact finite_of_word .null found
  split at h
  · split at h
    · cases h
    · next found =>
      cases h
      exact finite_of_word (.bool true) found
  split at h
  · split at h
    · cases h
    · next found =>
      cases h
      exact finite_of_word (.bool false) found
  split at h
  · split at h
    · cases h
    · cases h
      exact .str _
  split at h
  · split at h
    · cases h
    · next found =>
      cases h
      exact finite_of_unsigned found
  split at h
  · split at h
    · cases h
    · next found =>
      cases h
      exact finite_of_unsigned found
  · cases h

theorem of_valueWith {α : Type} {P : α → Prop}
    {scalar : (c : Char) → (cs : List Char) → Except Fault (Taken α (c :: cs))}
    {items entries : Reader α} (bare : ∀ c cs t, scalar c cs = .ok t → P t.value)
    (inList : ∀ cs t, items cs = .ok t → P t.value)
    (inObject : ∀ cs t, entries cs = .ok t → P t.value) {cs : List Char} {t : Taken α cs}
    (h : valueWith scalar items entries cs = .ok t) : P t.value := by
  simp only [valueWith] at h
  split at h
  · cases h
  · split at h
    · split at h
      · cases h
      · next taken found =>
        cases h
        show P taken.value
        exact inList _ _ found
    · split at h
      · split at h
        · cases h
        · next taken found =>
          cases h
          show P taken.value
          exact inObject _ _ found
      · split at h
        · cases h
        · next taken found =>
          cases h
          show P taken.value
          exact bare _ _ _ found

theorem finite_of_value {depth : Nat} {cs : List Char} {t : Taken Json cs}
    (h : value depth cs = .ok t) : t.value.Finite := by
  induction depth generalizing cs with
  | zero =>
      -- at the bottom there are no lists or objects
      have none : ∀ (cs : List Char) (t : Taken Json cs), tooDeep cs = .ok t → t.value.Finite := by
        intro cs t found
        cases found
      exact of_valueWith (fun _ _ _ => finite_of_scalar) none none h
  | succ depth ih =>
      apply of_valueWith (fun _ _ _ => finite_of_scalar) ?_ ?_ h
      · intro cs t found
        obtain ⟨items, read, rfl⟩ := Except.map_eq_ok_iff.1 found
        exact .arr (forall_of_list (fun _ _ => ih) read)
      · intro cs t found
        obtain ⟨members, read, rfl⟩ := Except.map_eq_ok_iff.1 found
        exact .obj (forall_of_object (fun _ _ _ => ih) read)

/-- The numbers in what is read are finite. -/
theorem finite_of_read {depth : Nat} {cs : List Char} {v : Json} (h : read depth cs = .ok v) :
    v.Finite := by
  simp only [read, readWith] at h
  split at h
  · cases h
  · next found =>
    split at h
    · cases h
      exact finite_of_value found
    · cases h

/-! ### Ascending forms -/

theorem forall_place {α : Type} {P : α → Prop} {k : String} {v : α}
    {members : List (String × α)} (new : P v) (each : ∀ m ∈ members, P m.2) :
    ∀ m ∈ place k v members, P m.2 := by
  induction members with
  | nil => simpa [place] using new
  | cons first rest ih =>
      obtain ⟨k', v'⟩ := first
      have old : P v' := each _ List.mem_cons_self
      have later : ∀ m ∈ rest, P m.2 := fun m member => each m (List.mem_cons_of_mem _ member)
      simp only [place]
      split
      · exact List.forall_mem_cons.2 ⟨new, each⟩
      · split
        · exact List.forall_mem_cons.2 ⟨new, later⟩
        · exact List.forall_mem_cons.2 ⟨old, ih later⟩

theorem forall_ascending {α : Type} {P : α → Prop} {members : List (String × α)}
    (each : ∀ m ∈ members, P m.2) : ∀ m ∈ ascending members, P m.2 := by
  -- the members are placed one by one among those before them
  have placed : ∀ done : List (String × α), (∀ m ∈ done, P m.2) →
      ∀ m ∈ members.foldl (fun placed m => place m.1 m.2 placed) done, P m.2 := by
    induction members with
    | nil =>
        intro done old
        exact old
    | cons first rest ih =>
        obtain ⟨new, later⟩ := List.forall_mem_cons.1 each
        intro done old
        exact ih later _ (forall_place new old)
  exact placed [] nofun

theorem sortedItems_eq_map (items : List Json) : sortedItems items = items.map sorted := by
  induction items with
  | nil => rfl
  | cons v rest ih => rw [sortedItems, ih, List.map_cons]

theorem sortedMembers_eq_map (members : List (String × Json)) :
    sortedMembers members = members.map fun m => (m.1, m.2.sorted) := by
  induction members with
  | nil => rfl
  | cons m rest ih => rw [sortedMembers, ih, List.map_cons]

/-- The numbers in an ascending form are finite if those of the value are. -/
theorem Finite.sorted {v : Json} (h : v.Finite) : v.sorted.Finite := by
  induction h with
  | null => exact .null
  | bool b => exact .bool b
  | int low high => exact .int low high
  | float finite => exact .float finite
  | str s => exact .str s
  | arr _ ih =>
      rw [Json.sorted, sortedItems_eq_map]
      exact .arr (List.forall_mem_map.2 ih)
  | obj _ ih =>
      rw [Json.sorted, sortedMembers_eq_map]
      exact .obj (forall_ascending (List.forall_mem_map.2 ih))

end RecordInference.Json
