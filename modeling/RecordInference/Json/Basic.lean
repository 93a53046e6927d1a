import RecordInference.Keyed

/-!
# JSON values

Integers are kept apart from doubles, and an object is a list of members in the order in
which it was written. `Json.sorted` gives the form in which the order of members does not
matter: at every level the names are distinct and ascending, and a repeated name has kept
its last value.
-/

set_option autoImplicit false

namespace RecordInference

/-- A JSON value. -/
inductive Json where
  | null
  | bool (b : Bool)
  | int (i : Int)
  | float (x : Float)
  | str (s : String)
  | arr (items : List Json)
  | obj (members : List (String × Json))
deriving Inhabited

namespace Json

/-- Induction over a JSON value, through its elements and the values of its members. -/
@[elab_as_elim]
theorem induction {motive : Json → Prop} (null : motive .null) (bool : ∀ b, motive (.bool b))
    (int : ∀ i, motive (.int i)) (float : ∀ x, motive (.float x)) (str : ∀ s, motive (.str s))
    (arr : ∀ items, (∀ v ∈ items, motive v) → motive (.arr items))
    (obj : ∀ members, (∀ m ∈ members, motive m.2) → motive (.obj members)) :
    ∀ v, motive v
  | .null => null
  | .bool b => bool b
  | .int i => int i
  | .float x => float x
  | .str s => str s
  | .arr items =>
    arr items fun v member => by
      have smaller := List.sizeOf_lt_of_mem member
      exact induction null bool int float str arr obj v
  | .obj members =>
    obj members fun m member => by
      have smaller := List.sizeOf_lt_of_mem member
      exact induction null bool int float str arr obj m.2
termination_by v => sizeOf v
decreasing_by
  · simp only [Json.arr.sizeOf_spec]
    omega
  · obtain ⟨name, v⟩ := m
    simp only [Prod.mk.sizeOf_spec, Json.obj.sizeOf_spec] at smaller ⊢
    omega

/-- Puts a member among members with ascending names, in place of one of its name. -/
def place {α : Type} (k : String) (v : α) : List (String × α) → List (String × α)
  | [] => [(k, v)]
  | (k', v') :: rest =>
    if k < k' then (k, v) :: (k', v') :: rest
    else if k = k' then (k, v) :: rest
    else (k', v') :: place k v rest

/-- Members with ascending names; of a repeated name the last value stays. -/
def ascending {α : Type} (members : List (String × α)) : List (String × α) :=
  members.foldl (fun placed m => place m.1 m.2 placed) []

mutual

/-- The value with every object in ascending form. -/
def sorted : Json → Json
  | .arr items => .arr (sortedItems items)
  | .obj members => .obj (ascending (sortedMembers members))
  | v => v

/-- The elements, each in ascending form. -/
def sortedItems : List Json → List Json
  | [] => []
  | v :: rest => sorted v :: sortedItems rest

/-- The members, each value in ascending form. -/
def sortedMembers : List (String × Json) → List (String × Json)
  | [] => []
  | (k, v) :: rest => (k, sorted v) :: sortedMembers rest

end

/-- The value of the first member named `k`. -/
def member? (k : String) : Json → Option Json
  | .obj members => Keyed.get? k members
  | _ => none

/-- An optional value, absent as `null`. -/
def ofOption {α : Type} (f : α → Json) : Option α → Json
  | none => .null
  | some a => f a

/-- A list of texts. -/
def ofTexts (texts : List String) : Json := .arr (texts.map .str)

end Json

end RecordInference
