import RecordInference.Proofs.Declaration.Layout
import RecordInference.Proofs.Plan.Renumbering

/-!
# Layout never changes a plan

A declaration in another layout has the same plan. If it has none, it has the same error, at the
same constructs, under the numbers that their lines have in the other layout
(`ofDeclaration_of_relaid`).
-/

set_option autoImplicit false

namespace RecordInference.Plan

open Declaration

/-- With a line that says nothing put anywhere, or blanks put at the end of any line, a declaration
has the same plan, or the same error on the lines counted anew. -/
theorem ofDeclaration_of_relaid {text text' : String} {f : Nat → Nat}
    (h : Relaid text.toList text'.toList f) (loader : Loader) :
    ofDeclaration text' loader =
      (ofDeclaration text loader).bimap (DeclarationError.renumber f) id := by
  rw [ofDeclaration, ofDeclaration, read_of_relaid h]
  cases read text with
  | error fault => rfl
  | ok program => exact Program.plan_renumber program loader

/-- A comment in front of two definitions of one name moves both lines that their fault names. -/
theorem ofDeclaration_of_relaid_comment :
    Relaid "FROM a\nDEFINE x\nDEFINE x".toList "FROM a\n-- twice\nDEFINE x\nDEFINE x".toList
      (countedFrom 2) ∧
    ofDeclaration "FROM a\nDEFINE x\nDEFINE x" (.ofTexts [] []) =
      .error (.declaration ⟨3, .duplicateDefinition "x" 2⟩) ∧
    ofDeclaration "FROM a\n-- twice\nDEFINE x\nDEFINE x" (.ofTexts [] []) =
      .error (.declaration ⟨4, .duplicateDefinition "x" 3⟩) := by
  have relaid : Relaid "FROM a\nDEFINE x\nDEFINE x".toList
      "FROM a\n-- twice\nDEFINE x\nDEFINE x".toList (countedFrom 2) := by
    have starts : Text.EndsLine "FROM a\n".toList := Or.inr rfl
    have whole : '\n' ∉ "-- twice".toList := by decide
    exact @Relaid.insert _ _ "DEFINE x\nDEFINE x".toList starts whole (by decide)
  have fault : ofDeclaration "FROM a\nDEFINE x\nDEFINE x" (.ofTexts [] []) =
      .error (.declaration ⟨3, .duplicateDefinition "x" 2⟩) := by
    rfl
  refine ⟨relaid, fault, ?_⟩
  rw [ofDeclaration_of_relaid relaid, fault]
  rfl

end RecordInference.Plan
