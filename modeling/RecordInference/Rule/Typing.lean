import RecordInference.Decimal.Numeral
import RecordInference.Path
import RecordInference.Rule.Expr

/-!
# Rules against a record shape

A rule fits a record shape when every field that it names is declared and every operator
and literal suits the shape of its field: order is for numbers, and a literal must denote a
value of the field. `Rule.typed` yields the rule with its literals read, or every fault.
-/

set_option autoImplicit false

namespace RecordInference.Rule

/-- A literal read as a value of its field. -/
inductive Operand where
  | number (x : Float)
  | yesNo (b : Bool)
  | text (s : String)

/-- A rule that fits a record shape. -/
inductive Condition where
  | compare (field : String) (op : Comparison) (operand : Operand)
  | join (op : Connective) (left right : Condition)

/-- Why a comparison does not fit. -/
inductive Misfit where
  | undeclared (field : String)
  | operator (op : Comparison) (field type : String)
  | literal (field literal type : String)
deriving DecidableEq, Repr

/-- The truth value that a word denotes: yes or true, no or false, in any case of ASCII
letters. -/
def readYesNo? (cs : List Char) : Option Bool :=
  if Text.isWord "YES" cs || Text.isWord "TRUE" cs then some true
  else if Text.isWord "NO" cs || Text.isWord "FALSE" cs then some false
  else none

/-- The literal as a value of the shape. Lists and objects have no literals. -/
def operand? (schema : Schema) (literal : String) : Option Operand :=
  match schema with
  | .money => (Decimal.readFloat? literal.toList).map .number
  | .number => (Decimal.readFloat? literal.toList).map .number
  | .yesNo => (readYesNo? literal.toList).map .yesNo
  | .oneOf values => if literal ∈ values then some (.text literal) else none
  | .text => some (.text literal)
  | .list _ => none
  | .object _ _ => none

/-- Whether fields of the shape can be compared in this way. -/
def suits (op : Comparison) : Schema → Bool
  | .list _ => false
  | .object _ _ => false
  | schema => op = .equals || schema.isNumeric

/-- The comparison with its literal read. -/
def typedComparison (shape : Keyed Schema) (field : String) (op : Comparison)
    (literal : String) : Except Misfit Condition :=
  match Schema.lookup? shape field with
  | none => .error (.undeclared field)
  | some schema =>
    if !suits op schema then .error (.operator op field schema.describe)
    else
      match operand? schema literal with
      | none => .error (.literal field literal schema.describe)
      | some operand => .ok (.compare field op operand)

/-- The rule with its literals read, or what does not fit, from left to right. -/
def typed (shape : Keyed Schema) : Expr → Except (List Misfit) Condition
  | .compare field op literal =>
    match typedComparison shape field op literal with
    | .ok c => .ok c
    | .error e => .error [e]
  | .join op left right =>
    match typed shape left, typed shape right with
    | .ok l, .ok r => .ok (.join op l r)
    | .error l, .ok _ => .error l
    | .ok _, .error r => .error r
    | .error l, .error r => .error (l ++ r)

/-- The name of a comparison in the written form of a plan. -/
def Comparison.tag : Comparison → String
  | above => "over"
  | below => "under"
  | equals => "is"

/-- The name of a connective in the written form of a plan. -/
def Connective.tag : Connective → String
  | and => "and"
  | or => "or"

/-- An operand with its kind. -/
def Operand.toJson : Operand → Json
  | number x => .obj [("kind", .str "number"), ("value", .float x)]
  | yesNo b => .obj [("kind", .str "bool"), ("value", .bool b)]
  | text s => .obj [("kind", .str "text"), ("value", .str s)]

/-- The written form of a rule in a plan. -/
def Condition.toJson : Condition → Json
  | compare field op operand =>
    .obj [("node", .str "comparison"), ("field", .str field), ("op", .str op.tag),
      ("operand", operand.toJson)]
  | join op left right =>
    .obj [("node", .str "logical"), ("op", .str op.tag), ("left", left.toJson),
      ("right", right.toJson)]

end RecordInference.Rule
