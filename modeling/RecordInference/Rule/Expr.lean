import RecordInference.Text.Word

/-!
# Rules

A rule is a chain of comparisons joined by one connective, read from left to right. A
comparison is a field, an operator and a literal; the literal may be quoted, and then holds
blanks and connectives like any other character.
-/

set_option autoImplicit false

namespace RecordInference.Rule

/-- How a field is compared with a literal. -/
inductive Comparison where
  | above
  | below
  | equals
deriving DecidableEq, Repr

/-- The keyword of a comparison. -/
def Comparison.keyword : Comparison → String
  | above => "OVER"
  | below => "UNDER"
  | equals => "IS"

/-- How conditions are joined. -/
inductive Connective where
  | and
  | or
deriving DecidableEq, Repr

/-- A rule as written. -/
inductive Expr where
  | compare (field : String) (op : Comparison) (literal : String)
  | join (op : Connective) (left right : Expr)
deriving DecidableEq, Repr

/-- Why a text is no rule. -/
inductive Fault where
  | unterminatedQuote (quote : Char)
  | emptyCondition
  | mixedConnectives
  | missingCondition
  | unknownOperator (word : String)
  | notComparison (text : String)
deriving DecidableEq, Repr

/-- The text of a fault. -/
def Fault.message : Fault → String
  | unterminatedQuote quote => s!"unterminated {quote} quote"
  | emptyCondition => "empty condition"
  | mixedConnectives => "AND and OR cannot be mixed in one rule"
  | missingCondition => "missing condition around AND/OR"
  | unknownOperator word => s!"unknown operator '{word}' (expected OVER, UNDER or IS)"
  | notComparison text => s!"'{text}' is not of the form <field> OVER|UNDER|IS <value>"

/-! ### Tokens -/

/-- Where the reader stands: between tokens, in a token, or between the quotes of one. -/
inductive Mode where
  | gap
  | bare
  | quoted (quote : Char)
deriving DecidableEq, Repr

/-- The mode after the first character of a token. -/
def openMode (c : Char) : Mode := if c = '"' || c = '\'' then .quoted c else .bare

/-- The characters up to the end of the current token, and the tokens after it. A blank ends
a token unless it stands between quotes, and only the first character of a token opens them. -/
def tokensFrom : Mode → List Char → Except Fault (List Char × List (List Char))
  | .quoted quote, [] => .error (.unterminatedQuote quote)
  | _, [] => .ok ([], [])
  | .gap, c :: rest =>
    if Text.isBlank c then tokensFrom .gap rest
    else do
      let (token, tokens) ← tokensFrom (openMode c) rest
      return ([], (c :: token) :: tokens)
  | .bare, c :: rest =>
    if Text.isBlank c then tokensFrom .gap rest
    else do
      let (token, tokens) ← tokensFrom .bare rest
      return (c :: token, tokens)
  | .quoted quote, c :: rest => do
    let (token, tokens) ← tokensFrom (if c = quote then .bare else .quoted quote) rest
    return (c :: token, tokens)

/-- The tokens of a text. -/
def tokens (cs : List Char) : Except Fault (List (List Char)) :=
  (tokensFrom .gap cs).map (·.2)

/-! ### Conditions -/

/-- The connective that a token is. -/
def connective? (token : List Char) : Option Connective :=
  if Text.isWord "AND" token then some .and
  else if Text.isWord "OR" token then some .or
  else none

/-- The comparison that a token is. -/
def comparison? (token : List Char) : Option Comparison :=
  if Text.isWord "OVER" token then some .above
  else if Text.isWord "UNDER" token then some .below
  else if Text.isWord "IS" token then some .equals
  else none

/-- The runs of tokens between connectives, and the connectives. -/
def clauses : List (List Char) → List (List (List Char)) × List Connective
  | [] => ([[]], [])
  | token :: rest =>
    let (runs, ops) := clauses rest
    match connective? token with
    | some op => ([] :: runs, op :: ops)
    | none =>
      match runs with
      | [] => ([[token]], ops)
      | run :: runs => ((token :: run) :: runs, ops)

/-- What stands between two quotes `quote` at the ends of the text. -/
def unquote? (quote : Char) : List Char → Option (List Char)
  | c :: rest => if c = quote && rest.getLast? = some quote then some rest.dropLast else none
  | [] => none

/-- The text without the double or else the single quotes around it. -/
def unquoted (cs : List Char) : List Char :=
  match unquote? '"' cs with
  | some inner => inner
  | none => (unquote? '\'' cs).getD cs

/-- Tokens with one blank between them. -/
def spaced (tokens : List (List Char)) : List Char := [' '].intercalate tokens

/-- The comparison that a run of tokens is. -/
def readComparison : List (List Char) → Except Fault Expr
  | [] => .error .missingCondition
  | field :: op :: first :: rest =>
    match comparison? op with
    | some c =>
      .ok (.compare (String.ofList field) c (String.ofList (unquoted (spaced (first :: rest)))))
    | none => .error (.unknownOperator (String.ofList (Text.upper op)))
  | run => .error (.notComparison (String.ofList (spaced run)))

/-- The comparisons of the runs, in order. -/
def readComparisons : List (List (List Char)) → Except Fault (List Expr)
  | [] => .ok []
  | run :: rest => do
    let e ← readComparison run
    let es ← readComparisons rest
    return e :: es

/-- The first expression joined with each of the others, from left to right. -/
def chain (op : Connective) (first : Expr) (others : List Expr) : Expr :=
  others.foldl (.join op) first

/-- The rule that the tokens form. -/
def ofTokens (tokens : List (List Char)) : Except Fault Expr :=
  let (runs, ops) := clauses tokens
  if ops.any fun op => some op != ops.head? then .error .mixedConnectives
  else do
    match ← readComparisons runs with
    | [] => .error .emptyCondition
    | first :: others => return chain (ops.headD .and) first others

/-- Reads a rule. -/
def read (text : String) : Except Fault Expr := do
  let ts ← tokens text.toList
  if ts.isEmpty then .error .emptyCondition else ofTokens ts

end RecordInference.Rule
