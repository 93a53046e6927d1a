import RecordInference.Schema.Basic
import RecordInference.Text.Word

/-!
# Instructions

What a model is told to do at a step: the text is generated from the verb, the target and
the shape of the response, and joined with the prompt and the examples to a system prompt.
-/

set_option autoImplicit false

namespace RecordInference.Instructions

/-- The last line of instructions for an object. -/
def jsonOnly : String := "Return ONLY a valid JSON object. No markdown, no explanation."

/-- Two blanks for each level. -/
def indent (depth : Nat) : String := String.ofList (List.replicate (2 * depth) ' ')

/-- A line about a field. -/
def fieldLine (depth : Nat) (name description : String) : String :=
  indent depth ++ "- " ++ name ++ ": " ++ description

mutual

/-- The lines about a field, those about the fields of its objects further in. -/
def describe (depth : Nat) (name : String) : Schema → List String
  | .text => [fieldLine depth name "text string"]
  | .money => [fieldLine depth name "numeric amount (number only, no currency symbol)"]
  | .number => [fieldLine depth name "numeric value"]
  | .yesNo => [fieldLine depth name "true or false"]
  | .oneOf values =>
    [fieldLine depth name ("MUST be exactly one of: " ++ ", ".intercalate values)]
  | .object _ fields =>
    fieldLine depth name "object with fields:" :: describeAll (depth + 1) fields
  | .list (.object _ fields) =>
    fieldLine depth name "list of objects, each with fields:" :: describeAll (depth + 1) fields
  | .list items => [fieldLine depth name ("list of " ++ items.describe)]

/-- The lines about fields one after the other. -/
def describeAll (depth : Nat) : List (String × Schema) → List String
  | [] => []
  | (name, schema) :: rest => describe depth name schema ++ describeAll depth rest

end

/-- The fields of an object. -/
def fieldsOf : Schema → List (String × Schema)
  | .object _ fields => fields
  | _ => []

/-- The categories of a classification. -/
def categories : Schema → String
  | .oneOf values => ", ".intercalate values
  | schema => schema.describe

/-- The lines of the instructions. -/
def lines (verb : Verb) (target : String) (schema : Schema) : List String :=
  match verb with
  | .extract =>
    ["Extract the following fields from the input text.",
      "Return a JSON object with EXACTLY these fields:", ""] ++
    describeAll 0 (fieldsOf schema) ++ ["", jsonOnly]
  | .classify =>
    let values := categories schema
    ["Classify the input text into exactly one category.", s!"Categories: {values}", "",
      s!"Return a JSON object with one field \"{target}\" whose value is exactly one of: {values}",
      "", jsonOnly]
  | .draft =>
    [s!"Write the \"{target}\" text from the structured data and the original input below.",
      s!"Return a JSON object with one field \"{target}\" holding the text."]

/-- The instructions of a step. -/
def text (verb : Verb) (target : String) (schema : Schema) : String :=
  "\n".intercalate (lines verb target schema)

/-- The prompt, the instructions and the examples with blank lines between them; a blank
prompt is left out. -/
def systemPrompt (context : Option String) (instructions : String) (examples : Option String) :
    String :=
  let context := (context.map Text.trimmed).filter fun c => !c.isEmpty
  "\n\n".intercalate (context.toList ++ instructions :: examples.toList)

end RecordInference.Instructions
