import RecordInference.Path
import RecordInference.Text.Word

/-!
# Templates

A template is a text with placeholders: a dotted sequence of identifiers between braces.
Braces around anything else are text like any other. Filling a template replaces every
placeholder by the value at its path; what is put in is not looked at again.
-/

set_option autoImplicit false

namespace RecordInference.Template

/-- A piece of a template. -/
inductive Piece where
  | char (c : Char)
  | field (path : String)
deriving DecidableEq, Repr

/-- Whether a character is no brace. -/
def isPlain (c : Char) : Bool := c != '{' && c != '}'

/-- Whether a text is a sequence of identifiers with dots between them. -/
def isPath (cs : List Char) : Bool := (Text.splitOn '.' cs).all Text.isIdentifier

/-- The path and the rest, if the text is a path, a closing brace and the rest. -/
def placeholder? (cs : List Char) : Option (List Char × List Char) :=
  match cs.dropWhile isPlain with
  | '}' :: rest => if isPath (cs.takeWhile isPlain) then some (cs.takeWhile isPlain, rest) else none
  | _ => none

theorem length_placeholder {cs path rest : List Char} (h : placeholder? cs = some (path, rest)) :
    rest.length < cs.length := by
  simp only [placeholder?] at h
  split at h
  · next tail heq =>
    split at h
    · have bound := (List.dropWhile_suffix isPlain (l := cs)).length_le
      rw [heq] at bound
      simp only [Option.some.injEq, Prod.mk.injEq] at h
      rw [← h.2]
      exact bound
    · simp at h
  · simp at h

/-- The pieces of a template. -/
def pieces : List Char → List Piece
  | [] => []
  | c :: rest =>
    if c = '{' then
      match _h : placeholder? rest with
      | some (path, after) => .field (String.ofList path) :: pieces after
      | none => .char c :: pieces rest
    else .char c :: pieces rest
termination_by cs => cs.length
decreasing_by
  · have := length_placeholder _h; simp; omega
  · simp
  · simp

/-- The path of a placeholder. -/
def Piece.path? : Piece → Option String
  | char _ => none
  | field path => some path

/-- The paths of the placeholders of a template, in order. -/
def paths (text : String) : List String := (pieces text.toList).filterMap Piece.path?

/-- A piece filled from a record; a placeholder without a value stays as it is written. -/
def Piece.fill (record : Record) : Piece → List Char
  | char c => [c]
  | field path =>
    match record.lookup? path with
    | some v => v.render.toList
    | none => '{' :: path.toList ++ ['}']

/-- The template filled from a record. -/
def fill (text : String) (record : Record) : String :=
  String.ofList ((pieces text.toList).flatMap (Piece.fill record))

end RecordInference.Template
