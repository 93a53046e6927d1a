import RecordInference.Text.Word

/-!
# Fenced responses

Models like to put JSON between lines of three backticks, with a tag behind the opening
ones. A fence on one line may have the tag `json` only.
-/

set_option autoImplicit false

namespace RecordInference.Response

open Text

/-- Three backticks. -/
def fence : List Char := List.replicate 3 (Char.ofNat 0x60)

/-- The text after `front`, if it starts with it. -/
def afterFront? : (front cs : List Char) → Option (List Char)
  | [], cs => some cs
  | _ :: _, [] => none
  | f :: front, c :: cs => if c = f then afterFront? front cs else none

/-- The text before `back`, if it ends with it. -/
def beforeBack? (back cs : List Char) : Option (List Char) :=
  (afterFront? back.reverse cs.reverse).map List.reverse

/-- The text after the tag of an opening fence: after the rest of its line, or after `json` in
any case of letters if it has no other line. -/
def afterTag (cs : List Char) : List Char :=
  match cs.dropWhile fun c => c != '\n' with
  | _ :: body => body
  | [] => if isWord "JSON" (cs.take 4) then cs.drop 4 else cs

/-- The text without the blanks and the fence around it. -/
def unfenced (raw : List Char) : List Char :=
  match afterFront? fence (trim raw) with
  | none => trim raw
  | some rest =>
    let body := afterTag rest
    trim ((beforeBack? fence (trimEnd body)).getD body)

end RecordInference.Response
