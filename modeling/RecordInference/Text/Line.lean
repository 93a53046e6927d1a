import RecordInference.Text.Word

/-!
# Lines, pieces and widths

A text is read line by line. A line ends at `\n`, and a `\r` just before that belongs
to the line's end. Widths count the bytes of the UTF-8 encoding.
-/

set_option autoImplicit false

namespace RecordInference.Text

/-- The lines of a text. What follows the last line end is a line if it is not empty. -/
def lines : List Char → List (List Char)
  | [] => []
  | '\n' :: rest => [] :: lines rest
  | '\r' :: '\n' :: rest => [] :: lines rest
  | c :: rest =>
    match lines rest with
    | [] => [[c]]
    | line :: more => (c :: line) :: more

/-- The pieces between the occurrences of `sep`: one more than there are occurrences. -/
def splitOn (sep : Char) : List Char → List (List Char)
  | [] => [[]]
  | c :: rest =>
    if c = sep then [] :: splitOn sep rest
    else
      match splitOn sep rest with
      | [] => [[c]]
      | piece :: pieces => (c :: piece) :: pieces

/-- The number of bytes of the text in UTF-8. -/
def width (cs : List Char) : Nat := cs.foldr (fun c bytes => c.utf8Size + bytes) 0

/-- The number of bytes of the blanks in front of the text. -/
def indent (cs : List Char) : Nat := width (cs.takeWhile isBlank)

theorem splitOn_ne_nil (sep : Char) (cs : List Char) : splitOn sep cs ≠ [] := by
  cases cs with
  | nil => simp [splitOn]
  | cons c rest =>
      simp only [splitOn]
      split
      · simp
      · split <;> simp

end RecordInference.Text
