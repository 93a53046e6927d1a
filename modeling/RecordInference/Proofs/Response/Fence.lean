import RecordInference.Proofs.Text.Word
import RecordInference.Response.Validation

/-!
# What fences cost

Between two fences `unfenced` finds the text behind the tag of the first one, without the blanks
around it (`unfenced_of_afterTag`). Where the tag has a line of its own that text is all of the
payload. Where the payload begins on the line of the fence, the tag is looked for up to the first
line end, so that a payload without a line end is found whole, and of another one the first line is
taken for the tag (`unfenced_fenced`).
-/

set_option autoImplicit false

namespace RecordInference.Response

open Text

variable {front back bs body tag p : List Char}

/-- Whether a text has brackets or braces around it, as the JSON text of an object or of an array
has if there are no blanks around it. -/
inductive Enclosed : List Char → Prop where
  | object (inner : List Char) : Enclosed (['{'] ++ inner ++ ['}'])
  | array (inner : List Char) : Enclosed (['['] ++ inner ++ [']'])

theorem Enclosed.trimmed (h : Enclosed p) : Trimmed p := by
  have single : ∀ c : Char, isBlank c = false → Trimmed [c] := by
    intro c solid
    exact Solid.trimmed ⟨List.cons_ne_nil c [], List.forall_mem_singleton.2 solid⟩
  cases h with
  | object inner => exact (single '}' (by decide)).append (single '{' (by decide)) inner
  | array inner => exact (single ']' (by decide)).append (single '[' (by decide)) inner

theorem Enclosed.afterFront?_fence (h : Enclosed p) : afterFront? fence p = none := by
  cases h with
  | object inner => rfl
  | array inner => rfl

theorem Enclosed.isWord_take (h : Enclosed p) (cs : List Char) :
    isWord "JSON" ((p ++ cs).take 4) = false := by
  cases h with
  | object inner => rfl
  | array inner => rfl

/-! ### Fences at both ends -/

theorem afterFront?_append (front cs : List Char) : afterFront? front (front ++ cs) = some cs := by
  induction front with
  | nil => rfl
  | cons c front ih =>
      rw [List.cons_append, afterFront?, if_pos rfl]
      exact ih

theorem beforeBack?_append (cs back : List Char) : beforeBack? back (cs ++ back) = some cs := by
  rw [beforeBack?, List.reverse_append, afterFront?_append, Option.map_some, List.reverse_reverse]

theorem trimmed_fence : Trimmed fence := Solid.trimmed (by decide)

theorem trim_padded (before : Blanks front) (behind : Blanks back) (cs : List Char) :
    trim (front ++ cs ++ back) = trim cs := by
  rw [trim_append_blanks behind, trim_blanks_append before]

/-- Between fences the text behind the tag is found. -/
theorem unfenced_of_afterTag (before : Blanks front) (behind : Blanks back)
    (tagged : afterTag (bs ++ fence) = body ++ fence) :
    unfenced (front ++ (fence ++ bs ++ fence) ++ back) = trim body := by
  have inside : trim (front ++ (fence ++ bs ++ fence) ++ back) = fence ++ (bs ++ fence) := by
    rw [trim_padded before behind, (trimmed_fence.append trimmed_fence bs).2, List.append_assoc]
  have ending : trimEnd (body ++ fence) = body ++ fence := by
    rw [trimEnd_append trimmed_fence.not_blanks, trimmed_fence.trimEnd_eq]
  rw [unfenced, inside, afterFront?_append]
  simp only [tagged, ending, beforeBack?_append, Option.getD_some]

/-! ### The tag of a fence -/

theorem dropWhile_line {line : List Char} (whole : '\n' ∉ line) (cs : List Char) :
    (line ++ cs).dropWhile (fun c => c != '\n') = cs.dropWhile fun c => c != '\n' := by
  apply List.dropWhile_append_of_pos
  intro c member
  have other : c ≠ '\n' := fun same => whole (same ▸ member)
  simp [other]

/-- A tag reaches up to the first line end. -/
theorem afterTag_line {line : List Char} (whole : '\n' ∉ line) (rest : List Char) :
    afterTag (line ++ '\n' :: rest) = rest := by
  rw [afterTag, dropWhile_line whole, List.dropWhile_cons_of_neg (by decide)]

/-- Without a line end the only tag is `json`. -/
theorem afterTag_of_not_mem {cs : List Char} (whole : '\n' ∉ cs) :
    afterTag cs = if isWord "JSON" (cs.take 4) then cs.drop 4 else cs := by
  have none := dropWhile_line whole []
  rw [List.append_nil] at none
  rw [afterTag, none]
  rfl

theorem not_mem_fence : '\n' ∉ fence := by decide

theorem length_of_isWord (h : isWord "JSON" tag = true) : tag.length = 4 := by
  have same : upper tag = "JSON".toList := eq_of_beq h
  have length : (upper tag).length = tag.length := List.length_map Char.toUpper
  rw [← length, same]
  rfl

/-- No tag, or `json` in any case of letters. -/
def IsJsonTag (tag : List Char) : Prop := tag = [] ∨ isWord "JSON" tag = true

theorem IsJsonTag.not_mem (h : IsJsonTag tag) : '\n' ∉ tag := by
  rcases h with rfl | word
  · exact List.not_mem_nil
  · intro member
    have solid : Solid tag := Solid.of_isWord word (by decide)
    exact absurd (solid.2 '\n' member) (by decide)

/-- A payload behind the tag on one line is found whole. -/
theorem afterTag_of_isJsonTag (h : IsJsonTag tag) (enclosed : Enclosed p) (whole : '\n' ∉ p) :
    afterTag (tag ++ p ++ fence) = p ++ fence := by
  have oneLine : '\n' ∉ tag ++ p ++ fence := by
    simp only [List.mem_append, not_or]
    exact ⟨⟨h.not_mem, whole⟩, not_mem_fence⟩
  rw [afterTag_of_not_mem oneLine, List.append_assoc]
  rcases h with rfl | word
  · rw [List.nil_append, enclosed.isWord_take fence]
    rfl
  · have length := length_of_isWord word
    rw [← length, List.take_left, if_pos word, List.drop_left]

/-! ### Payloads -/

section

variable (enclosed : Enclosed p) (before : Blanks front) (behind : Blanks back)

include enclosed before behind

theorem unfenced_bare : unfenced (front ++ p ++ back) = p := by
  rw [unfenced, trim_padded before behind, enclosed.trimmed.2, enclosed.afterFront?_fence]

theorem unfenced_lines {lead gap : List Char} (whole : '\n' ∉ tag) (blanks : Blanks lead)
    (blanks' : Blanks gap) :
    unfenced (front ++ (fence ++ (tag ++ '\n' :: (lead ++ p ++ gap)) ++ fence) ++ back) = p := by
  have tagged : afterTag (tag ++ '\n' :: (lead ++ p ++ gap) ++ fence) =
      lead ++ p ++ gap ++ fence := by
    rw [List.append_assoc, List.cons_append, afterTag_line whole]
  rw [unfenced_of_afterTag before behind tagged, trim_padded blanks blanks', enclosed.trimmed.2]

theorem unfenced_oneLine (json : IsJsonTag tag) (whole : '\n' ∉ p) :
    unfenced (front ++ (fence ++ (tag ++ p) ++ fence) ++ back) = p := by
  have tagged := afterTag_of_isJsonTag json enclosed whole
  rw [unfenced_of_afterTag before behind tagged, enclosed.trimmed.2]

end

/-- The tag and the first line of a payload behind it are one line. -/
theorem unfenced_firstLine {line more : List Char} (before : Blanks front) (behind : Blanks back)
    (json : IsJsonTag tag) (whole : '\n' ∉ line) :
    unfenced (front ++ (fence ++ (tag ++ (line ++ '\n' :: more)) ++ fence) ++ back) =
      trim more := by
  have oneLine : '\n' ∉ tag ++ line := by
    intro member
    rcases List.mem_append.1 member with inside | inside
    · exact json.not_mem inside
    · exact whole inside
  apply unfenced_of_afterTag before behind
  rw [← List.append_assoc, List.append_assoc (tag ++ line), List.cons_append,
    afterTag_line oneLine]

/-- What is left of a text behind its first line is not the whole text. -/
theorem trim_ne_of_line (line more : List Char) : trim more ≠ line ++ '\n' :: more := by
  intro same
  obtain ⟨bs, bs', -, -, split⟩ := exists_append_trim more
  have longer := congrArg List.length split
  rw [same] at longer
  simp only [List.length_append, List.length_cons] at longer
  omega

/-- What is found of an object or of an array. It is found whole without fences, and between fences
if the first one has its line to itself, with any tag. Right behind a fence, or behind `json`, it is
found whole if it has no line end; otherwise only what follows its first line is found. -/
theorem unfenced_fenced (enclosed : Enclosed p) (before : Blanks front) (behind : Blanks back) :
    unfenced (front ++ p ++ back) = p ∧
    (∀ tag lead gap, '\n' ∉ tag → Blanks lead → Blanks gap →
      unfenced (front ++ (fence ++ (tag ++ '\n' :: (lead ++ p ++ gap)) ++ fence) ++ back) = p) ∧
    ∀ tag, IsJsonTag tag →
      ('\n' ∉ p → unfenced (front ++ (fence ++ (tag ++ p) ++ fence) ++ back) = p) ∧
      ∀ line more, '\n' ∉ line → p = line ++ '\n' :: more →
        unfenced (front ++ (fence ++ (tag ++ p) ++ fence) ++ back) = trim more ∧ trim more ≠ p := by
  refine ⟨unfenced_bare enclosed before behind, ?_, ?_⟩
  · intro tag lead gap whole blanks blanks'
    exact unfenced_lines enclosed before behind whole blanks blanks'
  · intro tag json
    constructor
    · intro whole
      exact unfenced_oneLine enclosed before behind json whole
    · rintro line more whole rfl
      exact ⟨unfenced_firstLine before behind json whole, trim_ne_of_line line more⟩

/-- A payload with a line end and a fence inside, between lines with fences. -/
theorem unfenced_fenced_lines :
    let p := "\x7b\"a\": [1,\n\"```\"]\x7d".toList
    Enclosed p ∧
      unfenced (fence ++ ("JsOn".toList ++ '\n' :: ([] ++ p ++ ['\n'])) ++ fence) = p := by
  intro p
  have enclosed : Enclosed p := .object "\"a\": [1,\n\"```\"]".toList
  have none : Blanks [] := List.forall_mem_nil _
  have lineEnd : Blanks ['\n'] := by decide
  have found := (unfenced_fenced enclosed none none).2.1 "JsOn".toList [] ['\n'] (by decide) none
    lineEnd
  rw [List.nil_append, List.append_nil] at found
  exact ⟨enclosed, found⟩

/-- An object whose text has two lines is lost behind a fence on its first line. -/
theorem unfenced_ne_of_line :
    let p := "\x7b\n\x7d".toList
    Enclosed p ∧ Json.read depthLimit p = .ok (.obj []) ∧
      unfenced (fence ++ p ++ fence) = ['}'] ∧ unfenced (fence ++ p ++ fence) ≠ p := by
  exact ⟨.object ['\n'], rfl, rfl, by decide⟩

end RecordInference.Response
