import Mathlib.Algebra.Group.Nat.Defs
import RecordInference.Digest.Blake3

/-!
# What a fingerprint tells apart

A fingerprint tells the digest that it was written from (`blake3_of_fingerprint`): eight
hexadecimal digits determine a word. Texts that are closed with a zero byte each are determined by
their bytes together if none of them has a zero character (`joined_inj`), and no fingerprint has
one (`zero_not_mem_ofText`). Where no two of the byte sequences that are hashed share a digest
(`Distinguishes`), equal fingerprints of several fingerprinted texts are those of the same texts
(`eq_of_ofTexts`).
-/

set_option autoImplicit false

namespace RecordInference.Digest

/-! ### Hexadecimal digits -/

theorem hexChar_inj_fin : ∀ n n' : Fin 16,
    hexChar (UInt32.ofNat n) = hexChar (UInt32.ofNat n') → n = n' := by decide

theorem hexChar_ne_zero_fin : ∀ n : Fin 16, hexChar (UInt32.ofNat n) ≠ '\x00' := by decide

/-- Four bits of a word are a number below sixteen. -/
theorem exists_nibble (w shift : UInt32) : ∃ n : Fin 16,
    (w >>> shift) &&& 15 = UInt32.ofNat n ∧ n.val = w.toNat / 2 ^ (shift.toNat % 32) % 16 := by
  have value : ((w >>> shift) &&& 15).toNat = w.toNat / 2 ^ (shift.toNat % 32) % 16 := by
    rw [UInt32.toNat_and, UInt32.toNat_shiftRight, Nat.shiftRight_eq_div_pow]
    exact Nat.and_two_pow_sub_one_eq_mod _ 4
  have small : ((w >>> shift) &&& 15).toNat < 16 := value ▸ Nat.mod_lt _ (by decide)
  exact ⟨⟨_, small⟩, UInt32.ofNat_toNat.symm, value⟩

theorem nibble_of_hexChar {w w' shift : UInt32}
    (same : hexChar ((w >>> shift) &&& 15) = hexChar ((w' >>> shift) &&& 15)) :
    w.toNat / 2 ^ (shift.toNat % 32) % 16 = w'.toNat / 2 ^ (shift.toNat % 32) % 16 := by
  obtain ⟨n, eq, value⟩ := exists_nibble w shift
  obtain ⟨n', eq', value'⟩ := exists_nibble w' shift
  rw [eq, eq'] at same
  rw [← value, ← value', hexChar_inj_fin n n' same]

theorem wordHex_inj {w w' : UInt32} (same : wordHex w = wordHex w') : w = w' := by
  have each (shift : UInt32) (member : shift ∈ ([4, 0, 12, 8, 20, 16, 28, 24] : List UInt32)) :=
    nibble_of_hexChar (List.map_inj_left.1 same shift member)
  simp only [List.forall_mem_cons, List.not_mem_nil, false_imp_iff, implies_true, and_true,
    UInt32.reduceToNat, Nat.reduceMod, Nat.reducePow, Nat.div_one] at each
  apply UInt32.toNat_inj.1
  have bound := w.toNat_lt
  have bound' := w'.toNat_lt
  omega

theorem zero_not_mem_wordHex (w : UInt32) : '\x00' ∉ wordHex w := by
  intro member
  obtain ⟨shift, -, eq⟩ := List.mem_map.1 member
  obtain ⟨n, nibble, -⟩ := exists_nibble w shift
  rw [nibble] at eq
  exact hexChar_ne_zero_fin n eq

/-- Words are determined by their hexadecimal digits. -/
theorem flatMap_wordHex_inj {ws ws' : List UInt32}
    (same : ws.flatMap wordHex = ws'.flatMap wordHex) : ws = ws' := by
  induction ws generalizing ws' with
  | nil =>
      cases ws' with
      | nil => rfl
      | cons w' rest' => cases same
  | cons w rest ih =>
      cases ws' with
      | nil => cases same
      | cons w' rest' =>
          obtain ⟨here, later⟩ := List.append_inj same rfl
          rw [wordHex_inj here, ih later]

/-- A fingerprint tells the digest. -/
theorem blake3_of_fingerprint {data data' : ByteArray}
    (same : fingerprint data = fingerprint data') : blake3 data = blake3 data' := by
  rw [fingerprint, fingerprint, String.append_right_inj, blake3Hex, blake3Hex] at same
  have words := flatMap_wordHex_inj (String.ofList_injective same)
  exact Vector.toList_inj.1 words

theorem zero_not_mem_flatMap_wordHex (ws : List UInt32) : '\x00' ∉ ws.flatMap wordHex := by
  intro member
  obtain ⟨w, -, member⟩ := List.mem_flatMap.1 member
  exact zero_not_mem_wordHex w member

theorem zero_not_mem_ofText (text : String) : '\x00' ∉ (ofText text).toList := by
  simp only [ofText, fingerprint, blake3Hex, String.toList_append, String.toList_ofList]
  intro member
  rcases List.mem_append.1 member with label | digit
  · revert label
    decide
  · exact zero_not_mem_flatMap_wordHex _ digit

/-! ### Bytes of texts -/

/-- The bytes of a text. -/
def bytesOf (text : String) : List UInt8 := text.toList.flatMap String.utf8EncodeChar

theorem bytesOf_ofList (cs : List Char) :
    bytesOf (.ofList cs) = cs.flatMap String.utf8EncodeChar := by
  rw [bytesOf, String.toList_ofList]

theorem toUTF8_eq_bytesOf (text : String) : text.toUTF8 = (bytesOf text).toByteArray :=
  String.utf8Encode_toList.symm

theorem toUTF8_inj {text text' : String} (same : text.toUTF8 = text'.toUTF8) : text = text' :=
  String.toByteArray_inj.1 same

/-- No byte of a character is zero but that of the zero character. -/
theorem zero_not_mem_utf8EncodeChar {c : Char} (nonzero : c ≠ '\x00') :
    0 ∉ String.utf8EncodeChar c := by
  have value : c.val.toNat ≠ 0 := by
    intro zero
    exact nonzero (Char.ext (UInt32.toNat_inj.1 zero))
  have byte {n : Nat} (low : 0 < n) (high : n < 256) : (0 : UInt8) ≠ UInt8.ofNat n := by
    intro eq
    have same := congrArg UInt8.toNat eq
    rw [UInt8.toNat_ofNat', Nat.mod_eq_of_lt high] at same
    exact absurd same (Nat.ne_of_lt low)
  fun_cases String.utf8EncodeChar c <;>
    simp only [List.mem_cons, List.not_mem_nil, or_false, not_or]
  · exact byte (by omega) (by omega)
  · exact ⟨byte (by omega) (by omega), byte (by omega) (by omega)⟩
  · exact ⟨byte (by omega) (by omega), byte (by omega) (by omega), byte (by omega) (by omega)⟩
  · exact ⟨byte (by omega) (by omega), byte (by omega) (by omega), byte (by omega) (by omega),
      byte (by omega) (by omega)⟩

theorem zero_not_mem_bytesOf {text : String} (nonzero : '\x00' ∉ text.toList) :
    0 ∉ bytesOf text := by
  intro member
  obtain ⟨c, inside, member⟩ := List.mem_flatMap.1 member
  exact zero_not_mem_utf8EncodeChar (fun eq => nonzero (eq ▸ inside)) member

/-! ### Several texts -/

theorem joined_eq (texts : List String) :
    joined texts = (texts.flatMap fun text => bytesOf text ++ [0]).toByteArray := by
  have step (data : ByteArray) : texts.foldl (fun data text => (data ++ text.toUTF8).push 0) data =
      data ++ (texts.flatMap fun text => bytesOf text ++ [0]).toByteArray := by
    induction texts generalizing data with
    | nil => simp
    | cons text rest ih =>
        rw [List.foldl_cons, ih, List.flatMap_cons, List.toByteArray_append, toUTF8_eq_bytesOf,
          List.toByteArray_append, ← ByteArray.append_toByteArray_singleton, ByteArray.append_assoc,
          ByteArray.append_assoc, ByteArray.append_assoc]
  rw [joined, step, ByteArray.empty_append]

theorem closed_inj {bytes bytes' rest rest' : List UInt8} (whole : 0 ∉ bytes) (whole' : 0 ∉ bytes')
    (same : bytes ++ 0 :: rest = bytes' ++ 0 :: rest') : bytes = bytes' ∧ rest = rest' := by
  induction bytes generalizing bytes' with
  | nil =>
      cases bytes' with
      | nil => exact ⟨rfl, (List.cons.inj same).2⟩
      | cons b' more' => exact absurd (List.cons.inj same).1 (List.ne_of_not_mem_cons whole')
  | cons b more ih =>
      cases bytes' with
      | nil => exact absurd (List.cons.inj same).1.symm (List.ne_of_not_mem_cons whole)
      | cons b' more' =>
          obtain ⟨rfl, others⟩ := List.cons.inj same
          obtain ⟨rfl, last⟩ := ih (List.not_mem_of_not_mem_cons whole)
            (List.not_mem_of_not_mem_cons whole') others
          exact ⟨rfl, last⟩

/-- The bytes together determine the texts, if no text has a zero character. -/
theorem joined_inj {texts texts' : List String} (whole : ∀ text ∈ texts, '\x00' ∉ text.toList)
    (whole' : ∀ text ∈ texts', '\x00' ∉ text.toList) (same : joined texts = joined texts') :
    texts = texts' := by
  rw [joined_eq, joined_eq, List.toByteArray_inj] at same
  induction texts generalizing texts' with
  | nil =>
      cases texts' with
      | nil => rfl
      | cons text' rest' => simp at same
  | cons text rest ih =>
      cases texts' with
      | nil => simp at same
      | cons text' rest' =>
          obtain ⟨here, later⟩ := List.forall_mem_cons.1 whole
          obtain ⟨here', later'⟩ := List.forall_mem_cons.1 whole'
          rw [List.flatMap_cons, List.flatMap_cons, List.append_assoc, List.append_assoc] at same
          obtain ⟨bytes, others⟩ :=
            closed_inj (zero_not_mem_bytesOf here) (zero_not_mem_bytesOf here') same
          have first : text = text' := by
            apply toUTF8_inj
            rw [toUTF8_eq_bytesOf, toUTF8_eq_bytesOf, bytes]
          rw [first, ih later later' others]

/-! ### Byte sequences without a shared digest -/

/-- No two of the byte sequences share a digest. -/
def Distinguishes (data : List ByteArray) : Prop :=
  ∀ a ∈ data, ∀ b ∈ data, blake3 a = blake3 b → a = b

theorem Distinguishes.tails {first first' : ByteArray} {rest rest' : List ByteArray}
    (apart : Distinguishes (first :: rest ++ first' :: rest')) : Distinguishes (rest ++ rest') := by
  have inside {a : ByteArray} (member : a ∈ rest ++ rest') :
      a ∈ first :: rest ++ first' :: rest' := by
    rw [List.mem_append] at member ⊢
    exact member.imp (List.mem_cons_of_mem _) (List.mem_cons_of_mem _)
  intro a member b member'
  exact apart a (inside member) b (inside member')

/-- What is hashed for the fingerprint of fingerprinted texts: the fingerprints together, and each
of the texts. -/
def hashed (texts : List String) : List ByteArray :=
  joined (texts.map ofText) :: texts.map String.toUTF8

theorem eq_of_map_ofText {texts texts' : List String}
    (apart : Distinguishes (texts.map String.toUTF8 ++ texts'.map String.toUTF8))
    (same : texts.map ofText = texts'.map ofText) : texts = texts' := by
  induction texts generalizing texts' with
  | nil => exact (List.map_eq_nil_iff.1 same.symm).symm
  | cons text rest ih =>
      cases texts' with
      | nil => cases same
      | cons text' rest' =>
          obtain ⟨here, later⟩ := List.cons.inj same
          have first : text = text' := by
            apply toUTF8_inj
            exact apart _ (by simp) _ (by simp) (blake3_of_fingerprint here)
          rw [first, ih apart.tails later]

/-- The fingerprint of fingerprinted texts pins the texts. -/
theorem eq_of_ofTexts {texts texts' : List String}
    (apart : Distinguishes (hashed texts ++ hashed texts'))
    (same : ofTexts (texts.map ofText) = ofTexts (texts'.map ofText)) : texts = texts' := by
  have nonzero (texts : List String) : ∀ text ∈ texts.map ofText, '\x00' ∉ text.toList := by
    intro text member
    obtain ⟨original, -, rfl⟩ := List.mem_map.1 member
    exact zero_not_mem_ofText original
  have bytes : joined (texts.map ofText) = joined (texts'.map ofText) :=
    apart _ (by simp [hashed]) _ (by simp [hashed]) (blake3_of_fingerprint same)
  exact eq_of_map_ofText apart.tails (joined_inj (nonzero texts) (nonzero texts') bytes)

end RecordInference.Digest
