import Mathlib.Data.Fin.Basic
import Mathlib.Data.List.Nodup
import RecordInference.Proofs.Digest.Fingerprint

/-!
# Digests by words

The digest of a text of at most 1024 bytes, which is a single chunk, computed on the words of the
state by themselves and on the list of bytes. The state and the message are squares of words: a
round is one step on the columns of the state and one on its diagonals (`State.toVector_round`), and
the words of a block are read off the bytes that are left (`toVector_wordsOf`). The result is the
digest (`blake3_toByteArray`). So it can be shown of given texts that their digests differ
(`distinguishes_of_nodup`).
-/

set_option autoImplicit false

namespace RecordInference.Digest

/-! ### Squares of words -/

/-- Four words. -/
structure Row where
  (w₀ w₁ w₂ w₃ : UInt32)

/-- The eight words of a chaining value. -/
structure Half where
  (a b : Row)

/-- The sixteen words of the state, or of a message. -/
structure State where
  (a b c d : Row)

/-- The words one row after the other. -/
def Half.toVector : Half → Words8
  | ⟨⟨a₀, a₁, a₂, a₃⟩, ⟨b₀, b₁, b₂, b₃⟩⟩ => #v[a₀, a₁, a₂, a₃, b₀, b₁, b₂, b₃]

/-- The words one row after the other. -/
def State.toVector : State → Words16
  | ⟨⟨a₀, a₁, a₂, a₃⟩, ⟨b₀, b₁, b₂, b₃⟩, ⟨c₀, c₁, c₂, c₃⟩, ⟨d₀, d₁, d₂, d₃⟩⟩ =>
    #v[a₀, a₁, a₂, a₃, b₀, b₁, b₂, b₃, c₀, c₁, c₂, c₃, d₀, d₁, d₂, d₃]

/-- The initial chaining value. -/
def initial : Half :=
  ⟨⟨0x6A09E667, 0xBB67AE85, 0x3C6EF372, 0xA54FF53A⟩,
    ⟨0x510E527F, 0x9B05688C, 0x1F83D9AB, 0x5BE0CD19⟩⟩

/-! ### Rounds -/

/-- Four words mixed with two words of the message. -/
def mixWords (a b c d x y : UInt32) : UInt32 × UInt32 × UInt32 × UInt32 :=
  let a := a + b + x
  let d := rotateRight (d ^^^ a) 16
  let c := c + d
  let b := rotateRight (b ^^^ c) 12
  let a := a + b + y
  let d := rotateRight (d ^^^ a) 8
  let c := c + d
  let b := rotateRight (b ^^^ c) 7
  (a, b, c, d)

namespace State

/-- Mixes the columns with the first half of a message. -/
def columns : State → State → State
  | ⟨⟨a₀, a₁, a₂, a₃⟩, ⟨b₀, b₁, b₂, b₃⟩, ⟨c₀, c₁, c₂, c₃⟩, ⟨d₀, d₁, d₂, d₃⟩⟩, m =>
    match mixWords a₀ b₀ c₀ d₀ m.a.w₀ m.a.w₁, mixWords a₁ b₁ c₁ d₁ m.a.w₂ m.a.w₃,
      mixWords a₂ b₂ c₂ d₂ m.b.w₀ m.b.w₁, mixWords a₃ b₃ c₃ d₃ m.b.w₂ m.b.w₃ with
    | (a₀, b₀, c₀, d₀), (a₁, b₁, c₁, d₁), (a₂, b₂, c₂, d₂), (a₃, b₃, c₃, d₃) =>
      ⟨⟨a₀, a₁, a₂, a₃⟩, ⟨b₀, b₁, b₂, b₃⟩, ⟨c₀, c₁, c₂, c₃⟩, ⟨d₀, d₁, d₂, d₃⟩⟩

/-- Mixes the diagonals with the second half of a message. -/
def diagonals : State → State → State
  | ⟨⟨a₀, a₁, a₂, a₃⟩, ⟨b₀, b₁, b₂, b₃⟩, ⟨c₀, c₁, c₂, c₃⟩, ⟨d₀, d₁, d₂, d₃⟩⟩, m =>
    match mixWords a₀ b₁ c₂ d₃ m.c.w₀ m.c.w₁, mixWords a₁ b₂ c₃ d₀ m.c.w₂ m.c.w₃,
      mixWords a₂ b₃ c₀ d₁ m.d.w₀ m.d.w₁, mixWords a₃ b₀ c₁ d₂ m.d.w₂ m.d.w₃ with
    | (a₀, b₁, c₂, d₃), (a₁, b₂, c₃, d₀), (a₂, b₃, c₀, d₁), (a₃, b₀, c₁, d₂) =>
      ⟨⟨a₀, a₁, a₂, a₃⟩, ⟨b₀, b₁, b₂, b₃⟩, ⟨c₀, c₁, c₂, c₃⟩, ⟨d₀, d₁, d₂, d₃⟩⟩

theorem toVector_columns (s m : State) : (s.columns m).toVector =
    mix (mix (mix (mix s.toVector 0 4 8 12 m.a.w₀ m.a.w₁) 1 5 9 13 m.a.w₂ m.a.w₃)
      2 6 10 14 m.b.w₀ m.b.w₁) 3 7 11 15 m.b.w₂ m.b.w₃ := by
  simp [columns, mix, mixWords, toVector]

theorem toVector_diagonals (s m : State) : (s.diagonals m).toVector =
    mix (mix (mix (mix s.toVector 0 5 10 15 m.c.w₀ m.c.w₁) 1 6 11 12 m.c.w₂ m.c.w₃)
      2 7 8 13 m.d.w₀ m.d.w₁) 3 4 9 14 m.d.w₂ m.d.w₃ := by
  simp [diagonals, mix, mixWords, toVector]

/-- The columns and the diagonals are what a round mixes. -/
theorem toVector_round (s m : State) :
    ((s.columns m).diagonals m).toVector = round s.toVector m.toVector := by
  rw [toVector_diagonals, toVector_columns]
  rfl

/-- The message for the next round. -/
def permuted : State → State
  | ⟨⟨a₀, a₁, a₂, a₃⟩, ⟨b₀, b₁, b₂, b₃⟩, ⟨c₀, c₁, c₂, c₃⟩, ⟨d₀, d₁, d₂, d₃⟩⟩ =>
    ⟨⟨a₂, b₂, a₃, c₂⟩, ⟨b₃, a₀, b₀, d₁⟩, ⟨a₁, c₃, d₀, b₁⟩, ⟨c₁, d₂, d₃, c₀⟩⟩

theorem toVector_permuted (m : State) : m.permuted.toVector = permutation.map m.toVector.get := by
  simp [permutation, permuted, toVector, Vector.get]

/-- `n` rounds, the message permuted after each. -/
def rounds : Nat → State → State → State
  | 0, s, _ => s
  | n + 1, s, m => rounds n ((s.columns m).diagonals m) m.permuted

theorem toVector_rounds (n : Nat) (s m : State) :
    (rounds n s m).toVector = Digest.rounds n s.toVector m.toVector := by
  induction n generalizing s m with
  | zero => rfl
  | succ n ih =>
      rw [rounds, ih, toVector_round, toVector_permuted]
      rfl

/-- The two halves of the state put together. -/
def folded : State → Half
  | ⟨⟨a₀, a₁, a₂, a₃⟩, ⟨b₀, b₁, b₂, b₃⟩, ⟨c₀, c₁, c₂, c₃⟩, ⟨d₀, d₁, d₂, d₃⟩⟩ =>
    ⟨⟨a₀ ^^^ c₀, a₁ ^^^ c₁, a₂ ^^^ c₂, a₃ ^^^ c₃⟩, ⟨b₀ ^^^ d₀, b₁ ^^^ d₁, b₂ ^^^ d₂, b₃ ^^^ d₃⟩⟩

end State

/-! ### Blocks -/

/-- The input of a compression, on words. -/
structure Block where
  chain : Half
  words : State
  counter : UInt64
  length : UInt32
  flags : UInt32

namespace Block

/-- The input of a compression. -/
def toNode (b : Block) : Node :=
  ⟨b.chain.toVector, b.words.toVector, b.counter, b.length, b.flags⟩

/-- The state before the rounds. -/
def state (b : Block) (flags : UInt32) : State :=
  ⟨b.chain.a, b.chain.b, initial.a,
    ⟨b.counter.toUInt32, (b.counter >>> 32).toUInt32, b.length, b.flags ||| flags⟩⟩

/-- The chaining value of a block, with further flags set. -/
def compress (b : Block) (flags : UInt32) : Half := (State.rounds 7 (b.state flags) b.words).folded

theorem compress_toNode (b : Block) (flags : UInt32) :
    b.toNode.compress flags = (b.compress flags).toVector := by
  have folded (s : State) : s.folded.toVector = Vector.ofFn fun (i : Fin 8) =>
      s.toVector[i.val] ^^^ s.toVector[i.val + 8] := by
    obtain ⟨⟨a₀, a₁, a₂, a₃⟩, ⟨b₀, b₁, b₂, b₃⟩, ⟨c₀, c₁, c₂, c₃⟩, ⟨d₀, d₁, d₂, d₃⟩⟩ := s
    rfl
  rw [compress, folded, State.toVector_rounds]
  rfl

end Block

/-! ### Bytes -/

/-- The word of the first four bytes, the lowest first, with zeros beyond the end. -/
def wordOf (bytes : List UInt8) : UInt32 :=
  (bytes.getD 0 0).toUInt32 ||| ((bytes.getD 1 0).toUInt32 <<< 8) |||
    ((bytes.getD 2 0).toUInt32 <<< 16) ||| ((bytes.getD 3 0).toUInt32 <<< 24)

/-- The sixteen words of the first 64 bytes. -/
def wordsOf (bytes : List UInt8) : State :=
  let word := fun i => wordOf (bytes.drop (4 * i))
  ⟨⟨word 0, word 1, word 2, word 3⟩, ⟨word 4, word 5, word 6, word 7⟩,
    ⟨word 8, word 9, word 10, word 11⟩, ⟨word 12, word 13, word 14, word 15⟩⟩

section

variable (bytes : List UInt8) (i : Nat)

theorem byteAt_toByteArray : byteAt bytes.toByteArray i = bytes.getD i 0 := by
  rw [byteAt, List.getD_eq_getElem?_getD]
  split
  · next inside =>
    rw [List.size_toByteArray] at inside
    rw [List.getElem_toByteArray, List.getElem?_eq_getElem inside, Option.getD_some]
  · next outside =>
    rw [List.size_toByteArray, Nat.not_lt] at outside
    rw [List.getElem?_eq_none outside, Option.getD_none]

theorem wordAt_toByteArray : wordAt bytes.toByteArray i = wordOf (bytes.drop i) := by
  simp [wordAt, wordOf, byteAt_toByteArray]

theorem toVector_wordsOf : (wordsOf (bytes.drop i)).toVector = blockAt bytes.toByteArray i := by
  simp only [blockAt, wordAt_toByteArray, wordsOf, List.drop_drop]
  rfl

end

/-! ### A chunk -/

/-- The node of block `b` of `blocks` blocks of the first chunk. -/
def nodeAt (data : ByteArray) (blocks : Nat) (chain : Words8) (b : Nat) : Node where
  chain := chain
  block := blockAt data (64 * b)
  counter := 0
  length := (min 64 (data.size - 64 * b)).toUInt32
  flags := (if b = 0 then chunkStart else 0) ||| (if b + 1 = blocks then chunkEnd else 0)

theorem chunk_zero {data : ByteArray} {blocks : Nat}
    (count : max 1 ((data.size + 63) / 64) = blocks) :
    chunk data 0 = nodeAt data blocks ((List.range (blocks - 1)).foldl
      (fun chain b => (nodeAt data blocks chain b).compress 0) start) (blocks - 1) := by
  subst count
  rfl

/-- Block `b` of `blocks` blocks. -/
def blockOf (bytes : List UInt8) (blocks : Nat) (chain : Half) (b : Nat) : Block where
  chain := chain
  words := wordsOf (bytes.drop (64 * b))
  counter := 0
  length := (min 64 (bytes.length - 64 * b)).toUInt32
  flags := (if b = 0 then chunkStart else 0) ||| (if b + 1 = blocks then chunkEnd else 0)

section

variable (bytes : List UInt8) (blocks : Nat)

theorem toNode_blockOf (chain : Half) (b : Nat) : (blockOf bytes blocks chain b).toNode =
    nodeAt bytes.toByteArray blocks chain.toVector b := by
  rw [nodeAt, ← toVector_wordsOf, List.size_toByteArray]
  rfl

/-- The chaining value after `n` blocks. -/
def chained (n : Nat) : Half :=
  (List.range n).foldl (fun chain b => (blockOf bytes blocks chain b).compress 0) initial

theorem toVector_chained (n : Nat) : (chained bytes blocks n).toVector = (List.range n).foldl
    (fun chain b => (nodeAt bytes.toByteArray blocks chain b).compress 0) start := by
  have step (chain : Half) (b : Nat) :
      (nodeAt bytes.toByteArray blocks chain.toVector b).compress 0 =
        ((blockOf bytes blocks chain b).compress 0).toVector := by
    rw [← toNode_blockOf, Block.compress_toNode]
  exact (List.foldl_hom Half.toVector step).symm

end

/-- The digest of a single chunk. -/
def digestOf (bytes : List UInt8) : Words8 :=
  let blocks := max 1 ((bytes.length + 63) / 64)
  ((blockOf bytes blocks (chained bytes blocks (blocks - 1)) (blocks - 1)).compress root).toVector

/-- At most 1024 bytes are a single chunk. -/
theorem blake3_toByteArray {bytes : List UInt8} (short : bytes.length ≤ 1024) :
    blake3 bytes.toByteArray = digestOf bytes := by
  have one : ¬ 1 < (bytes.toByteArray.size + 1023) / 1024 := by
    rw [List.size_toByteArray]
    omega
  have whole : bytes.toByteArray.extract (1024 * 0) (1024 * (0 + 1)) = bytes.toByteArray := by
    have enough : max (1024 * (0 + 1)) bytes.toByteArray.size = 1024 * (0 + 1) :=
      Nat.max_eq_left (by rwa [List.size_toByteArray])
    rw [← enough]
    exact ByteArray.extract_zero_max_size
  have count : max 1 ((bytes.toByteArray.size + 63) / 64) = max 1 ((bytes.length + 63) / 64) := by
    rw [List.size_toByteArray]
  rw [blake3, tree, dif_neg one, whole, chunk_zero count, digestOf, ← Block.compress_toNode,
    toNode_blockOf, toVector_chained]

/-! ### Digests of given texts -/

/-- The bytes of a fingerprint with this digest. -/
def fingerprintBytes (digest : Words8) : List UInt8 :=
  bytesOf "blake3:" ++ (digest.toList.flatMap wordHex).flatMap String.utf8EncodeChar

theorem bytesOf_ofText {text : String} (short : (bytesOf text).length ≤ 1024) :
    bytesOf (ofText text) = fingerprintBytes (digestOf (bytesOf text)) := by
  rw [ofText, fingerprint, blake3Hex, toUTF8_eq_bytesOf, blake3_toByteArray short]
  simp only [bytesOf, fingerprintBytes, String.toList_append, List.flatMap_append,
    String.toList_ofList]

/-- Texts with distinct digests have distinct fingerprints. -/
theorem ofText_ne_of_digestOf {text text' : String} (short : (bytesOf text).length ≤ 1024)
    (short' : (bytesOf text').length ≤ 1024)
    (apart : digestOf (bytesOf text) ≠ digestOf (bytesOf text')) : ofText text ≠ ofText text' := by
  intro same
  have digests := blake3_of_fingerprint same
  rw [toUTF8_eq_bytesOf, toUTF8_eq_bytesOf, blake3_toByteArray short,
    blake3_toByteArray short'] at digests
  exact apart digests

/-- What is hashed for the fingerprint of fingerprinted texts with these bytes. -/
def hashedBytes (texts : List (List UInt8)) : List (List UInt8) :=
  (texts.flatMap fun bytes => fingerprintBytes (digestOf bytes) ++ [0]) :: texts

theorem hashed_eq_map {texts : List String} (short : ∀ text ∈ texts, (bytesOf text).length ≤ 1024) :
    hashed texts = (hashedBytes (texts.map bytesOf)).map List.toByteArray := by
  have each : (texts.map ofText).flatMap (fun text => bytesOf text ++ [0]) =
      (texts.map bytesOf).flatMap fun bytes => fingerprintBytes (digestOf bytes) ++ [0] := by
    rw [List.flatMap_map, List.flatMap_map, List.flatMap_def, List.flatMap_def]
    apply congrArg List.flatten
    apply List.map_congr_left
    intro text member
    rw [bytesOf_ofText (short text member)]
  rw [hashed, hashedBytes, joined_eq, each, List.map_cons, List.map_map]
  exact congrArg _ (List.map_congr_left fun text _ => toUTF8_eq_bytesOf text)

/-- Byte sequences with distinct digests share none. -/
theorem distinguishes_of_nodup {texts : List (List UInt8)}
    (short : ∀ bytes ∈ texts, bytes.length ≤ 1024) (distinct : (texts.map digestOf).Nodup) :
    Distinguishes (texts.map List.toByteArray ++ texts.map List.toByteArray) := by
  have known {a : ByteArray}
      (member : a ∈ texts.map List.toByteArray ++ texts.map List.toByteArray) :
      ∃ bytes ∈ texts, a = bytes.toByteArray := by
    simp only [List.mem_append, or_self, List.mem_map] at member
    obtain ⟨bytes, member, eq⟩ := member
    exact ⟨bytes, member, eq.symm⟩
  intro a member b member' same
  obtain ⟨bytes, inside, rfl⟩ := known member
  obtain ⟨bytes', inside', rfl⟩ := known member'
  rw [blake3_toByteArray (short bytes inside), blake3_toByteArray (short bytes' inside')] at same
  rw [List.inj_on_of_nodup_map distinct inside inside' same]

end RecordInference.Digest
