/-!
# BLAKE3 digests and fingerprints

The 32-byte BLAKE3 digest of a byte sequence. The input is cut into chunks of 1024 bytes,
a chunk into blocks of 64. The blocks of a chunk are chained; the chunks are the leaves
of a binary tree whose left subtrees hold a power of two of them.

A fingerprint is `blake3:` and the hexadecimal digest. Several texts are fingerprinted
together by closing each with a zero byte, so that moving a boundary changes the bytes.
-/

set_option autoImplicit false

namespace RecordInference.Digest

/-- Sixteen words: a block of input or the state of the compression. -/
abbrev Words16 := Vector UInt32 16

/-- Eight words: a chaining value. -/
abbrev Words8 := Vector UInt32 8

/-- The initial chaining value. -/
def start : Words8 :=
  #v[0x6A09E667, 0xBB67AE85, 0x3C6EF372, 0xA54FF53A, 0x510E527F, 0x9B05688C, 0x1F83D9AB, 0x5BE0CD19]

/-- Where each word of the message stands in the next round. -/
def permutation : Vector (Fin 16) 16 := #v[2, 6, 3, 10, 7, 0, 4, 13, 1, 11, 12, 5, 9, 14, 15, 8]

/-- The flag of the first block of a chunk. -/
def chunkStart : UInt32 := 1
/-- The flag of the last block of a chunk. -/
def chunkEnd : UInt32 := 2
/-- The flag of an inner node. -/
def parent : UInt32 := 4
/-- The flag of the node that yields the digest. -/
def root : UInt32 := 8

/-- The word turned right by `n` bits. -/
def rotateRight (x n : UInt32) : UInt32 := (x >>> n) ||| (x <<< (32 - n))

/-- Mixes two message words into four state words. -/
def mix (s : Words16) (a b c d : Fin 16) (x y : UInt32) : Words16 :=
  let s := s.set a (s[a] + s[b] + x)
  let s := s.set d (rotateRight (s[d] ^^^ s[a]) 16)
  let s := s.set c (s[c] + s[d])
  let s := s.set b (rotateRight (s[b] ^^^ s[c]) 12)
  let s := s.set a (s[a] + s[b] + y)
  let s := s.set d (rotateRight (s[d] ^^^ s[a]) 8)
  let s := s.set c (s[c] + s[d])
  s.set b (rotateRight (s[b] ^^^ s[c]) 7)

/-- Mixes the columns, then the diagonals. -/
def round (s m : Words16) : Words16 :=
  let s := mix s 0 4 8 12 m[0] m[1]
  let s := mix s 1 5 9 13 m[2] m[3]
  let s := mix s 2 6 10 14 m[4] m[5]
  let s := mix s 3 7 11 15 m[6] m[7]
  let s := mix s 0 5 10 15 m[8] m[9]
  let s := mix s 1 6 11 12 m[10] m[11]
  let s := mix s 2 7 8 13 m[12] m[13]
  mix s 3 4 9 14 m[14] m[15]

/-- `n` rounds, the message permuted after each. -/
def rounds : Nat → Words16 → Words16 → Words16
  | 0, s, _ => s
  | n + 1, s, m => rounds n (round s m) (permutation.map fun i => m[i])

/-- The input of one compression. -/
structure Node where
  chain : Words8
  block : Words16
  counter : UInt64
  length : UInt32
  flags : UInt32

/-- The chaining value of a node, with further flags set. -/
def Node.compress (n : Node) (flags : UInt32) : Words8 :=
  let h := n.chain
  let s : Words16 :=
    #v[h[0], h[1], h[2], h[3], h[4], h[5], h[6], h[7], start[0], start[1], start[2], start[3],
      n.counter.toUInt32, (n.counter >>> 32).toUInt32, n.length, n.flags ||| flags]
  let s := rounds 7 s n.block
  Vector.ofFn fun (i : Fin 8) => s[i.val] ^^^ s[i.val + 8]

/-- The byte at `i`, zero beyond the end. -/
def byteAt (data : ByteArray) (i : Nat) : UInt8 := if h : i < data.size then data[i] else 0

/-- The word of the four bytes at `i`, the lowest first. -/
def wordAt (data : ByteArray) (i : Nat) : UInt32 :=
  (byteAt data i).toUInt32 ||| ((byteAt data (i + 1)).toUInt32 <<< 8) |||
    ((byteAt data (i + 2)).toUInt32 <<< 16) ||| ((byteAt data (i + 3)).toUInt32 <<< 24)

/-- The 64 bytes at `i`, filled up with zeros. -/
def blockAt (data : ByteArray) (i : Nat) : Words16 := Vector.ofFn fun (w : Fin 16) => wordAt data (i + 4 * w)

/-- The last block of chunk `index`, chained to the blocks before it. `data` is the chunk. -/
def chunk (data : ByteArray) (index : Nat) : Node :=
  let blocks := max 1 ((data.size + 63) / 64)
  let node := fun (chain : Words8) (b : Nat) =>
    { chain, block := blockAt data (64 * b), counter := index.toUInt64
      length := (min 64 (data.size - 64 * b)).toUInt32
      flags := (if b = 0 then chunkStart else 0) ||| (if b + 1 = blocks then chunkEnd else 0) : Node }
  -- the last block is left open, since it is compressed with other flags at the root
  let chain := (List.range (blocks - 1)).foldl (fun chain b => (node chain b).compress 0) start
  node chain (blocks - 1)

/-- The number of chunks in the left subtree over `n > 1` chunks: the greatest power of two
below `n`. -/
def leftChunks (n : Nat) : Nat := 1 <<< (n - 1).log2

theorem leftChunks_lt {n : Nat} (h : 1 < n) : leftChunks n < n := by
  have := Nat.log2_self_le (n := n - 1) (by omega)
  simp only [leftChunks, Nat.one_shiftLeft]; omega

theorem leftChunks_pos (n : Nat) : 0 < leftChunks n := by
  simp only [leftChunks, Nat.one_shiftLeft]
  exact Nat.two_pow_pos _

/-- The tree over `count` chunks of `data` from chunk `first` on. -/
def tree (data : ByteArray) (first count : Nat) : Node :=
  if h : 1 < count then
    let left := (tree data first (leftChunks count)).compress 0
    let right := (tree data (first + leftChunks count) (count - leftChunks count)).compress 0
    { chain := start, block := left ++ right, counter := 0, length := 64, flags := parent }
  else chunk (data.extract (1024 * first) (1024 * (first + 1))) first
termination_by count
decreasing_by
  · exact leftChunks_lt h
  · have := leftChunks_pos count
    omega

/-- The digest of the bytes, as eight words. -/
def blake3 (data : ByteArray) : Words8 :=
  (tree data 0 ((data.size + 1023) / 1024)).compress root

/-- A lower-case hexadecimal digit. -/
def hexChar (n : UInt32) : Char := Char.ofNat (if n < 10 then 48 + n.toNat else 87 + n.toNat)

/-- The bytes of a word in hexadecimal, the lowest first. -/
def wordHex (w : UInt32) : List Char :=
  [4, 0, 12, 8, 20, 16, 28, 24].map fun (shift : UInt32) => hexChar ((w >>> shift) &&& 15)

/-- The digest of the bytes in hexadecimal. -/
def blake3Hex (data : ByteArray) : String := String.ofList ((blake3 data).toList.flatMap wordHex)

/-! ### Fingerprints -/

/-- The written form of the digest of some bytes. -/
def fingerprint (data : ByteArray) : String := "blake3:" ++ blake3Hex data

/-- The fingerprint of a text: of its bytes in UTF-8. -/
def ofText (text : String) : String := fingerprint text.toUTF8

/-- The bytes of several texts, a zero byte after each. -/
def joined (texts : List String) : ByteArray :=
  texts.foldl (fun data text => (data ++ text.toUTF8).push 0) ByteArray.empty

/-- The fingerprint of several texts together. -/
def ofTexts (texts : List String) : String := fingerprint (joined texts)

end RecordInference.Digest
