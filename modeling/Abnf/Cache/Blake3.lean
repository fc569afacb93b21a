import Abnf.Cache.Wire

/-!
# BLAKE3

The digest of a text: the text is cut into chunks of 1024 bytes, chunks into blocks of 64 bytes.
Compressing the blocks of a chunk one after the other gives a leaf of a binary tree whose nodes
are compressed from their two children, and the root gives the digest.
-/

namespace Abnf.Cache.Blake3

/-- Eight words that stand for the part of a text read so far. -/
abbrev Chain :=
  Vector UInt32 8

/-- The sixteen words of a block, or of the state of a compression. -/
abbrev Block :=
  Vector UInt32 16

/-- The words that every computation begins with. -/
def start : Chain :=
  #v[0x6a09e667, 0xbb67ae85, 0x3c6ef372, 0xa54ff53a, 0x510e527f, 0x9b05688c, 0x1f83d9ab,
    0x5be0cd19]

/-! ## Flags -/

/-- Marks the first block of a chunk. -/
def chunkStart : UInt32 := 1

/-- Marks the last block of a chunk. -/
def chunkEnd : UInt32 := 2

/-- Marks a node that is no leaf. -/
def parent : UInt32 := 4

/-- Marks the last compression of all. -/
def root : UInt32 := 8

/-! ## Compression -/

/-- Turns the bits of a word to the right, the lowest becoming the highest. -/
def rotate (word bits : UInt32) : UInt32 :=
  (word >>> bits) ||| (word <<< (32 - bits))

/-- Mixes two message words into four words of the state. -/
def mix (s : Block) (a b c d : Fin 16) (x y : UInt32) : Block :=
  let s := s.set a (s[a] + s[b] + x)
  let s := s.set d (rotate (s[d] ^^^ s[a]) 16)
  let s := s.set c (s[c] + s[d])
  let s := s.set b (rotate (s[b] ^^^ s[c]) 12)
  let s := s.set a (s[a] + s[b] + y)
  let s := s.set d (rotate (s[d] ^^^ s[a]) 8)
  let s := s.set c (s[c] + s[d])
  s.set b (rotate (s[b] ^^^ s[c]) 7)

/-- Mixes a block into the columns and then into the diagonals of the state. -/
def round (s m : Block) : Block :=
  let s := mix s 0 4 8 12 m[0] m[1]
  let s := mix s 1 5 9 13 m[2] m[3]
  let s := mix s 2 6 10 14 m[4] m[5]
  let s := mix s 3 7 11 15 m[6] m[7]
  let s := mix s 0 5 10 15 m[8] m[9]
  let s := mix s 1 6 11 12 m[10] m[11]
  let s := mix s 2 7 8 13 m[12] m[13]
  mix s 3 4 9 14 m[14] m[15]

/-- The order of the block's words in the next round. -/
def permute (m : Block) : Block :=
  #v[m[2], m[6], m[3], m[10], m[7], m[0], m[4], m[13], m[1], m[11], m[12], m[5], m[9], m[14],
    m[15], m[8]]

/-- `count` rounds, with the block's words permuted in between. -/
def rounds : (count : Nat) → (s m : Block) → Block
  | 0, s, _ => s
  | count + 1, s, m => rounds count (round s m) (permute m)

/-- What a compression is applied to: the chain so far, a block with the number of its bytes,
the number of the chunk, and flags. -/
structure Node where
  chain : Chain
  block : Block
  chunk : UInt64
  length : UInt32
  flags : UInt32

/-- The chain after a compression. -/
def Node.compress (node : Node) : Chain :=
  let s := rounds 7
    (node.chain ++ #v[0x6a09e667, 0xbb67ae85, 0x3c6ef372, 0xa54ff53a, node.chunk.toUInt32,
      (node.chunk >>> 32).toUInt32, node.length, node.flags])
    node.block
  Vector.ofFn fun i => s[i.val] ^^^ s[i.val + 8]

/-! ## Chunks and the tree -/

/-- The block of up to 64 bytes, filled with zeros. -/
def blockOf (bytes : List UInt8) : Block :=
  Vector.ofFn fun i => (ofLittleEndian ((bytes.drop (4 * i.val)).take 4)).toUInt32

/-- The pieces of `size` bytes of a text, the last of which may be shorter; an empty text is one
empty piece. -/
def pieces (size : Nat) (bytes : List UInt8) : List (List UInt8) :=
  if 0 < size ∧ size < bytes.length then
    bytes.take size :: pieces size (bytes.drop size)
  else
    [bytes]
termination_by bytes.length

/-- The leaf of a chunk, given its remaining blocks, the chain so far and the flags of the next
block. -/
def leaf (chunk : UInt64) (chain : Chain) (flags : UInt32) : List (List UInt8) → Node
  | [] => ⟨chain, blockOf [], chunk, 0, flags ||| chunkEnd⟩
  | [last] => ⟨chain, blockOf last, chunk, last.length.toUInt32, flags ||| chunkEnd⟩
  | bytes :: rest =>
    leaf chunk (Node.compress ⟨chain, blockOf bytes, chunk, bytes.length.toUInt32, flags⟩) 0 rest

/-- The leaf of the chunk with the given number. -/
def leafOf (bytes : List UInt8) (number : Nat) : Node :=
  leaf number.toUInt64 start chunkStart (pieces 64 bytes)

/-- The node above two nodes. -/
def above (left right : Node) : Node :=
  ⟨start, left.compress ++ right.compress, 0, 64, parent⟩

/-- Joins nodes pairwise; the last of an odd number of nodes stays as it is. -/
def joinPairs : List Node → List Node
  | left :: right :: rest => above left right :: joinPairs rest
  | nodes => nodes

theorem length_joinPairs_le (nodes : List Node) : (joinPairs nodes).length ≤ nodes.length := by
  fun_induction joinPairs nodes with
  | case1 left right rest ih =>
    simp only [List.length_cons]
    omega
  | case2 => exact Nat.le_refl _

/-- The root of the tree over some nodes. -/
def top (first : Node) (rest : List Node) : Node :=
  match rest with
  | [] => first
  | second :: rest => top (above first second) (joinPairs rest)
termination_by rest.length
decreasing_by
  have := length_joinPairs_le rest
  simp only [List.length_cons]
  omega

/-- The digest of some bytes. -/
def hash (bytes : List UInt8) : Digest :=
  let leaves := (pieces 1024 bytes).zipIdx.map fun (chunk, number) => leafOf chunk number
  let last := match leaves with
    | [] => leafOf [] 0
    | first :: rest => top first rest
  let chain := Node.compress { last with flags := last.flags ||| root }
  Vector.ofFn fun i => (chain[i.val / 4] >>> (8 * (i.val % 4).toUInt32)).toUInt8

end Abnf.Cache.Blake3
