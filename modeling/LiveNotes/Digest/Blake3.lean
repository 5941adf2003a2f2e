/-! The hash function BLAKE3. A text is cut into chunks of 1024 bytes and these into blocks of 64; the
chunks are the leaves of a binary tree in which a left branch is always full. -/

namespace LiveNotes.Digest

/-- The words that chaining starts with. -/
def startWords : Vector UInt32 8 :=
  #v[0x6a09e667, 0xbb67ae85, 0x3c6ef372, 0xa54ff53a, 0x510e527f, 0x9b05688c, 0x1f83d9ab, 0x5be0cd19]

/-- Where each word of a block comes from in the next round. -/
def permutation : Vector (Fin 16) 16 := #v[2, 6, 3, 10, 7, 0, 4, 13, 1, 11, 12, 5, 9, 14, 15, 8]

abbrev Words := Vector UInt32 16

def rotateRight (x n : UInt32) : UInt32 := (x >>> n) ||| (x <<< (32 - n))

/-- Mixes two words of a block into four words of the state. -/
def mix (v : Words) (a b c d : Fin 16) (x y : UInt32) : Words :=
  let va := v[a] + v[b] + x
  let vd := rotateRight (v[d] ^^^ va) 16
  let vc := v[c] + vd
  let vb := rotateRight (v[b] ^^^ vc) 12
  let va := va + vb + y
  let vd := rotateRight (vd ^^^ va) 8
  let vc := vc + vd
  let vb := rotateRight (vb ^^^ vc) 7
  (((v.set a va).set b vb).set c vc).set d vd

/-- Mixes the columns of the state, then its diagonals. -/
def round (v m : Words) : Words :=
  let v := mix v 0 4 8 12 m[0] m[1]
  let v := mix v 1 5 9 13 m[2] m[3]
  let v := mix v 2 6 10 14 m[4] m[5]
  let v := mix v 3 7 11 15 m[6] m[7]
  let v := mix v 0 5 10 15 m[8] m[9]
  let v := mix v 1 6 11 12 m[10] m[11]
  let v := mix v 2 7 8 13 m[12] m[13]
  mix v 3 4 9 14 m[14] m[15]

def permute (m : Words) : Words := Vector.ofFn fun i => m[permutation[i]]

def rounds : Nat → Words → Words → Words
  | 0, v, _ => v
  | n + 1, v, m => rounds n (round v m) (permute m)

/-- A node of the tree before its last compression. -/
structure Node where
  chain : Vector UInt32 8
  block : Words
  counter : UInt64
  length : UInt32
  flags : UInt32

def chunkStart : UInt32 := 1
def chunkEnd : UInt32 := 2
def parentFlag : UInt32 := 4
def rootFlag : UInt32 := 8

/-- The eight words that a node gives to what stands above it. -/
def Node.compress (n : Node) (flags : UInt32) : Vector UInt32 8 :=
  let low := n.counter.toUInt32
  let high := (n.counter >>> 32).toUInt32
  let v : Words := #v[n.chain[0], n.chain[1], n.chain[2], n.chain[3], n.chain[4], n.chain[5],
    n.chain[6], n.chain[7], startWords[0], startWords[1], startWords[2], startWords[3], low, high,
    n.length, n.flags ||| flags]
  let v := rounds 7 v n.block
  Vector.ofFn fun i => v[i.val] ^^^ v[i.val + 8]

/-- The words of bytes, the low byte first. -/
def wordsOf : List UInt8 → List UInt32
  | [] => []
  | [a] => [a.toUInt32]
  | [a, b] => [a.toUInt32 ||| (b.toUInt32 <<< 8)]
  | [a, b, c] => [a.toUInt32 ||| (b.toUInt32 <<< 8) ||| (c.toUInt32 <<< 16)]
  | a :: b :: c :: d :: rest =>
    (a.toUInt32 ||| (b.toUInt32 <<< 8) ||| (c.toUInt32 <<< 16) ||| (d.toUInt32 <<< 24)) ::
      wordsOf rest

/-- The words of at most 64 bytes; the rest of the block is zero. -/
def blockOf (bytes : List UInt8) : Words :=
  let words := (wordsOf bytes).toArray
  Vector.ofFn fun i => words.getD i.val 0

/-- Pieces of `size` bytes, the last of which may be shorter; `fuel` bounds their number. -/
def pieces (size : Nat) : Nat → List UInt8 → List (List UInt8)
  | 0, _ => []
  | fuel + 1, bytes =>
    if bytes.length ≤ size then [bytes]
    else bytes.take size :: pieces size fuel (bytes.drop size)

/-- The node of a chunk, given the blocks that are left of it. -/
def chunkNode (chain : Vector UInt32 8) (counter : UInt64) (flags : UInt32) :
    List (List UInt8) → Node
  | [] => ⟨chain, blockOf [], counter, 0, flags ||| chunkEnd⟩
  | [last] => ⟨chain, blockOf last, counter, last.length.toUInt32, flags ||| chunkEnd⟩
  | block :: blocks =>
    let node : Node := ⟨chain, blockOf block, counter, 64, flags⟩
    chunkNode (node.compress 0) counter 0 blocks

/-- The leaf for the chunk with the given number. -/
def leaf (number : Nat) (chunk : List UInt8) : Node :=
  chunkNode startWords number.toUInt64 chunkStart (pieces 64 16 chunk)

def leaves (number : Nat) : List (List UInt8) → List Node
  | [] => []
  | chunk :: chunks => leaf number chunk :: leaves (number + 1) chunks

def parent (left right : Node) : Node :=
  ⟨startWords, left.compress 0 ++ right.compress 0, 0, 64, parentFlag⟩

/-- Joins neighbours; a last one without neighbour stays. -/
def joinPairs : List Node → List Node
  | left :: right :: rest => parent left right :: joinPairs rest
  | rest => rest

/-- The root above some nodes; `fuel` bounds the height of the tree. -/
def rootOf : Nat → List Node → Node
  | 0, nodes => nodes.headD (leaf 0 [])
  | fuel + 1, nodes =>
    match nodes with
    | [] => leaf 0 []
    | [node] => node
    | _ => rootOf fuel (joinPairs nodes)

def hexDigits (b : UInt8) : List Char := [Nat.digitChar (b.toNat / 16), Nat.digitChar (b.toNat % 16)]

def wordBytes (w : UInt32) : List UInt8 :=
  [w.toUInt8, (w >>> 8).toUInt8, (w >>> 16).toUInt8, (w >>> 24).toUInt8]

/-- Bytes as hexadecimal digits. -/
def hexText (bytes : List UInt8) : String := String.ofList (bytes.flatMap hexDigits)

/-- The 32 bytes of the hash of some bytes. -/
def blake3 (bytes : List UInt8) : List UInt8 :=
  let chunks := pieces 1024 (bytes.length / 1024 + 1) bytes
  let root := rootOf chunks.length (leaves 0 chunks)
  (root.compress rootFlag).toList.flatMap wordBytes

/-- The hash of some bytes in 64 hexadecimal digits. -/
def contentHash (bytes : List UInt8) : String := hexText (blake3 bytes)

end LiveNotes.Digest
