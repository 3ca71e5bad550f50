import Factbase.Binary

/-!
# BLAKE3

The hash function BLAKE3 with its default output of 32 bytes. The input
is cut into chunks of 1024 bytes; each chunk is compressed block by
block into a chaining value, and the chaining values are joined pairwise
into a binary tree whose left subtrees are complete. The root is
compressed once more with a flag of its own.
-/

namespace Factbase

namespace Blake3

/-- Eight words: a chaining value. -/
abbrev Chain := Vector UInt32 8

/-- Sixteen words: a message block, or the state of the compression. -/
abbrev Block := Vector UInt32 16

/-- The initial chaining value. -/
def initial : Chain := #v[0x6a09e667, 0xbb67ae85, 0x3c6ef372, 0xa54ff53a, 0x510e527f, 0x9b05688c,
  0x1f83d9ab, 0x5be0cd19]

/-- Where each word of the next round's message comes from. -/
def schedule : Vector (Fin 16) 16 := #v[2, 6, 3, 10, 7, 0, 4, 13, 1, 11, 12, 5, 9, 14, 15, 8]

def chunkStart : UInt32 := 1
def chunkEnd : UInt32 := 2
def parent : UInt32 := 4
def root : UInt32 := 8

/-- The word turned right by `n` bits. -/
def rotateRight (x : UInt32) (n : UInt32) : UInt32 := (x >>> n) ||| (x <<< (32 - n))

/-- Mix two message words into four words of the state. -/
def mix (v : Block) (a b c d : Fin 16) (x y : UInt32) : Block :=
  let va := v[a] + v[b] + x
  let vd := rotateRight (v[d] ^^^ va) 16
  let vc := v[c] + vd
  let vb := rotateRight (v[b] ^^^ vc) 12
  let va := va + vb + y
  let vd := rotateRight (vd ^^^ va) 8
  let vc := vc + vd
  let vb := rotateRight (vb ^^^ vc) 7
  (((v.set a va).set b vb).set c vc).set d vd

/-- One round: the columns, then the diagonals. -/
def round (v m : Block) : Block :=
  let v := mix v 0 4 8 12 m[0] m[1]
  let v := mix v 1 5 9 13 m[2] m[3]
  let v := mix v 2 6 10 14 m[4] m[5]
  let v := mix v 3 7 11 15 m[6] m[7]
  let v := mix v 0 5 10 15 m[8] m[9]
  let v := mix v 1 6 11 12 m[10] m[11]
  let v := mix v 2 7 8 13 m[12] m[13]
  mix v 3 4 9 14 m[14] m[15]

/-- `n` rounds, the message permuted after each. -/
def rounds : Nat → Block → Block → Block
  | 0, v, _ => v
  | n + 1, v, m => rounds n (round v m) (schedule.map fun i => m[i])

/-- Compress one block into a chaining value. -/
def compress (chain : Chain) (block : Block) (counter : UInt64) (length flags : UInt32) : Chain :=
  let low : Vector UInt32 8 := #v[initial[0], initial[1], initial[2], initial[3],
    counter.toUInt32, (counter >>> 32).toUInt32, length, flags]
  let v := rounds 7 (chain ++ low) block
  Vector.ofFn fun i : Fin 8 => v[i.val] ^^^ v[i.val + 8]

/-- Little-endian words of a byte list. -/
def words : Bytes → List UInt32
  | a :: b :: c :: d :: rest =>
    (a.toUInt32 ||| (b.toUInt32 <<< 8) ||| (c.toUInt32 <<< 16) ||| (d.toUInt32 <<< 24)) :: words rest
  | _ => []

/-- The block of at most 64 bytes, filled up with zeros. -/
def blockOf (bs : Bytes) : Block :=
  let ws := words (bs ++ List.replicate 64 0)
  Vector.ofFn fun i : Fin 16 => ws.getD i 0

/-- What a node of the tree is compressed from, so that the root can be
compressed with its own flag. -/
structure Node where
  chain : Chain
  block : Block
  counter : UInt64
  length : UInt32
  flags : UInt32

/-- The chaining value of a node. -/
def Node.value (n : Node) (extra : UInt32) : Chain :=
  compress n.chain n.block n.counter n.length (n.flags ||| extra)

/-- The last block of a chunk, after the blocks before it are compressed;
`blocks` bounds their number. -/
def chunkFrom (counter : UInt64) : Nat → Chain → UInt32 → Bytes → Node
  | 0, chain, flags, bs => ⟨chain, blockOf bs, counter, UInt32.ofNat bs.length, flags ||| chunkEnd⟩
  | blocks + 1, chain, flags, bs =>
    if bs.length ≤ 64 then ⟨chain, blockOf bs, counter, UInt32.ofNat bs.length, flags ||| chunkEnd⟩
    else
      chunkFrom counter blocks (compress chain (blockOf (bs.take 64)) counter 64 flags) 0 (bs.drop 64)

/-- The node of a chunk of at most 1024 bytes. -/
def chunk (counter : UInt64) (bs : Bytes) : Node := chunkFrom counter 15 initial chunkStart bs

/-- The node over two subtrees. -/
def join (left right : Chain) : Node := ⟨initial, left ++ right, 0, 64, parent⟩

/-- The number of chunks of the left subtree: the greatest power of two below
the number of all chunks. -/
def leftChunks (chunks : Nat) : Nat := Nat.pow 2 (Nat.log2 (chunks - 1))

/-- The node of a byte list that starts at the given chunk; `depth` bounds the
height of the tree. -/
def tree : Nat → UInt64 → Bytes → Node
  | 0, counter, bs => chunk counter bs
  | depth + 1, counter, bs =>
    if bs.length ≤ 1024 then chunk counter bs
    else
      let left := leftChunks ((bs.length + 1023) / 1024)
      join ((tree depth counter (bs.take (1024 * left))).value 0)
        ((tree depth (counter + UInt64.ofNat left) (bs.drop (1024 * left))).value 0)

/-- The four bytes of a word, least significant first. -/
def wordBytes (w : UInt32) : Bytes := [w.toUInt8, (w >>> 8).toUInt8, (w >>> 16).toUInt8, (w >>> 24).toUInt8]

/-- The hash of a byte list. -/
def hash (bs : Bytes) : Bytes := ((tree 64 0 bs).value root).toList.flatMap wordBytes

end Blake3

/-- The hash of an encoding. -/
abbrev Digest := Bytes

/-- Identifies a fact's content: predicate, key and value. -/
def contentDigest (predicate : Predicate) (key value : Value) : Digest :=
  Blake3.hash (encode (predicate, key, value))

/-- Identifies predicate and key. -/
def keyDigest (predicate : Predicate) (key : Value) : Digest := Blake3.hash (encode (predicate, key))

end Factbase
