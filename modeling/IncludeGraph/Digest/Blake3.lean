/-!
# The BLAKE3 digest

The input is cut into chunks of 1024 bytes and each chunk into blocks of 64.  A
chunk is compressed block by block to eight words; the chunks are the leaves of a
binary tree in which every left subtree is full.  The digest of 32 bytes comes
from the root.
-/

namespace IncludeGraph.Blake3

/-- Eight words: the state that a node of the tree hands to its parent. -/
abbrev ChainingValue := Vector UInt32 8

/-- Sixteen words: the message of one compression. -/
abbrev Block := Vector UInt32 16

def initialValue : ChainingValue :=
  #v[0x6A09E667, 0xBB67AE85, 0x3C6EF372, 0xA54FF53A,
     0x510E527F, 0x9B05688C, 0x1F83D9AB, 0x5BE0CD19]

def chunkStart : UInt32 := 1
def chunkEnd : UInt32 := 2
def parentNode : UInt32 := 4
def rootNode : UInt32 := 8

def rotateRight (word count : UInt32) : UInt32 :=
  (word >>> count) ||| (word <<< (32 - count))

/-- The quarter round on the words `a`, `b`, `c`, `d` with two message words. -/
def mix (state : Block) (a b c d : Fin 16) (x y : UInt32) : Block :=
  let va := state[a] + state[b] + x
  let vd := rotateRight (state[d] ^^^ va) 16
  let vc := state[c] + vd
  let vb := rotateRight (state[b] ^^^ vc) 12
  let va := va + vb + y
  let vd := rotateRight (vd ^^^ va) 8
  let vc := vc + vd
  let vb := rotateRight (vb ^^^ vc) 7
  (((state.set a va).set b vb).set c vc).set d vd

/-- One round: the columns of the state and then its diagonals. -/
def round (state m : Block) : Block :=
  let state := mix state 0 4 8 12 m[0] m[1]
  let state := mix state 1 5 9 13 m[2] m[3]
  let state := mix state 2 6 10 14 m[4] m[5]
  let state := mix state 3 7 11 15 m[6] m[7]
  let state := mix state 0 5 10 15 m[8] m[9]
  let state := mix state 1 6 11 12 m[10] m[11]
  let state := mix state 2 7 8 13 m[12] m[13]
  mix state 3 4 9 14 m[14] m[15]

/-- The order of the message words in the next round. -/
def permute (m : Block) : Block :=
  #v[m[2], m[6], m[3], m[10], m[7], m[0], m[4], m[13],
     m[1], m[11], m[12], m[5], m[9], m[14], m[15], m[8]]

/-- Rounds of a compression, the message permuted between two of them. -/
def rounds (state m : Block) : (count : Nat) → Block
  | 0 => state
  | count + 1 => rounds (round state m) (permute m) count

/-- Compresses one block of `size` bytes into the first eight output words. -/
def compress (cv : ChainingValue) (m : Block) (counter : UInt64) (size flags : UInt32) :
    ChainingValue :=
  let state : Block :=
    #v[cv[0], cv[1], cv[2], cv[3], cv[4], cv[5], cv[6], cv[7],
       initialValue[0], initialValue[1], initialValue[2], initialValue[3],
       counter.toUInt32, (counter >>> 32).toUInt32, size, flags]
  let state := rounds state m 7
  #v[state[0] ^^^ state[8], state[1] ^^^ state[9], state[2] ^^^ state[10],
     state[3] ^^^ state[11], state[4] ^^^ state[12], state[5] ^^^ state[13],
     state[6] ^^^ state[14], state[7] ^^^ state[15]]

/-- Byte `i` of the input as a word, and zero beyond its end. -/
def byteAt (input : ByteArray) (i : Nat) : UInt32 :=
  if h : i < input.size then input[i].toUInt32 else 0

/-- The four bytes from `i` on as a little-endian word. -/
def wordAt (input : ByteArray) (i : Nat) : UInt32 :=
  byteAt input i ||| (byteAt input (i + 1) <<< 8) ||| (byteAt input (i + 2) <<< 16) |||
    (byteAt input (i + 3) <<< 24)

def blockAt (input : ByteArray) (start : Nat) : Block :=
  Vector.ofFn fun i : Fin 16 => wordAt input (start + 4 * i)

/-- Compresses the blocks of a chunk that starts at `start`; `blocks` of them are
left, `size` bytes are left, and `flags` joins the flags of the last block. -/
def compressBlocks (input : ByteArray) (counter : UInt64) (flags : UInt32)
    (cv : ChainingValue) (start size : Nat) (first : Bool) : (blocks : Nat) → ChainingValue
  | 0 => cv
  | blocks + 1 =>
    let here := if first then chunkStart else 0
    if blocks = 0 then
      compress cv (blockAt input start) counter size.toUInt32 (here ||| chunkEnd ||| flags)
    else
      let next := compress cv (blockAt input start) counter 64 here
      compressBlocks input counter flags next (start + 64) (size - 64) false blocks

def chunkValue (input : ByteArray) (chunk : Nat) (flags : UInt32) : ChainingValue :=
  let start := 1024 * chunk
  let size := min 1024 (input.size - start)
  compressBlocks input chunk.toUInt64 flags initialValue start size true (max 1 ((size + 63) / 64))

def parentValue (left right : ChainingValue) (flags : UInt32) : ChainingValue :=
  compress initialValue (left ++ right) 0 64 (parentNode ||| flags)

/-- The largest power of two below a number of at least two. -/
def leftChunks (chunks : Nat) : Nat := Nat.pow 2 (chunks - 1).log2

theorem leftChunks_lt {chunks : Nat} (h : 1 < chunks) : leftChunks chunks < chunks := by
  have : Nat.pow 2 (chunks - 1).log2 ≤ chunks - 1 := Nat.log2_self_le (by omega)
  simp only [leftChunks]
  omega

theorem leftChunks_pos (chunks : Nat) : 0 < leftChunks chunks :=
  Nat.two_pow_pos _

/-- The chaining value of the subtree over `chunks` chunks from `first` on. -/
def treeValue (input : ByteArray) (first chunks : Nat) (flags : UInt32) : ChainingValue :=
  if 1 < chunks then
    let left := treeValue input first (leftChunks chunks) 0
    let right := treeValue input (first + leftChunks chunks) (chunks - leftChunks chunks) 0
    parentValue left right flags
  else chunkValue input first flags
termination_by chunks
decreasing_by
  · exact leftChunks_lt (by assumption)
  · have := leftChunks_pos chunks
    omega

def digestWords (input : ByteArray) : ChainingValue :=
  treeValue input 0 (max 1 ((input.size + 1023) / 1024)) rootNode

def hexByte (byte : Nat) : List Char :=
  [Nat.digitChar (byte / 16), Nat.digitChar (byte % 16)]

def hexDigest (input : ByteArray) : String :=
  String.ofList <| (digestWords input).toList.flatMap fun word =>
    [0, 8, 16, 24].flatMap fun shift => hexByte ((word.toNat >>> shift) % 256)

end IncludeGraph.Blake3
