import RemoteMenu.Bytes.Order

/-!
# BLAKE3

The unkeyed hash of 32 bytes. A text is cut into chunks of 1024 bytes, each chunk into blocks of 64;
the chunks' chaining values are joined in a binary tree whose left side is a full one.
-/

namespace RemoteMenu.Blake3

/-- Eight words that carry the state from one block to the next. -/
abbrev Chain := Vector UInt32 8

/-- A block, or the state of a compression. -/
abbrev Words := Vector UInt32 16

def initialChain : Chain :=
  #v[0x6A09E667, 0xBB67AE85, 0x3C6EF372, 0xA54FF53A, 0x510E527F, 0x9B05688C, 0x1F83D9AB, 0x5BE0CD19]

/-- The order in which a round takes the words of the round before. -/
def schedule : Vector (Fin 16) 16 :=
  #v[2, 6, 3, 10, 7, 0, 4, 13, 1, 11, 12, 5, 9, 14, 15, 8]

namespace Flag

def chunkStart : UInt32 := 1
def chunkEnd : UInt32 := 2
def parent : UInt32 := 4
def root : UInt32 := 8

end Flag

def chunkSize : Nat := 1024

def blockSize : Nat := 64

/-! ### Compression -/

def rotateRight (w n : UInt32) : UInt32 := (w >>> n) ||| (w <<< (32 - n))

/-- Mixes two words of the block into four of the state. -/
def mix (v : Words) (a b c d : Fin 16) (x y : UInt32) : Words :=
  let va := v[a] + v[b] + x
  let vd := rotateRight (v[d] ^^^ va) 16
  let vc := v[c] + vd
  let vb := rotateRight (v[b] ^^^ vc) 12
  let va := va + vb + y
  let vd := rotateRight (vd ^^^ va) 8
  let vc := vc + vd
  let vb := rotateRight (vb ^^^ vc) 7
  (((v.set a va).set b vb).set c vc).set d vd

/-- Mixes a block into the state: its columns, then its diagonals. -/
def mixRound (v m : Words) : Words :=
  let v := mix v 0 4 8 12 m[0] m[1]
  let v := mix v 1 5 9 13 m[2] m[3]
  let v := mix v 2 6 10 14 m[4] m[5]
  let v := mix v 3 7 11 15 m[6] m[7]
  let v := mix v 0 5 10 15 m[8] m[9]
  let v := mix v 1 6 11 12 m[10] m[11]
  let v := mix v 2 7 8 13 m[12] m[13]
  mix v 3 4 9 14 m[14] m[15]

/-- Several rounds, the block's words taken in a new order after each. -/
def mixRounds : Nat → Words → Words → Words
  | 0, v, _ => v
  | n + 1, v, m => mixRounds n (mixRound v m) (schedule.map fun i => m[i])

/-- The input of a compression. -/
structure Node where
  chain : Chain
  block : Words
  counter : UInt64
  /-- How many bytes of the block count. -/
  length : UInt32
  flags : UInt32

def Node.value (n : Node) : Chain :=
  let h := n.chain
  let v := mixRounds 7
    #v[h[0], h[1], h[2], h[3], h[4], h[5], h[6], h[7],
      initialChain[0], initialChain[1], initialChain[2], initialChain[3],
      n.counter.toUInt32, (n.counter >>> 32).toUInt32, n.length, n.flags]
    n.block
  #v[v[0] ^^^ v[8], v[1] ^^^ v[9], v[2] ^^^ v[10], v[3] ^^^ v[11],
    v[4] ^^^ v[12], v[5] ^^^ v[13], v[6] ^^^ v[14], v[7] ^^^ v[15]]

def parentNode (left right : Chain) : Node where
  chain := initialChain
  block := left ++ right
  counter := 0
  length := 64
  flags := Flag.parent

/-! ### Blocks and chunks -/

/-- A list cut into pieces of `size`; the last one may be shorter. An empty list has no piece. -/
def pieces {α} (size : Nat) (xs : List α) : List (List α) :=
  match xs with
  | [] => []
  | x :: xs => (x :: xs.take (size - 1)) :: pieces size (xs.drop (size - 1))
termination_by xs.length
decreasing_by simp only [List.length_drop, List.length_cons]; omega

/-- The words of a block, lowest byte first, filled up with zeros. -/
def blockWords (bytes : List UInt8) : Words :=
  let words := (pieces 4 bytes).map fun b => UInt32.ofNat (ofLittleEndian b)
  .ofFn fun i => words.getD i 0

/-- The last node of a chunk, from its blocks; `flags` are those of the block next. -/
def chunkNode (counter : UInt64) (chain : Chain) (flags : UInt32) : List (List UInt8) → Node
  | [] => ⟨chain, blockWords [], counter, 0, flags ||| Flag.chunkEnd⟩
  | [b] => ⟨chain, blockWords b, counter, b.length.toUInt32, flags ||| Flag.chunkEnd⟩
  | b :: bs =>
    let node : Node := ⟨chain, blockWords b, counter, b.length.toUInt32, flags⟩
    chunkNode counter node.value 0 bs

def chunk (number : Nat) (bytes : List UInt8) : Node :=
  chunkNode number.toUInt64 initialChain Flag.chunkStart (pieces blockSize bytes)

/-! ### The tree of chunks -/

/-- The largest power of two below `n`, for `n` of two or more. -/
def leftSize (n : Nat) : Nat := 1 <<< Nat.log2 (n - 1)

theorem leftSize_pos (n : Nat) : 0 < leftSize n := by
  rw [leftSize, Nat.one_shiftLeft]
  exact Nat.two_pow_pos _

theorem leftSize_lt {n : Nat} (h : 2 ≤ n) : leftSize n < n := by
  have := Nat.log2_self_le (n := n - 1) (by omega)
  rw [leftSize, Nat.one_shiftLeft]
  omega

def tree (first : Nat) (chunks : List (List UInt8)) : Node :=
  if h : 2 ≤ chunks.length then
    let left := leftSize chunks.length
    have := leftSize_lt h
    have := leftSize_pos chunks.length
    parentNode (tree first (chunks.take left)).value
      (tree (first + left) (chunks.drop left)).value
  else chunk first (chunks.headD [])
termination_by chunks.length
decreasing_by all_goals simp only [List.length_take, List.length_drop]; omega

def hash (bytes : List UInt8) : List UInt8 :=
  let top := tree 0 (pieces chunkSize bytes)
  let root : Node := { top with flags := top.flags ||| Flag.root }
  root.value.toList.flatMap fun w => littleEndian 4 w.toNat

end RemoteMenu.Blake3
