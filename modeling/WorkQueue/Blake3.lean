import WorkQueue.Bytes.Basic

/-!
# The BLAKE3 hash

The input is cut into chunks of 1024 bytes and those into blocks of 64 bytes. `compress` mixes a
block into a chaining value of eight words. The chaining values of the chunks are joined in pairs,
left to right, into a binary tree whose left subtrees are full; `hash` is the chaining value of its
root, which alone is compressed with the flag `root`.

A state of sixteen words is four rows of four words, so the four columns, and after a turn of the
rows the four diagonals, are mixed by the same operations on rows.
-/

namespace WorkQueue.Blake3

/-- Four words that are worked on side by side. -/
structure Row where
  a : UInt32
  b : UInt32
  c : UInt32
  d : UInt32
deriving DecidableEq, Repr

namespace Row

/-- The operation on each of the four words. -/
def map (f : UInt32 → UInt32) (x : Row) : Row := ⟨f x.a, f x.b, f x.c, f x.d⟩

/-- The operation on each pair of words at one place. -/
def zip (f : UInt32 → UInt32 → UInt32) (x y : Row) : Row :=
  ⟨f x.a y.a, f x.b y.b, f x.c y.c, f x.d y.d⟩

instance : Add Row := ⟨zip (· + ·)⟩

instance : XorOp Row := ⟨zip (· ^^^ ·)⟩

/-- Every word turned right by `n` bits. -/
def turnBits (x : Row) (n : UInt32) : Row := x.map fun w => (w >>> n) ||| (w <<< (32 - n))

/-- The words moved one place to the left, the first to the end. -/
def turn (x : Row) : Row := ⟨x.b, x.c, x.d, x.a⟩

/-- The bytes of the four words, low byte first. -/
def toBytes (x : Row) : Bytes :=
  [x.a, x.b, x.c, x.d].flatMap fun (w : UInt32) =>
    [w.toUInt8, (w >>> 8).toUInt8, (w >>> 16).toUInt8, (w >>> 24).toUInt8]

end Row

/-- A state of sixteen words. -/
structure Grid where
  r0 : Row
  r1 : Row
  r2 : Row
  r3 : Row
deriving DecidableEq, Repr

namespace Grid

/-- Mixes the four columns, each with one word of `x` and one of `y`. -/
def mix (s : Grid) (x y : Row) : Grid :=
  let a := s.r0 + s.r1 + x
  let d := (s.r3 ^^^ a).turnBits 16
  let c := s.r2 + d
  let b := (s.r1 ^^^ c).turnBits 12
  let a := a + b + y
  let d := (d ^^^ a).turnBits 8
  let c := c + d
  ⟨a, (b ^^^ c).turnBits 7, c, d⟩

/-- Brings each diagonal into a column. -/
def diagonals (s : Grid) : Grid := ⟨s.r0, s.r1.turn, s.r2.turn.turn, s.r3.turn.turn.turn⟩

/-- Brings each column back to its diagonal. -/
def columns (s : Grid) : Grid := ⟨s.r0, s.r1.turn.turn.turn, s.r2.turn.turn, s.r3.turn⟩

end Grid

/-- The words of a block, four bytes each, low byte first. -/
def words : Bytes → List UInt32
  | a :: b :: c :: d :: rest =>
    (a.toUInt32 ||| b.toUInt32 <<< 8 ||| c.toUInt32 <<< 16 ||| d.toUInt32 <<< 24) :: words rest
  | _ => []

/-- One round: the columns are mixed with the first eight message words, the diagonals with the
other eight. -/
def round (s : Grid) (m : List UInt32) : Grid :=
  let word i := m.getD i 0
  let s := s.mix ⟨word 0, word 2, word 4, word 6⟩ ⟨word 1, word 3, word 5, word 7⟩
  (s.diagonals.mix ⟨word 8, word 10, word 12, word 14⟩
    ⟨word 9, word 11, word 13, word 15⟩).columns

/-- The order in which the next round takes the message words. -/
def schedule : List Nat := [2, 6, 3, 10, 7, 0, 4, 13, 1, 11, 12, 5, 9, 14, 15, 8]

/-- The given number of rounds, the message words rearranged between two of them. -/
def rounds : Nat → Grid → List UInt32 → Grid
  | 0, s, _ => s
  | n + 1, s, m => rounds n (round s m) (schedule.map fun i => m.getD i 0)

/-- A chaining value of eight words. -/
structure Chain where
  low : Row
  high : Row
deriving DecidableEq, Repr

namespace Chain

/-- The 32 bytes of a chaining value. -/
def toBytes (cv : Chain) : Bytes := cv.low.toBytes ++ cv.high.toBytes

@[simp] theorem length_toBytes (cv : Chain) : cv.toBytes.length = 32 := rfl

end Chain

/-- The chaining value that every chunk and every join starts from. -/
def start : Chain :=
  ⟨⟨0x6a09e667, 0xbb67ae85, 0x3c6ef372, 0xa54ff53a⟩,
    ⟨0x510e527f, 0x9b05688c, 0x1f83d9ab, 0x5be0cd19⟩⟩

/-! ## Flags of a compression -/

/-- The block is the first of its chunk. -/
def chunkStart : UInt32 := 1

/-- The block is the last of its chunk. -/
def chunkEnd : UInt32 := 2

/-- The block holds two chaining values to be joined. -/
def join : UInt32 := 4

/-- The compression gives the hash. -/
def root : UInt32 := 8

/-- A compression that has not been carried out yet, so that `root` can still be set. -/
structure Node where
  chain : Chain
  block : List UInt32
  counter : UInt64
  size : UInt32
  flags : UInt32

/-- Seven rounds, and then the two halves of the state are added. -/
def Node.compress (n : Node) : Chain :=
  let s := rounds 7
    ⟨n.chain.low, n.chain.high, start.low,
      ⟨n.counter.toUInt32, (n.counter >>> 32).toUInt32, n.size, n.flags⟩⟩ n.block
  ⟨s.r0 ^^^ s.r2, s.r1 ^^^ s.r3⟩

/-- The compression of a block, filled up with zero bytes, after the chaining value `chain`. -/
def blockNode (chain : Chain) (counter : Nat) (flags : UInt32) (block : Bytes) : Node where
  chain := chain
  block := words (block ++ List.replicate (64 - block.length) 0)
  counter := UInt64.ofNat counter
  size := UInt32.ofNat block.length
  flags := flags

/-- The last compression of a chunk; `flags` are those of its first block. -/
def chunkNode (counter : Nat) (chain : Chain) (flags : UInt32) : List Bytes → Node
  | [] => blockNode chain counter (flags ||| chunkEnd) []
  | [block] => blockNode chain counter (flags ||| chunkEnd) block
  | block :: rest =>
    chunkNode counter (blockNode chain counter flags block).compress 0 rest

/-- The last compression of the chunk with the given number. -/
def chunk (counter : Nat) (bytes : Bytes) : Node :=
  chunkNode counter start chunkStart (pieces 64 16 bytes)

/-- The compression that joins two subtrees. -/
def joinNode (left right : Chain) : Node where
  chain := start
  block := words (left.toBytes ++ right.toBytes)
  counter := 0
  size := 64
  flags := join

/-- Adds a finished chunk, the `count`-th, to the full subtrees on its left (nearest first): two
subtrees of one size are joined, as often as two divides `count`. -/
def grow : List Chain → Chain → Nat → List Chain
  | [], cv, _ => [cv]
  | left :: rest, cv, count =>
    if count % 2 = 0 then grow rest (joinNode left cv).compress (count / 2)
    else cv :: left :: rest

/-- The root of the tree over the subtrees on the left, the chunk `last` and nothing else. -/
def close (lefts : List Chain) (last : Node) : Node :=
  lefts.foldl (fun node left => joinNode left node.compress) last

/-- The root of the tree over the chunks from number `counter` on. -/
def tree (counter : Nat) (lefts : List Chain) : List Bytes → Node
  | [] => close lefts (chunk counter [])
  | [last] => close lefts (chunk counter last)
  | next :: rest =>
    tree (counter + 1) (grow lefts (chunk counter next).compress (counter + 1)) rest

/-- The hash of a byte string, 32 bytes. -/
def hash (bytes : Bytes) : Bytes :=
  let node := tree 0 [] (pieces 1024 (bytes.length / 1024 + 1) bytes)
  { node with flags := node.flags ||| root }.compress.toBytes

@[simp] theorem length_hash (bytes : Bytes) : (hash bytes).length = 32 :=
  Chain.length_toBytes _

end WorkQueue.Blake3
