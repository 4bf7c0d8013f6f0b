import LSMEngine.Types
/-!
# Memory — the arena

`arena.Arena`, a bump allocator over blocks of one size; an allocation
that is larger than a block gets a block of its own. A block is the place
of its bytes in `heap`, which only grows, so that a block that was given
up is not confused with a later one.

Whether there is memory for a block is left to the call. Without it the
call panics before it has changed anything. The counters count memory
that is held and are integers; only the sum that is compared with the
hard limit is taken in 64 bits, since the length asked for may be any.
-/

namespace LSMEngine.Memory

/-- `arena.Options`. -/
structure Options where
  blockSize : ℤ
  hardLimitBytes : ℤ
  deriving DecidableEq, Repr

/-- What is handed out: a part of a block. -/
structure Slice where
  block : ℕ
  off : ℕ
  len : ℕ
  deriving DecidableEq, Repr

/-- `arena.Arena`. -/
structure Arena where
  opt : Options
  /-- The bytes of every block there ever was. -/
  heap : List Bytes
  blocks : List ℕ
  cur : Option ℕ
  off : ℕ
  usedBytes : ℤ
  reservedBytes : ℤ
  hardDenied : ℤ
  deriving DecidableEq, Repr

/-- `NewArenaWithOptions`. -/
def newArena (opt : Options) : Arena where
  opt := { opt with blockSize := if opt.blockSize ≤ 0 then 256 * 1024 else opt.blockSize }
  heap := []
  blocks := []
  cur := none
  off := 0
  usedBytes := 0
  reservedBytes := 0
  hardDenied := 0

/-- `copy(b[off:], src)`. -/
def overwrite (b : Bytes) (off : ℕ) (src : Bytes) : Bytes :=
  b.take off ++ (src ++ b.drop (off + src.length))

namespace Arena

/-- The bytes of a block. -/
def bytes (a : Arena) (block : ℕ) : Bytes := (a.heap[block]?).getD []

/-- `len(block)`. -/
def size (a : Arena) (block : ℕ) : ℕ := (a.bytes block).length

/-- The bytes of a slice. -/
def read (a : Arena) (s : Slice) : Bytes := ((a.bytes s.block).drop s.off).take s.len

/-- `make([]byte, n)`, and the block is held. -/
def hold (a : Arena) (n : ℕ) : Arena :=
  { a with
    heap := a.heap ++ [List.replicate n 0]
    blocks := a.blocks ++ [a.heap.length]
    reservedBytes := a.reservedBytes + n }

/-- There is no current block, or it has no room. -/
def isFull (a : Arena) (n : ℕ) : Bool := a.cur.all fun block => a.size block < a.off + n

/-- The next `n` bytes of the current block. -/
def bump (a : Arena) (block n : ℕ) : Slice × Arena :=
  (⟨block, a.off, n⟩,
    { a with cur := some block, off := a.off + n, usedBytes := a.usedBytes + n })

/-- `Alloc`: a slice or nil. Without room for a block it panics. -/
def alloc (a : Arena) (n : ℤ) (room : Bool) : Option (Option Slice × Arena) :=
  if n ≤ 0 then some (none, a)
  else if 0 < a.opt.hardLimitBytes ∧
      a.opt.hardLimitBytes < Int.bmod (a.usedBytes + n) (2 ^ 64) then
    some (none, { a with hardDenied := a.hardDenied + 1 })
  else if a.opt.blockSize < n then
    if room then
      some (some ⟨a.heap.length, 0, n.toNat⟩,
        { a.hold n.toNat with usedBytes := a.usedBytes + n })
    else none
  else if a.isFull n.toNat then
    if room then
      let b := { a.hold a.opt.blockSize.toNat with off := 0 }
      some (Prod.map some id (b.bump a.heap.length n.toNat))
    else none
  else a.cur.map fun block => Prod.map some id (a.bump block n.toNat)

/-- The bytes are copied into a slice. -/
def fill (a : Arena) (s : Slice) (src : Bytes) : Arena :=
  { a with heap := a.heap.modify s.block fun b => overwrite b s.off src }

/-- `AllocCopy`. -/
def allocCopy (a : Arena) (src : Bytes) (room : Bool) : Option (Option Slice × Arena) :=
  if src.length = 0 then some (none, a)
  else (a.alloc src.length room).map fun (dst, b) => (dst, dst.elim b fun s => b.fill s src)

/-- `Reset`: the first block of the usual size is kept. -/
def reset (a : Arena) : Arena :=
  let keep := a.blocks.find? fun block => (a.size block : ℤ) = a.opt.blockSize
  { a with
    blocks := keep.toList
    cur := keep
    reservedBytes := (keep.map a.size).getD 0
    off := 0
    usedBytes := 0
    hardDenied := 0 }

end Arena

/-! ## An arena in use -/

/-- A call. -/
inductive Call
  | alloc (n : ℤ) (room : Bool)
  | allocCopy (src : Bytes) (room : Bool)
  | reset
  deriving DecidableEq, Repr

/-- An arena, what it has handed out since the last `Reset`, and what was
copied there. -/
structure Use where
  arena : Arena
  handed : List Slice
  copies : List (Slice × Bytes)

/-- One call. A call that panics leaves the arena as it is. -/
def Use.step (u : Use) : Call → Use
  | .alloc n room =>
    match u.arena.alloc n room with
    | some (dst, a) => { u with arena := a, handed := u.handed ++ dst.toList }
    | none => u
  | .allocCopy src room =>
    match u.arena.allocCopy src room with
    | some (dst, a) =>
      { arena := a
        handed := u.handed ++ dst.toList
        copies := u.copies ++ dst.toList.map fun s => (s, src) }
    | none => u
  | .reset => ⟨u.arena.reset, [], []⟩

/-- Some calls, from a new arena on. -/
def Use.run (opt : Options) (calls : List Call) : Use :=
  calls.foldl Use.step ⟨newArena opt, [], []⟩

end LSMEngine.Memory
