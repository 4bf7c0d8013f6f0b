import LSMEngine.Common.Search
import LSMEngine.Format.Model.Options
/-!
# Format — data blocks

The builder, the decoder and the cursor of `sstable/format/block.go`. An
entry is stored without the bytes its key shares with the key before it,
except at the restart points, whose offsets end the block. A lookup
searches the keys at the restart points and scans from the last one that
is not behind the key up to the next restart point; a seek scans on to
the end of the block.

The scans stop with the data, so their loops are given its length as
fuel.
-/

namespace LSMEngine.Format

abbrev entryHeaderSize : ℕ := 21
abbrev blockOffsetSize : ℕ := 4
abbrev blockCountSize : ℕ := 4

/-! ## The builder -/

/-- `Builder`. -/
structure Builder where
  buf : Bytes
  restartOffsets : List UInt32
  restartInterval : ℤ
  baseRestart : ℤ
  minRestart : ℤ
  maxRestart : ℤ
  adaptive : Bool
  entryCount : ℕ
  first : Bytes
  lastKey : Bytes
  sharedSum : ℕ
  keySum : ℕ
  deriving DecidableEq, Repr

/-- `NewBuilder`. -/
def newBuilder (restartInterval : ℤ) (adaptive : Bool) (minRestart maxRestart : ℤ) : Builder :=
  let r := if restartInterval ≤ 0 then 16 else restartInterval
  let lo := if minRestart ≤ 0 then r else minRestart
  let hi := if maxRestart ≤ 0 then r else maxRestart
  let lo := if hi < lo then hi else lo
  let r := if r < lo then lo else r
  let r := if hi < r then hi else r
  { buf := [], restartOffsets := [], restartInterval := r, baseRestart := r, minRestart := lo
    maxRestart := hi, adaptive := adaptive, entryCount := 0, first := [], lastKey := []
    sharedSum := 0, keySum := 0 }

/-- `commonPrefixLen`. -/
def commonPrefixLen : Bytes → Bytes → ℕ
  | a :: as, b :: bs => if a = b then commonPrefixLen as bs + 1 else 0
  | [], _ => 0
  | _ :: _, [] => 0

/-- What `nextEntrySizing` returns. -/
structure Sizing where
  shared : ℕ
  unshared : ℕ
  restart : Bool
  deriving DecidableEq, Repr

/-- The header of an entry: the lengths, the sequence and the flags. -/
def entryHeader (shared unshared : ℕ) (e : Entry) : Bytes :=
  leBytes 4 shared ++ (leBytes 4 unshared ++ (leBytes 4 e.value.length ++
    (leBytes 8 e.seq.toNat ++ [if e.tombstone then 1 else 0])))

/-- `appendEntry`. -/
def appendEntry (dst : Bytes) (shared unshared : ℕ) (e : Entry) : Bytes :=
  dst ++ (entryHeader shared unshared e ++ (e.key.drop shared ++ e.value))

/-- `entryEncodedSize`. -/
def entryEncodedSize (unshared valLen : ℕ) : ℕ := entryHeaderSize + unshared + valLen

namespace Builder

/-- The interval `nextEntrySizing` goes by. -/
def interval (b : Builder) : ℤ := if b.restartInterval ≤ 0 then 16 else b.restartInterval

/-- `nextEntrySizing`. -/
def nextEntrySizing (b : Builder) (e : Entry) : Sizing :=
  let restart : Bool := b.entryCount % b.interval = 0
  let shared := if !restart && 0 < b.lastKey.length then commonPrefixLen b.lastKey e.key else 0
  let shared := if e.key.length < shared then e.key.length else shared
  ⟨shared, e.key.length - shared, restart⟩

/-- `int(ratio*float64(span))`, of the ratio of two sums. -/
def adapted (sharedSum keySum : ℕ) (span : ℤ) : ℤ :=
  truncate (float64 (float64 (float64 sharedSum / float64 keySum) * float64 span))

/-- `adaptRestartInterval`. -/
def adaptRestartInterval (b : Builder) : Builder :=
  if b.keySum = 0 ∨ b.maxRestart = b.minRestart then { b with sharedSum := 0, keySum := 0 }
  else
    let target := b.minRestart + adapted b.sharedSum b.keySum (b.maxRestart - b.minRestart)
    let target := if target < b.minRestart then b.minRestart else target
    let target := if b.maxRestart < target then b.maxRestart else target
    { b with restartInterval := target, sharedSum := 0, keySum := 0 }

/-- `Add`, up to the change of the interval. -/
def push (b : Builder) (e : Entry) : Builder :=
  let s := b.nextEntrySizing e
  { b with
    restartInterval := b.interval
    first := if b.first = [] then e.key else b.first
    restartOffsets :=
      if s.restart then b.restartOffsets ++ [UInt32.ofNat b.buf.length] else b.restartOffsets
    buf := appendEntry b.buf s.shared s.unshared e
    lastKey := e.key
    entryCount := b.entryCount + 1
    sharedSum := b.sharedSum + s.shared
    keySum := b.keySum + (s.shared + s.unshared) }

/-- `Add`. -/
def add (b : Builder) (e : Entry) : Builder :=
  if (b.push e).adaptive ∧ (b.push e).entryCount % (b.push e).restartInterval = 0 then
    (b.push e).adaptRestartInterval
  else b.push e

/-- `Reset`. -/
def reset (b : Builder) : Builder :=
  { b with
    buf := [], restartOffsets := [], entryCount := 0, first := [], lastKey := []
    sharedSum := 0, keySum := 0, restartInterval := b.baseRestart }

/-- `SizeBytes`. -/
def sizeBytes (b : Builder) : ℕ :=
  if b.entryCount = 0 then 0
  else b.buf.length + b.restartOffsets.length * blockOffsetSize + blockCountSize

/-- `EstimatedSizeAfter`. -/
def estimatedSizeAfter (b : Builder) (e : Entry) : ℕ :=
  let s := b.nextEntrySizing e
  let restarts := if s.restart then b.restartOffsets.length + 1 else b.restartOffsets.length
  b.buf.length + entryEncodedSize s.unshared e.value.length + restarts * blockOffsetSize
    + blockCountSize

/-- `Finish`. -/
def finish (b : Builder) : Bytes :=
  b.buf ++ (b.restartOffsets.flatMap (fun off => leBytes 4 off.toNat) ++
    leBytes 4 b.restartOffsets.length)

end Builder

/-! ## The decoder -/

/-- `Block`. -/
structure Block where
  data : Bytes
  restarts : List UInt32
  restartKeys : List Bytes
  deriving DecidableEq, Repr

/-- The loop of `Decode` over the restart offsets. -/
def readRestarts (payload : Bytes) (dataLen : ℕ) : ℕ → ℕ → Except Fault (List UInt32)
  | 0, _ => .ok []
  | n + 1, pos => do
    let off ← uint32At payload pos
    -- `off >= uint32(len(data))`
    failIf (dataLen % 2 ^ 32 ≤ off.toNat) (.message "sstable: block restart offset out of range")
    let offs ← readRestarts payload dataLen n (pos + blockOffsetSize)
    return off :: offs

/-- The key at a restart point. -/
def restartKey (data : Bytes) (pos : ℕ) : Except Fault Bytes := do
  failIf (data.length - pos < entryHeaderSize) (.message "sstable: restart entry truncated")
  let shared ← uint32At data pos
  let unshared ← uint32At data (pos + 4)
  let valLen ← uint32At data (pos + 8)
  failIf (shared ≠ 0) (.message "sstable: restart entry has shared prefix")
  let keyStart := pos + entryHeaderSize
  let keyEnd := keyStart + unshared.toNat
  let valEnd := keyEnd + valLen.toNat
  failIf (data.length < valEnd) (.message "sstable: restart entry truncated")
  sub data keyStart keyEnd

/-- The loop of `Decode` over the restart points. -/
def readRestartKeys (data : Bytes) : List UInt32 → Except Fault (List Bytes)
  | [] => .ok []
  | off :: offs => do
    let key ← restartKey data off.toNat
    let keys ← readRestartKeys data offs
    return key :: keys

/-- `Decode`. -/
def decode (payload : Bytes) : Except Fault Block := do
  failIf (payload.length < blockCountSize) (.message "sstable: block too small")
  let count ← uint32At payload (payload.length - blockCountSize)
  let offsetsLen := count.toNat * blockOffsetSize
  failIf (payload.length < blockCountSize + offsetsLen)
    (.message "sstable: block restarts truncated")
  let offsetStart := payload.length - blockCountSize - offsetsLen
  let data ← sub payload 0 offsetStart
  failIf (count = 0 ∧ 0 < data.length) (.message "sstable: block missing restart points")
  let restarts ← readRestarts payload data.length count.toNat offsetStart
  let restartKeys ← readRestartKeys data restarts
  return ⟨data, restarts, restartKeys⟩

/-! ## The cursor -/

/-- `Cursor`, apart from the block it runs over. -/
structure Cursor where
  offset : ℕ
  limit : ℕ
  lastKey : Bytes
  deriving DecidableEq, Repr

/-- `NewCursor`. -/
def newCursor (blk : Block) (offset limit : ℕ) : Cursor :=
  let limit := if limit = 0 ∨ blk.data.length < limit then blk.data.length else limit
  ⟨if limit < offset then limit else offset, limit, []⟩

/-- `Next`: the entry at the offset and the cursor behind it. -/
def Cursor.next (data : Bytes) (c : Cursor) : Except Fault (Option (EntryView × Cursor)) :=
  if c.limit ≤ c.offset then .ok none else do
  failIf (c.limit - c.offset < entryHeaderSize) (.message "sstable: entry truncated")
  let shared ← uint32At data c.offset
  let unshared ← uint32At data (c.offset + 4)
  let valLen ← uint32At data (c.offset + 8)
  let seq ← uint64At data (c.offset + 12)
  let flags ← byteAt data (c.offset + 20)
  let keyStart := c.offset + entryHeaderSize
  let keyEnd := keyStart + unshared.toNat
  let valEnd := keyEnd + valLen.toNat
  failIf (c.limit < valEnd) (.message "sstable: entry truncated")
  failIf (c.lastKey.length < shared.toNat) (.message "sstable: entry shared prefix invalid")
  let suffix ← sub data keyStart keyEnd
  let value ← sub data keyEnd valEnd
  let key := c.lastKey.take shared.toNat ++ suffix
  return some (⟨key, value, flags &&& 1 = 1, seq⟩, ⟨valEnd, c.limit, key⟩)

namespace Block

/-- `DataLen`. -/
def dataLen (blk : Block) : ℕ := blk.data.length

/-- The last restart point whose key is not behind the key, and else the
first one. -/
def restartIndex (blk : Block) (key : Bytes) : ℕ :=
  search blk.restartKeys.length (fun i => (blk.restartKeys[i]?).any fun x => decide (key < x)) - 1

/-- `restarts[i]`. -/
def restartAt (blk : Block) (i : ℕ) : Except Fault ℕ :=
  match blk.restarts[i]? with
  | some off => .ok off.toNat
  | none => .error .panic

/-- The loop of `FindView`. -/
def findLoop (data key : Bytes) : ℕ → Cursor → Except Fault (Option EntryView)
  | 0, _ => .ok none
  | fuel + 1, c => do
    match ← c.next data with
    | none => return none
    | some (entry, c) =>
      if entry.key = key then return some entry
      else if key < entry.key then return none
      else findLoop data key fuel c

/-- Where the group behind a restart point ends. -/
def limitAfter (blk : Block) (i : ℕ) : Except Fault ℕ :=
  if i + 1 < blk.restarts.length then blk.restartAt (i + 1) else .ok blk.data.length

/-- `FindView`. -/
def findView (blk : Block) (key : Bytes) : Except Fault (Option EntryView) :=
  if blk.restarts = [] then .ok none else do
  let offset ← blk.restartAt (blk.restartIndex key)
  let limit ← blk.limitAfter (blk.restartIndex key)
  findLoop blk.data key blk.data.length (newCursor blk offset limit)

/-- The loop of `Seek`. -/
def seekLoop (data key : Bytes) : ℕ → Cursor → Except Fault (Option (Cursor × EntryView))
  | 0, _ => .ok none
  | fuel + 1, c => do
    match ← c.next data with
    | none => return none
    | some (entry, c) =>
      if key ≤ entry.key then return some (c, entry)
      else seekLoop data key fuel c

/-- `Seek`: the first entry that is not before the key, and the cursor
behind it. -/
def seek (blk : Block) (key : Bytes) : Except Fault (Option (Cursor × EntryView)) :=
  if blk.restarts = [] then .ok none else do
  let offset ← blk.restartAt (blk.restartIndex key)
  seekLoop blk.data key blk.data.length (newCursor blk offset blk.data.length)

end Block

end LSMEngine.Format
