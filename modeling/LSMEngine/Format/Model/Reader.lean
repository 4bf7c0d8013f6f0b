import LSMEngine.Common.Lru
import LSMEngine.Common.Programs
import LSMEngine.Format.Model.Writer
/-!
# Format — the reader

`LoadSSTable` and point lookups. Opening a file reads its footer,
metadata, index and filter. A lookup passes the key range, then the
filter, the index and the data block, each of which may have to be
fetched: through a cache, and from a source that may fail. `GetView`
takes a failure for a miss and can drop the table; `GetViewContext`
returns it.

The buffers of the source, the mapped file and the observers are left
out, and so is the registry of nodes, which only remembers descriptors.
-/

namespace LSMEngine.Format

/-! ## Reading blocks -/

/-- `BlockSource.Read`: the bytes at an offset. -/
abbrev Source := UInt64 → UInt32 → Except Fault Bytes

/-- The source over a file. -/
def fileSource (file : Bytes) : Source := fun offset length =>
  if length = 0 then .error .eof
  else if file.length < offset.toNat ∨ (file.length : ℤ) < int64 (offset.toNat + length.toNat) then
    .error .eof
  else
    match slice file offset.toNat (offset.toNat + length.toNat) with
    | some b => .ok b
    -- `ReadAt` at the end of the file
    | none => .error .eof

/-- The end of the file is a bad block of its kind. -/
def eofAs (errBad : Fault) (r : Except Fault Bytes) : Except Fault Bytes :=
  match r with
  | .error .eof => .error errBad
  | _ => r

/-- `ReadBlockPayload`. -/
def readBlockPayload (P : Platform) (src : Source) (offset : UInt64) (length : UInt32)
    (typ : BlockType) (errBad : Fault) : Except Fault Bytes := do
  let data ← eofAs errBad (src offset length)
  decodeBlockPayload P data typ errBad

/-- What `dataBlockNode.Fetch` reads. -/
def readDataBlock (P : Platform) (src : Source) (e : IndexEntry) : Except Fault Block := do
  decode (← readBlockPayload P src e.offset e.length .data .badBlock)

/-- What `indexBlockNode.Fetch` reads. -/
def readIndexBlock (P : Platform) (src : Source) (e : IndexEntry) :
    Except Fault (List IndexEntry) := do
  decodeIndex (← readBlockPayload P src e.offset e.length .index .badIndex)

/-- `bloom.Decode`, which has to succeed. -/
def decodeFilterBlock (payload : Bytes) : Except Fault Filter :=
  match decodeFilter payload with
  | some f => .ok f
  | none => .error .badMeta

/-- What `filterBlockNode.Fetch` reads. -/
def readFilterBlock (P : Platform) (src : Source) (e : IndexEntry) : Except Fault Filter := do
  decodeFilterBlock (← readBlockPayload P src e.offset e.length .filter .badMeta)

/-! ## Caches -/

/-- `BlockCache.Add`: a new block under a known key keeps the old size. -/
def addBlock (c : Lru UInt64 Block) (key : UInt64) (blk : Block) : Lru UInt64 Block :=
  match c.find key with
  | some s => c.toFront { s with value := blk }
  | none => c.push ⟨key, blk, blk.dataLen⟩

/-- `IndexCache.Add` and `FilterCache.Add`. -/
def addSized {α : Type} (size : α → ℤ) (c : Lru UInt64 α) (key : UInt64) (v : α) : Lru UInt64 α :=
  match c.find key with
  | some s =>
    Lru.evict { c.toFront ⟨key, v, size v⟩ with size := c.size - s.size + size v }
  | none => c.push ⟨key, v, size v⟩

/-- `indexEntriesSize`. -/
def indexEntriesSize (entries : List IndexEntry) : ℤ :=
  (entries.map fun e => ((indexHeaderSize + e.key.length : ℕ) : ℤ)).sum

/-- `IndexCache.Add`: the empty index that `DecodeIndex` returns is a nil
slice, which is not kept. (One that is not nil would be, with size 0.) -/
def addIndex (c : Lru UInt64 (List IndexEntry)) (key : UInt64) (v : List IndexEntry) :
    Lru UInt64 (List IndexEntry) :=
  if v = [] then c else addSized indexEntriesSize c key v

/-- `bloomFilterSize`. -/
def bloomFilterSize (f : Filter) : ℤ := f.bits.length

/-- `FilterCache.Add`. -/
def addFilter (c : Lru UInt64 Filter) (key : UInt64) (f : Filter) : Lru UInt64 Filter :=
  addSized bloomFilterSize c key f

/-- What changes in a reader: the caches, and whether the table was
dropped. -/
structure State where
  dropped : Bool
  blocks : Option (Lru UInt64 Block)
  indexes : Option (Lru UInt64 (List IndexEntry))
  filters : Option (Lru UInt64 Filter)

/-- A computation of the reader. -/
abbrev Read := Prog State Fault

/-- `dataBlockNode.Fetch`. -/
def fetchBlock (P : Platform) (src : Source) (e : IndexEntry) : Read Block :=
  .mk fun s =>
    let r := Lru.fetch s.blocks addBlock e.offset (readDataBlock P src e)
    (r.1, { s with blocks := r.2 })

/-- `indexBlockNode.Fetch`. -/
def fetchIndex (P : Platform) (src : Source) (e : IndexEntry) : Read (List IndexEntry) :=
  .mk fun s =>
    let r := Lru.fetch s.indexes addIndex e.offset (readIndexBlock P src e)
    (r.1, { s with indexes := r.2 })

/-- `filterBlockNode.Fetch`. -/
def fetchFilter (P : Platform) (src : Source) (e : IndexEntry) : Read Filter :=
  .mk fun s =>
    let r := Lru.fetch s.filters addFilter e.offset (readFilterBlock P src e)
    (r.1, { s with filters := r.2 })

/-! ## Opening a file -/

/-- `PrefetchBudget`. -/
structure PrefetchBudget where
  bytes : ℤ
  blocks : ℤ
  deriving DecidableEq, Repr

/-- What `openReader` finds and does not change again. -/
structure Reader where
  size : ℕ
  metadata : Meta
  top : List IndexEntry
  partitioned : Bool
  filter : Option Filter
  filterIndex : List IndexEntry
  filterPartitioned : Bool
  readBlockMaxBytes : ℤ
  corruptionPolicy : CorruptionPolicy
  prefetchBudget : Option PrefetchBudget
  prefetchAsync : Bool
  deriving DecidableEq, Repr

/-- `NewPrefetchBudget`; none either where `Prefetch` does nothing. -/
def newPrefetchBudget (policy : PolicySnapshot) : Option PrefetchBudget :=
  if !policy.usePrefetch then none
  else if 0 < policy.prefetchBudgetBytes then some ⟨policy.prefetchBudgetBytes, 0⟩
  else if 0 < policy.prefetchBudgetBlocks then some ⟨0, policy.prefetchBudgetBlocks⟩
  else none

/-- The whole filter of a file, or the index of its filters. -/
def openFilter (P : Platform) (src : Source) (m : Meta) (filterPartitioned : Bool) :
    Except Fault (Option Filter × List IndexEntry) := do
  if 0 < m.bloomLen ∧ 0 < m.bloomOffset then
    let payload ← readBlockPayload P src m.bloomOffset m.bloomLen .filter .badMeta
    if filterPartitioned then return (none, ← decodeIndex payload)
    else return (some (← decodeFilterBlock payload), [])
  else return (none, [])

/-- `openReader` with normalized options. -/
def openWith (P : Platform) (src : Source) (size : ℕ) (o : Options) :
    Except Fault (Reader × State) := do
  o.validate
  failIf (size < footerSizeBytes) .badFooter
  let ft ← decodeFooter (← src (UInt64.ofNat (size - footerSizeBytes))
    (UInt32.ofNat footerSizeBytes))
  let m ← decodeMeta (← readBlockPayload P src ft.metaOffset ft.metaLen .metadata .badMeta)
  let top ← decodeIndex (← readBlockPayload P src ft.indexOffset ft.indexLen .index .badIndex)
  let filterPartitioned : Bool := ft.flags &&& footerFlagFilterPartitioned ≠ 0
  let partitioned : Bool := ft.flags &&& footerFlagIndexPartitioned ≠ 0
  let (filter, filterIndex) ← openFilter P src m filterPartitioned
  return ({
    size := size
    metadata := m
    top := top
    partitioned := partitioned
    filter := filter
    filterIndex := filterIndex
    filterPartitioned := filterPartitioned
    readBlockMaxBytes := o.snapshot.readBlockMaxBytes
    corruptionPolicy := o.corruptionPolicy
    prefetchBudget := newPrefetchBudget o.snapshot
    prefetchAsync := o.snapshot.prefetchAsync }, {
    dropped := false
    blocks := Lru.new o.blockCacheBytes
    indexes := if partitioned then Lru.new o.indexCacheBytes else none
    filters := if filterPartitioned then Lru.new o.filterCacheBytes else none })

/-- `openReader`. -/
def openReader (P : Platform) (file : Bytes) (o : Options) : Except Fault (Reader × State) :=
  openWith P (fileSource file) file.length o.normalize

/-- A table as `Flush` returns it: the file, and the reader over it. -/
structure Table where
  file : Bytes
  reader : Reader
  state : State

/-- `Start`, with which `openReader` ends: the queue of a background
prefetch is made, with 96 bytes and 40 for each entry. -/
def start (o : Options) : Except Fault Unit :=
  let p := o.snapshot
  failIf (p.usePrefetch ∧ 0 < o.blockCacheBytes ∧ p.prefetchAsync ∧
    ¬ (0 ≤ p.prefetchQueueDepth ∧ 40 * p.prefetchQueueDepth + 96 ≤ 2 ^ 48)) .panic

/-- `Writer.Flush`, of a writer made with the options. -/
def flush (P : Platform) (o : Options) (entries : List Entry) : Except Fault Table := do
  o.normalize.validate
  let writes ← writeFile P o.normalize entries
  let (reader, state) ← openReader P writes.flatten o.normalize
  start o.normalize.normalize
  return ⟨writes.flatten, reader, state⟩

/-! ## Lookups -/

/-- The loop of `findBlock` over entries with the same key. -/
def stepBack (keys : List Bytes) (key : Bytes) : ℕ → ℕ
  | 0 => 0
  | i + 1 => if (keys[i]?).any fun x => decide (x = key) then stepBack keys key i else i + 1

/-- `findBlock`, which only looks at the keys of the entries; `none` is
-1. -/
def findKey (keys : List Bytes) (key : Bytes) : Option ℕ :=
  match keys.head? with
  | none => none
  | some first =>
    if key < first then none
    else
      let i := search keys.length fun i => (keys[i]?).any fun x => decide (key < x)
      if i = 0 then none
      else if (keys[i - 1]?).any fun x => decide (x = key) then some (stepBack keys key (i - 1))
      else some (i - 1)

/-- `findBlock`. -/
def findBlock (entries : List IndexEntry) (key : Bytes) : Option ℕ :=
  findKey (entries.map IndexEntry.key) key

/-- `entries[i]`. -/
def entryAt (entries : List IndexEntry) (i : ℕ) : Except Fault IndexEntry :=
  match entries[i]? with
  | some e => .ok e
  | none => .error .panic

namespace Reader

variable (P : Platform) (src : Source) (r : Reader)

/-- `filterNode.MayContain`. -/
def mayContain (key : Bytes) : Read Bool :=
  if r.filterPartitioned then
    match findBlock r.filterIndex key with
    | none => return true
    | some i => do
      let e ← Prog.lift (entryAt r.filterIndex i)
      let f ← fetchFilter P src e
      Prog.lift (f.mayContain key)
  else
    match r.filter with
    | none => return true
    | some f => Prog.lift (f.mayContain key)

/-- `indexNode.Find`. -/
def find (key : Bytes) : Read (Option IndexEntry) :=
  match findBlock r.top key with
  | none => return none
  | some i => do
    let e ← Prog.lift (entryAt r.top i)
    if r.partitioned then
      let part ← fetchIndex P src e
      match findBlock part key with
      | none => return none
      | some j => return some (← Prog.lift (entryAt part j))
    else return some e

/-- `dataNode.validateEntry`. -/
def validateEntry (e : IndexEntry) (errBad : Fault) : Except Fault Unit :=
  if e.length = 0 then .error errBad
  else if 0 < r.readBlockMaxBytes ∧ r.readBlockMaxBytes < e.length.toNat then .error errBad
  else if 0 < r.size ∧ (r.size : ℤ) < int64 (e.offset.toNat + e.length.toNat) then .error errBad
  else .ok ()

/-- `Pipeline.ReadBlockEntry`, and `dataNode.Process`. -/
def readBlockEntry (e : IndexEntry) : Read Block := do
  Prog.lift (r.validateEntry e .badBlock)
  fetchBlock P src e

/-- `Pipeline.Get`. -/
def pipelineGet (key : Bytes) : Read (Option EntryView) := do
  if ← r.mayContain P src key then
    match ← r.find P src key with
    | none => return none
    | some e =>
      let blk ← r.readBlockEntry P src e
      Prog.lift (blk.findView key)
  else return none

/-- Whether the key lies outside the key range of the file. -/
def isOutside (key : Bytes) : Bool :=
  (0 < r.metadata.minKey.length ∧ key < r.metadata.minKey) ∨
    (0 < r.metadata.maxKey.length ∧ r.metadata.maxKey < key)

/-- `GetViewContext`, under a context that may be cancelled. -/
def getViewContext (ctx : Option Fault) (key : Bytes) : Read (Option EntryView) :=
  match ctx with
  | some e => throw e
  | none => if r.isOutside key then return none else r.pipelineGet P src key

/-- Whether a fault ends the program. -/
def isPanic (f : Fault) : Bool := f = .panic

/-- `GetView`. -/
def getView (key : Bytes) : Read (Option EntryView) :=
  .mk fun s =>
    if s.dropped || r.isOutside key then (.ok none, s)
    else
      match (r.pipelineGet P src key).exec s with
      | (.error .panic, s) => (.error .panic, s)
      | (.error _, s) =>
        (.ok none, if r.corruptionPolicy = .dropTable then { s with dropped := true } else s)
      | (.ok v, s) => (.ok v, s)

/-- `Get`. -/
def get (key : Bytes) : Read (Option Entry) := do
  return (← r.getView P src key).map EntryView.entry

end Reader

end LSMEngine.Format
