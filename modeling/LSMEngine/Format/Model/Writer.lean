import LSMEngine.Common.Lists
import LSMEngine.Format.Model.Block
import LSMEngine.Format.Model.Bloom
import LSMEngine.Format.Model.Frame
import LSMEngine.Tables.Model.SSTable
/-!
# Format — the writer

The file `Writer.Flush` writes: the entries in table order cut into data
blocks, then the filter (whole, or one for each index partition), the
index partitions, the index, the index of the filters, the metadata and
the footer. A block is cut before an entry that would take it over the
target size and after one that takes it to the maximum.

The file is the list of the writes: one for each block, and the footer.
The offsets the source counts are the lengths written so far. Every write
succeeds; the temporary file, its rename and the syncs are left out.
`sort.Slice` leaves the order of entries of equal rank open; the model
keeps the given one.
-/

namespace LSMEngine.Format

/-- The offset behind some writes. -/
def offsetOf (writes : List Bytes) : UInt64 := UInt64.ofNat writes.flatten.length

/-- A file as far as it is written, and the index of its blocks. -/
structure Listing where
  writes : List Bytes
  index : List IndexEntry
  deriving DecidableEq, Repr

/-- A block at the end of the file, and its entry in the index. -/
def Listing.write (w : Listing) (key block : Bytes) : Listing where
  writes := w.writes ++ [block]
  index := w.index ++ [⟨key, offsetOf w.writes, UInt32.ofNat block.length⟩]

/-- The variables of the loop of `Flush`. -/
structure Output where
  listing : Listing
  builder : Builder
  blockEntryCounts : List ℕ
  deriving DecidableEq, Repr

/-- `flushBlock`. -/
def flushBlock (P : Platform) (o : Options) (w : Output) : Except Fault Output := do
  let (compressed, uncompressedLen) ← compressPayload P w.builder.finish o.compression
  let block := encodeBlock compressed .data o.compression uncompressedLen
  return {
    listing :=
      if 0 < w.builder.first.length then w.listing.write w.builder.first block
      else { w.listing with writes := w.listing.writes ++ [block] }
    builder := w.builder.reset
    blockEntryCounts := w.blockEntryCounts ++ [w.builder.entryCount] }

/-- The block so far is flushed where the entry would take it over the
target. -/
def flushBefore (P : Platform) (o : Options) (w : Output) (e : Entry) : Except Fault Output :=
  if 0 < w.builder.sizeBytes ∧ o.blockTargetBytes < w.builder.estimatedSizeAfter e then
    flushBlock P o w
  else .ok w

/-- `builder.Add`. -/
def Output.add (w : Output) (e : Entry) : Output :=
  { w with builder := w.builder.add e }

/-- The body of the loop of `Flush`. -/
def addEntry (P : Platform) (o : Options) (w : Output) (e : Entry) : Except Fault Output := do
  let w ← flushBefore P o w e
  if w.builder.sizeBytes = 0 ∧ o.blockMaxBytes < w.builder.estimatedSizeAfter e then
    flushBlock P o (w.add e)
  else if o.blockMaxBytes ≤ (w.add e).builder.sizeBytes then flushBlock P o (w.add e)
  else return w.add e

/-- The loop. -/
def addEntries (P : Platform) (o : Options) : Output → List Entry → Except Fault Output
  | w, [] => .ok w
  | w, e :: es => do addEntries P o (← addEntry P o w e) es

/-- The start of the loop. -/
def newOutput (o : Options) : Output where
  listing := ⟨[], []⟩
  builder := newBuilder o.restartInterval o.restartIntervalAdaptive o.restartIntervalMin
    o.restartIntervalMax
  blockEntryCounts := []

/-- The data blocks of a file. -/
def writeBlocks (P : Platform) (o : Options) (entries : List Entry) : Except Fault Output := do
  let w ← addEntries P o (newOutput o) entries
  if 0 < w.builder.sizeBytes then flushBlock P o w else return w

/-- A block that is not compressed. -/
def plainBlock (payload : Bytes) (typ : BlockType) : Bytes :=
  encodeBlock payload typ .none (UInt32.ofNat payload.length)

/-! ## Filters -/

/-- `NewFilter` and the `Add` of the keys. -/
def filterOf (o : Options) (entries : List Entry) :
    Except Fault (Option Filter) := do
  match ← newFilter entries.length o.bloomBitsPerKey with
  | none => return none
  | some f => return some (← f.addAll (entries.map Entry.key))

/-- `Encode` of a filter that may be missing. -/
def encodeFilter (f : Option Filter) : Bytes :=
  match f with
  | none => []
  | some f => f.encode

/-- The loop of `WritePartitionedBloomFilters`: the counts of the blocks
still to come, by partition, and their entries. -/
def writeFilterPartitions (o : Options) (blocks : List IndexEntry) :
    ℕ → List (List ℕ) → List Entry → Listing → Except Fault Listing
  | _, [], _, w => .ok w
  | i, counts :: rest, entries, w => do
    let filter ← filterOf o (entries.take counts.sum)
    let block := plainBlock (encodeFilter filter) .filter
    match blocks[i]? with
    | none => throw .panic
    | some b =>
      writeFilterPartitions o blocks (i + counts.length) rest (entries.drop counts.sum)
        (w.write b.key block)

/-! ## The file -/

/-- What comes after the data blocks, as far as the footer needs it. -/
structure Tail where
  writes : List Bytes
  bloomOffset : UInt64
  bloomLen : UInt32
  filterIndex : List IndexEntry
  deriving DecidableEq, Repr

/-- `IndexPartitionEntries > 0 && len(indexEntries) > IndexPartitionEntries`. -/
def isPartitioned (o : Options) (index : List IndexEntry) : Bool :=
  0 < o.indexPartitionEntries ∧ o.indexPartitionEntries < index.length

/-- The filter, whole or in partitions. -/
def writeFilter (o : Options) (entries : List Entry) (w : Output)
    (filter : Option Filter) : Except Fault Tail := do
  match filter with
  | none => return ⟨w.listing.writes, 0, 0, []⟩
  | some f =>
    if isPartitioned o w.listing.index ∧ o.filterPartitioned then
      let l ← writeFilterPartitions o w.listing.index 0
        (chunks o.indexPartitionEntries.toNat w.blockEntryCounts) entries
        { w.listing with index := [] }
      return ⟨l.writes, 0, 0, l.index⟩
    else
      let block := plainBlock f.encode .filter
      return ⟨w.listing.writes ++ [block], offsetOf w.listing.writes,
        UInt32.ofNat block.length, []⟩

/-- One partition of the index. -/
def writeIndexPartition (w : Listing) (part : List IndexEntry) : Listing :=
  w.write ((part.head?.map IndexEntry.key).getD []) (plainBlock (encodeIndex part) .index)

/-- The index in partitions. -/
def writeIndexPartitions (o : Options) (index : List IndexEntry) (writes : List Bytes) : Listing :=
  (chunks o.indexPartitionEntries.toNat index).foldl writeIndexPartition ⟨writes, []⟩

/-- The file and the index at the top. -/
def writeIndex (o : Options) (index : List IndexEntry) (writes : List Bytes) : Listing :=
  if isPartitioned o index then writeIndexPartitions o index writes else ⟨writes, index⟩

/-- `seqMin` after the loop. -/
def seqMin (first : Entry) (entries : List Entry) : UInt64 :=
  entries.foldl (fun m e => if e.seq < m then e.seq else m) first.seq

/-- `seqMax` after the loop. -/
def seqMax (last : Entry) (entries : List Entry) : UInt64 :=
  entries.foldl (fun m e => if m < e.seq then e.seq else m) last.seq

/-- The flags of the footer. -/
def footerFlags (indexPartitioned filterPartitioned : Bool) : UInt8 :=
  (if indexPartitioned then footerFlagIndexPartitioned else 0) |||
    (if filterPartitioned then footerFlagFilterPartitioned else 0)

/-- The index of the filters, where there is one. -/
def writeFilterIndex (filterPartitioned : Bool) (t : Tail) (writes : List Bytes) : Tail :=
  if filterPartitioned ∧ 0 < t.filterIndex.length then
    let block := plainBlock (encodeIndex t.filterIndex) .filter
    { t with
      writes := writes ++ [block]
      bloomOffset := offsetOf writes
      bloomLen := UInt32.ofNat block.length }
  else { t with writes := writes }

/-- What `Flush` writes of sorted entries. -/
def writeSorted (P : Platform) (o : Options) (first last : Entry) (entries : List Entry) :
    Except Fault (List Bytes) := do
  let filter ← filterOf o entries
  let w ← writeBlocks P o entries
  let partitioned := isPartitioned o w.listing.index
  let filterPartitioned := partitioned && filter.isSome && o.filterPartitioned
  let t ← writeFilter o entries w filter
  let l := writeIndex o w.listing.index t.writes
  let indexBlock := plainBlock (encodeIndex l.index) .index
  let t := writeFilterIndex filterPartitioned t (l.writes ++ [indexBlock])
  let metaBlock := plainBlock (encodeMeta {
    minKey := first.key
    maxKey := last.key
    entryCount := UInt64.ofNat entries.length
    seqMin := seqMin first entries
    seqMax := seqMax last entries
    compression := o.compression
    bloomBits := UInt16.ofInt o.bloomBitsPerKey
    bloomK := (filter.map Filter.k).getD 0
    bloomOffset := t.bloomOffset
    bloomLen := t.bloomLen }) .metadata
  return t.writes ++ [metaBlock, encodeFooter {
    flags := footerFlags partitioned filterPartitioned
    indexOffset := offsetOf l.writes
    indexLen := UInt32.ofNat indexBlock.length
    metaOffset := offsetOf t.writes
    metaLen := UInt32.ofNat metaBlock.length }]

/-- The writes of `Flush`. -/
def writeFile (P : Platform) (o : Options) (entries : List Entry) : Except Fault (List Bytes) :=
  match (Tables.sortEntries entries).head?, (Tables.sortEntries entries).getLast? with
  | some first, some last => writeSorted P o first last (Tables.sortEntries entries)
  | _, _ => .error (.message "no entries to write")

end LSMEngine.Format
