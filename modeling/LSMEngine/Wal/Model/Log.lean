import LSMEngine.Wal.Model.Codec
import LSMEngine.Wal.Model.Disk
/-!
# WAL — writing the log

`NewWAL` and the append path of `internal/lsm/wal`: a record is put
into the open block, the block is written when it is full or when the
caller flushes it, and a file that has grown to `MaxSegment` is renamed
and replaced by a fresh one.

A failed write leaves the records of the block where they are, and the
next flush writes them once more. In async mode requests are processed
in batches by one writer goroutine, and `BatchAnswer` records what each
request of a batch was told and what the directory looked like when it
was told so.
-/

namespace LSMEngine.Wal

/-- `Options`, without the sizes of the replay buffer and the queue. -/
structure Options where
  path : String
  sync : Bool
  maxSegment : UInt64
  maxRecordBytes : UInt64
  blockSize : UInt32
  async : Bool
  batchMax : ℤ
  repairOnReplay : Bool
  deriving DecidableEq, Repr

/-- `WAL`. -/
structure WAL where
  f : Option Handle
  path : String
  sync : Bool
  maxBytes : UInt64
  sizeBytes : UInt64
  maxRecord : UInt64
  blockSize : UInt32
  segmentID : UInt64
  records : List RecordBuffer
  blockLen : ℕ
  async : Bool
  batchMax : ℤ
  repairOnReplay : Bool
  deriving DecidableEq, Repr

/-- A log and the directory it writes to. -/
structure World where
  wal : WAL
  disk : Disk
  deriving DecidableEq, Repr

/-! ## Opening -/

/-- The header `NewWAL` finds in a file that is not empty. A header that
cannot be read is passed over in silence. -/
def adoptHeader (bytes : Bytes) (blockSize : UInt32) (segmentID : UInt64) : UInt32 × UInt64 :=
  match readSegmentHeader bytes with
  | .ok (hdr, _) => (hdr.blockSize, hdr.segmentID)
  | .error _ => (blockSize, segmentID)

/-- `WriteSegmentHeader`, at the time of the clock. -/
def writeSegmentHeader (d : Disk) (h : Handle) (blockSize : UInt32) (segmentID : UInt64) :
    Bool × Disk :=
  d.writeHeader h (encodeSegmentHeader blockSize segmentID (UInt64.ofNat d.clock))

/-- The end of `NewWAL`: the file is open and has a header. -/
def finishOpen (opts : Options) (file : ℕ) (blockSize : UInt32) (segmentID : UInt64) (d : Disk) :
    Except Err WAL × Disk :=
  if blockSize.toNat < minBlockSize then
    (.error (.invalid "wal block size too small"), d.close.2)
  else if 0 < opts.maxRecordBytes ∧ blockSize.toNat < opts.maxRecordBytes.toNat then
    (.error (.invalid "wal max record bytes exceeds block size"), d.close.2)
  else
    (.ok
      { f := some ⟨file, true⟩
        path := opts.path
        sync := opts.sync
        maxBytes := opts.maxSegment
        sizeBytes := UInt64.ofNat (d.bytesOf file).length
        maxRecord := opts.maxRecordBytes
        blockSize := blockSize
        segmentID := segmentID
        records := []
        blockLen := 0
        async := opts.async
        batchMax := opts.batchMax
        repairOnReplay := opts.repairOnReplay }, d)

/-- `NewWAL` on the file it opened. -/
def initFile (opts : Options) (file : ℕ) (blockSize : UInt32) (d : Disk) :
    Except Err WAL × Disk :=
  let segmentID := nextSegmentID d opts.path
  if d.bytesOf file = [] then
    match writeSegmentHeader d ⟨file, true⟩ blockSize segmentID with
    | (false, d) => (.error (.io "write segment header"), d.close.2)
    | (true, d) => finishOpen opts file blockSize segmentID d
  else
    match d.ioFault with
    -- a failed `fs.Open` is ignored
    | (some _, d) => finishOpen opts file blockSize segmentID d
    | (none, d) =>
      let adopted := adoptHeader (d.bytesOf file) blockSize segmentID
      match d.close with
      | (false, d) => (.error (.io "close wal header"), d.close.2)
      | (true, d) => finishOpen opts file adopted.1 adopted.2 d

/-- The block size asked for; zero asks for the default. -/
def Options.blockSizeOrDefault (opts : Options) : UInt32 :=
  if opts.blockSize = 0 then 64 * 1024 else opts.blockSize

/-- `NewWAL`. -/
def newWAL (opts : Options) (d : Disk) : Except Err WAL × Disk :=
  if opts.path = "" then (.error (.invalid "wal path required"), d)
  else if opts.blockSizeOrDefault.toNat < minBlockSize then
    (.error (.invalid "wal block size too small"), d)
  else
    match d.ioFault with
    | (some _, d) => (.error (.io "mkdir wal dir"), d)
    | (none, d) =>
      match d.openFile opts.path false with
      | (none, d) => (.error (.io "open wal"), d)
      | (some file, d) =>
        match d.ioFault with
        | (some _, d) => (.error (.io "stat wal"), d.close.2)
        | (none, d) => initFile opts file opts.blockSizeOrDefault d

/-! ## Appending -/

/-- `ValidateEntry`: the two limits and the entry decide. -/
def validateEntry (blockSize : UInt32) (maxRecord : UInt64) (e : Entry) : Option Err :=
  let total := (newRecordBufferOwned e).total
  if e.key.length = 0 then some .walEmptyKey
  else if e.value.length = 0 ∧ e.tombstone = false then some .walEmptyValue
  else if blockSize.toNat < total then
    some (.walRecordTooLarge total (.block blockSize.toNat))
  else if 0 < maxRecord ∧ maxRecord.toNat < total then
    some (.walRecordTooLarge total (.cap maxRecord.toNat))
  else none

/-- `WAL.rotate`. -/
def rotate (s : World) : Option Err × World :=
  match s.wal.f with
  | none => (some .walClosed, s)
  | some h =>
    let w := { s.wal with f := some { h with isOpen := false } }
    match s.disk.close with
    | (false, d) => (some (.io "close wal before rotate"), ⟨w, d⟩)
    | (true, d) =>
      match d.rename w.path (segmentName w.path w.segmentID.toNat) with
      | (false, d) => (some (.io "rename wal segment"), ⟨w, d⟩)
      | (true, d) =>
        let w := { w with segmentID := w.segmentID + 1 }
        match d.openFile w.path true with
        | (none, d) => (some (.io "open new wal"), ⟨w, d⟩)
        | (some file, d) =>
          match writeSegmentHeader d ⟨file, true⟩ w.blockSize w.segmentID with
          | (false, d) => (some (.io "write segment header"), ⟨w, d.close.2⟩)
          | (true, d) =>
            (none, ⟨{ w with
              f := some ⟨file, true⟩, sizeBytes := UInt64.ofNat segmentHeaderSize }, d⟩)

/-- The state once a block has been written. -/
def World.written (s : World) : World :=
  { s with wal := { s.wal with
      sizeBytes := s.wal.sizeBytes + UInt64.ofNat (encodeBlock s.wal.records).length
      records := []
      blockLen := 0 } }

/-- `WAL.flushBlock`. -/
def flushBlock (s : World) : Option Err × World :=
  if s.wal.blockLen = 0 then (none, s)
  else
    match s.wal.f with
    -- `WriteBlock` on a nil file: the callers have checked it
    | none => (some .walClosed, s)
    | some h =>
      match s.disk.writeBlock h (encodeBlock s.wal.records) with
      | (false, d) => (some (.io "write block"), { s with disk := d })
      | (true, d) =>
        let s := World.written { s with disk := d }
        if 0 < s.wal.maxBytes ∧ s.wal.maxBytes ≤ s.wal.sizeBytes then rotate s else (none, s)

/-- The record joins the open block. -/
def World.push (s : World) (e : Entry) : World :=
  { s with wal := { s.wal with
      records := s.wal.records ++ [newRecordBufferOwned e]
      blockLen := s.wal.blockLen + (newRecordBufferOwned e).total } }

/-- `WAL.appendLocked`. -/
def appendLocked (e : Entry) (s : World) : Option Err × World :=
  match s.wal.f with
  | none => (some .walClosed, s)
  | some _ =>
    match validateEntry s.wal.blockSize s.wal.maxRecord e with
    | some err => (some err, s)
    | none =>
      if 0 < s.wal.blockLen ∧
          s.wal.blockSize.toNat < s.wal.blockLen + (newRecordBufferOwned e).total then
        match flushBlock s with
        | (some err, s) => (some err, s)
        | (none, s) => (none, s.push e)
      else (none, s.push e)

/-- `File.Sync` on the current file. -/
def syncFile (s : World) : Option Err × World :=
  match s.wal.f with
  | none => (some .walClosed, s)
  | some h =>
    match s.disk.sync h with
    | (false, d) => (some (.io "wal sync"), { s with disk := d })
    | (true, d) => (none, { s with disk := d })

/-- The flush that ends an append or a batch, and its sync. -/
def flushAndSync (syncNow : Bool) (s : World) : Option Err × World :=
  match flushBlock s with
  | (some err, s) => (some err, s)
  | (none, s) => if syncNow then syncFile s else (none, s)

/-- `WAL.append` in sync mode. -/
def append (e : Entry) (s : World) : Option Err × World :=
  match appendLocked e s with
  | (some err, s) => (some err, s)
  | (none, s) => flushAndSync s.wal.sync s

/-- `WAL.closeFile`. -/
def closeFile (s : World) : Option Err × World :=
  match s.wal.f with
  | none => (none, s)
  | some _ =>
    match s.disk.close with
    | (ok, d) =>
      (if ok then none else some (.io "close"), ⟨{ s.wal with f := none }, d⟩)

/-- `WAL.Close` in sync mode. A failed flush leaves the log open. -/
def close (s : World) : Option Err × World :=
  match s.wal.f with
  | none => (none, s)
  | some _ =>
    match flushBlock s with
    | (some err, s) => (some err, s)
    | (none, s) => closeFile s

/-! ## Batches -/

/-- `isFatalAppendError`. -/
def isFatalAppendError : Err → Bool
  | .walEmptyKey | .walEmptyValue | .walRecordTooLarge _ _ => false
  | _ => true

/-- The loop of `processBatch` over the requests: what each is going to
be told, and the error that ended it. -/
def appendBatch : List Entry → World → List (Option Err) × Option Err × World
  | [], s => ([], none, s)
  | e :: es, s =>
    match appendLocked e s with
    | (none, s) =>
      let r := appendBatch es s
      (none :: r.1, r.2)
    | (some err, s) =>
      if isFatalAppendError err then
        -- the requests behind a fatal error get the same answer
        ((e :: es).map fun _ => some err, some err, s)
      else
        let r := appendBatch es s
        (some err :: r.1, r.2)

/-- What the requests of one batch were told, and when. -/
structure BatchAnswer where
  reqs : List Entry
  errs : List (Option Err)
  disk : Disk
  deriving DecidableEq, Repr

/-- `WAL.processBatch`. -/
def processBatch (batch : List Entry) (syncNow : Bool) (s : World) :
    BatchAnswer × Option Err × World :=
  let r := appendBatch batch s
  let done := match r.2.1 with
    | some err => (some err, r.2.2)
    | none => flushAndSync syncNow r.2.2
  ({ reqs := batch
     errs := r.1.map fun told => if told.isNone then done.1 else told
     disk := done.2.disk }, done)

/-- The end of `drainAndClose`: nothing is queued any more. -/
def finishClose (s : World) : Option Err × World :=
  let r := flushAndSync s.wal.sync s
  let c := closeFile r.2
  (if r.1.isNone then c.1 else r.1, c.2)

/-- `WAL.drainAndClose` on the requests still queued. A failed batch
closes the file, and what is queued behind it is not answered. -/
def drainAndClose : List Entry → List Entry → World → List BatchAnswer × Option Err × World
  | pending, [], s =>
    if pending = [] then ([], finishClose s)
    else
      let r := processBatch pending false s
      match r.2.1 with
      | some err => ([r.1], some err, (closeFile r.2.2).2)
      | none => ([r.1], finishClose r.2.2)
  | pending, req :: queue, s =>
    if 0 < s.wal.batchMax ∧ s.wal.batchMax ≤ (pending.length + 1 : ℕ) then
      let r := processBatch (pending ++ [req]) false s
      match r.2.1 with
      | some err => ([r.1], some err, (closeFile r.2.2).2)
      | none =>
        let q := drainAndClose [] queue r.2.2
        (r.1 :: q.1, q.2)
    else drainAndClose (pending ++ [req]) queue s

end LSMEngine.Wal
