import LSMEngine.Common.Runs
import LSMEngine.Engine.Model.State
/-!
# Engine — what an open engine does

One action is one critical section, or one effect on disk, of a
goroutine: a write, a snapshot, the dispatcher, a compaction. They
interleave in any order the locks and the channel allow. Reads and
writes of files succeed; a write to the log may fail without effect.
-/

namespace LSMEngine.Engine

open Tables (SSTable Table TableMeta)

/-! ## Writes -/

/-- `CanEnqueue`. -/
def Pipeline.canEnqueue (cfg : Config) (p : Pipeline) : Bool := p.channel.length < cfg.queueSize

/-- `shouldThrottleWriteForMem`. -/
def throttled (cfg : Config) (s : State) (delta : ℕ) : Bool :=
  if cfg.mtLimit ≤ 0 then false
  else if s.pipe.flushBlocked then true
  else if ((s.mems.heap s.mems.mem).size + delta : ℤ) < cfg.mtLimit then false
  else ¬ s.pipe.canEnqueue cfg

/-- `commitPut` and `commitDelete` up to the log: the request is checked,
takes the next index, and acquires the active memtable. -/
def beginWrite (cfg : Config) (s : State) (key value : Bytes) (tombstone : Bool) :
    State × Option Err :=
  if key.length = 0 then (s, some .walEmptyKey)
  else if ¬ tombstone ∧ value.length = 0 then (s, some .walEmptyValue)
  else
    match cfg.validate ⟨key, value, tombstone, 0⟩ with
    | some err => (s, some err)
    | none =>
      let index := s.journal.index + 1
      if index = 0 ∨ throttled cfg s (key.length + value.length) then
        ({ s with journal := { s.journal with index := index } }, some .backpressure)
      else
        ({ s with
            journal :=
              { s.journal with
                index := index
                writer := some ⟨s.mems.mem, ⟨key, value, tombstone, index⟩, .acquired⟩ } }, none)

/-- The entry is in the log and in the memtable. -/
def commitWrite (cfg : Config) (s : State) : Option State :=
  match s.journal.writer with
  | some ⟨mem, entry, .acquired⟩ =>
    let m := s.mems.write mem entry
    some
      { s with
        mems := m
        journal :=
          { s.journal with
            wal := s.journal.wal ++ [entry]
            writer := some ⟨mem, entry, .applied (cfg.mtLimit ≤ (m.heap mem).size)⟩ } }
  | _ => none

/-- `AppendOwned` fails. -/
def failWrite (s : State) : Option State :=
  match s.journal.writer with
  | some ⟨_, _, .acquired⟩ => some { s with journal := { s.journal with writer := none } }
  | _ => none

/-- `triggerFlush`, up to `enqueue`: a memtable that has reached the limit
is frozen if it is still the active one. The source keeps `commitMu` over
`enqueue` too; here the next write may begin before it, so that every run
of the source is a run of the model. -/
def finishWrite (s : State) (reuse : Option ℕ) : Option State :=
  match s.journal.writer with
  | some ⟨mem, _, .applied full⟩ =>
    let done := { s with journal := { s.journal with writer := none } }
    if full ∧ s.mems.mem = mem then
      (s.mems.freeze reuse).map fun m =>
        { done with mems := { m with enqueuing := m.enqueuing ++ [mem] } }
    else some done
  | _ => none

/-! ## Snapshots -/

/-- `Snapshot`, under the memtable lock. -/
def openSnapshot (s : State) (reuse : Option ℕ) : Option State :=
  (s.mems.freeze reuse).map fun m =>
    { s with
      mems := m.pin s.mems.mem
      snapshots := s.snapshots ++ [⟨m.immutables.reverse, s.mems.mem, none, false, false⟩] }

/-- `Snapshot`, when it pins the tables. -/
def pinTables (s : State) (i : ℕ) : Option State :=
  match s.snapshots[i]? with
  | some ⟨mems, frozen, none, false, released⟩ =>
    let (tables, set) := s.tables.set.snapshotAndPin
    some
      { s with
        tables := { s.tables with set := set }
        snapshots := s.snapshots.set i ⟨mems, frozen, some tables, false, released⟩ }
  | _ => none

/-- `Snapshot.Close`, up to `enqueue`: the memtable is released. -/
def closeSnapshot (s : State) (i : ℕ) : Option State :=
  match s.snapshots[i]? with
  | some ⟨mems, frozen, some tables, false, released⟩ =>
    some
      { s with
        mems := s.mems.releasePinned frozen
        snapshots := s.snapshots.set i ⟨mems, frozen, some tables, true, released⟩ }
  | _ => none

/-- `Snapshot.Close`, after that: the tables are unpinned, and those that
nothing holds are closed and removed. -/
def unpinTables (s : State) (i : ℕ) : Option State :=
  match s.snapshots[i]? with
  | some ⟨mems, frozen, some tables, true, false⟩ =>
    let (set, ready) := s.tables.set.unpin (tables.map Table.path)
    some
      { s with
        tables := { s.tables with set := set }
        disk :=
          { s.disk with
            closed := s.disk.closed ++ ready.map Table.path
            doomed := s.disk.doomed ++ ready.map Table.path }
        snapshots := s.snapshots.set i ⟨mems, frozen, some tables, true, true⟩ }
  | _ => none

/-! ## The way to the dispatcher -/

/-- A write has acquired the memtable and is not in it yet. -/
def Journal.writing (j : Journal) (id : ℕ) : Bool :=
  match j.writer with
  | some ⟨mem, _, .acquired⟩ => mem = id
  | _ => false

/-- `enqueue`, once the writers are gone and up to `Enqueue`. -/
def enqueue (cfg : Config) (s : State) (id : ℕ) : Option State :=
  if id ∈ s.mems.enqueuing ∧ ¬ s.journal.writing id then
    let m := { s.mems with enqueuing := s.mems.enqueuing.erase id }
    if (s.mems.heap id).entries = [] then
      some { s with mems := (m.removeImmutable id).recycle cfg.pooled id }
    else
      some
        { s with
          mems := { m with flushQueue := m.flushQueue ++ [id] }
          pipe := { s.pipe with sending := s.pipe.sending ++ [(s.mems.heap id).entries] } }
  else none

/-- `Enqueue`, by one of the callers. -/
def send (cfg : Config) (s : State) (i : ℕ) : Option State :=
  match s.pipe.sending[i]? with
  | some es =>
    let p := { s.pipe with sending := s.pipe.sending.eraseIdx i }
    if s.pipe.canEnqueue cfg then some { s with pipe := { p with channel := p.channel ++ [es] } }
    else some { s with pipe := { p with blocked := p.blocked ++ [es], flushBlocked := true } }
  | none => none

/-- `EnqueueBlocking`, once there is room. -/
def unblock (cfg : Config) (s : State) (i : ℕ) : Option State :=
  match s.pipe.blocked[i]? with
  | some es =>
    if s.pipe.canEnqueue cfg then
      some
        { s with
          pipe :=
            { s.pipe with
              blocked := s.pipe.blocked.eraseIdx i
              channel := s.pipe.channel ++ [es]
              flushBlocked := false } }
    else none
  | none => none

/-! ## The dispatcher -/

/-- The dispatcher takes an entry list. -/
def take (s : State) : Option State :=
  match s.pipe.stage, s.pipe.channel with
  | .idle, es :: rest => some { s with pipe := { s.pipe with channel := rest, stage := .taken es } }
  | _, _ => none

/-- The table is written. -/
def writeTable (cfg : Config) (s : State) (now : ℕ) : Option State :=
  match s.pipe.stage with
  | .taken es =>
    if s.tables.clock < now then
      match Tables.flush cfg.fileSize now es with
      | .ok t =>
        some
          { s with
            pipe := { s.pipe with stage := .written t }
            tables := { s.tables with clock := now }
            disk :=
              { s.disk with
                archive := s.disk.archive ++ [t]
                files := s.disk.files ++ [t] } }
      | .error _ => none
    else none
  | _ => none

/-- `onFlush`: the table joins the set. -/
def install (s : State) : Option State :=
  match s.pipe.stage with
  | .written t =>
    some { s with tables := s.tables.install t, pipe := { s.pipe with stage := .installed t } }
  | _ => none

/-- `onFlush`: the manifest lists the table, and the checkpoint moves to
its sequence. -/
def record (s : State) : Option State :=
  match s.pipe.stage with
  | .installed t =>
    some
      { s with
        pipe := { s.pipe with stage := .recorded t }
        disk :=
          { s.disk with
            manifest := s.disk.manifest.edit [Tables.tableMetaFromSSTable t 0] [] t.seq } }
  | _ => none

/-- `onFlush`: the head of the flush queue is dropped and recycled. -/
def retire (cfg : Config) (s : State) : Option State :=
  match s.pipe.stage with
  | .recorded _ =>
    some
      { s with
        mems := s.mems.popFlushedTable cfg.pooled
        pipe := { s.pipe with stage := .idle } }
  | _ => none

/-! ## Compactions -/

/-- A compaction is planned, once the last one is in the manifest. -/
def planCompaction (cfg : Config) (s : State) : Option State :=
  if s.disk.editing.isNone then
    (s.tables.plan cfg.planner).map fun t => { s with tables := t }
  else none

/-- The tables a merge has written. -/
def jobOutput : Tables.Job → List SSTable
  | .ran r => r.output
  | _ => []

/-- Its inputs are merged into a new table. -/
def mergeTables (cfg : Config) (s : State) (now : ℕ) : Option State :=
  (s.tables.merge cfg.fileSize cfg.dropTombstones now).map fun t =>
    { s with
      tables := t
      disk :=
        { s.disk with
          archive := s.disk.archive ++ jobOutput t.job
          files := s.disk.files ++ jobOutput t.job } }

/-- `Service.Apply`: the table set. -/
def commitCompaction (s : State) : Option State :=
  match s.tables.job with
  | .ran r =>
    let (set, removed) := s.tables.set.apply r.edit
    some
      { s with
        tables := { s.tables with set := set, job := .idle }
        disk := { s.disk with editing := some (r, removed) } }
  | _ => none

/-- `Service.Apply`: the manifest, and the handles of the tables that are
gone. -/
def recordCompaction (s : State) : Option State :=
  match s.disk.editing with
  | some (r, removed) =>
    some
      { s with
        disk :=
          { s.disk with
            manifest := s.disk.manifest.edit (r.edit.add.map Table.metadata) r.edit.removePath 0
            closed := s.disk.closed ++ removed.map Table.path
            doomed := s.disk.doomed ++ removed.map Table.path
            editing := none } }
  | none => none

/-- A file is removed. -/
def removeFile (s : State) (path : String) : Option State :=
  if path ∈ s.disk.doomed then
    some
      { s with
        disk :=
          { s.disk with
            files := s.disk.files.filter fun t => t.path ≠ path
            doomed := s.disk.doomed.erase path } }
  else none

/-! ## Runs -/

/-- What can happen. -/
inductive Action
  | put (key value : Bytes)
  | delete (key : Bytes)
  | commitWrite
  | failWrite
  | finishWrite (reuse : Option ℕ)
  | openSnapshot (reuse : Option ℕ)
  | pinTables (i : ℕ)
  | closeSnapshot (i : ℕ)
  | unpinTables (i : ℕ)
  | enqueue (id : ℕ)
  | send (i : ℕ)
  | unblock (i : ℕ)
  | take
  | writeTable (now : ℕ)
  | install
  | record
  | retire
  | planCompaction
  | mergeTables (now : ℕ)
  | commitCompaction
  | recordCompaction
  | removeFile (path : String)
  deriving DecidableEq

/-- A write starts if no other holds the commit lock. -/
def startWrite (cfg : Config) (s : State) (key value : Bytes) (tombstone : Bool) : Option State :=
  if s.journal.writer.isNone then some (beginWrite cfg s key value tombstone).1 else none

/-- One action, where it can happen. -/
def act (cfg : Config) (s : State) : Action → Option State
  | .put key value => startWrite cfg s key value false
  | .delete key => startWrite cfg s key [] true
  | .commitWrite => commitWrite cfg s
  | .failWrite => failWrite s
  | .finishWrite reuse => finishWrite s reuse
  | .openSnapshot reuse => openSnapshot s reuse
  | .pinTables i => pinTables s i
  | .closeSnapshot i => closeSnapshot s i
  | .unpinTables i => unpinTables s i
  | .enqueue id => enqueue cfg s id
  | .send i => send cfg s i
  | .unblock i => unblock cfg s i
  | .take => take s
  | .writeTable now => writeTable cfg s now
  | .install => install s
  | .record => record s
  | .retire => retire cfg s
  | .planCompaction => planCompaction cfg s
  | .mergeTables now => mergeTables cfg s now
  | .commitCompaction => commitCompaction s
  | .recordCompaction => recordCompaction s
  | .removeFile path => removeFile s path

/-- A run of actions. -/
abbrev run (cfg : Config) (s : State) (as : List Action) : Option State := runs (act cfg) s as

end LSMEngine.Engine
