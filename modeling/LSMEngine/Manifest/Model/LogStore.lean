import LSMEngine.Common.LineLog
import LSMEngine.Common.Runs
/-!
# Manifest — the log store

`LogStore` of `internal/lsm/manifest`: every update appends the whole
manifest to a log, one JSON text to a line, and every so many updates
the manifest is written to a checkpoint and the log is cut to nothing.
A store that is opened reads the checkpoint and then the log, up to the
first line that is not a record.

The store treats the manifest as a value, so its type is left open.
`Json` is what the store uses of `encoding/json`; the manifests are those
that it gives back, which are the ones whose paths are valid UTF-8 (other
bytes come back as the replacement character). A crash inside an
operation leaves the files as they are at that point: some bytes of the
append written, or the checkpoint renamed and the log not yet cut.
-/

namespace LSMEngine.Manifest

variable {M : Type}

/-- The type of a record: what the store writes, or another. -/
inductive RecordType
  | snapshot
  | other
  deriving DecidableEq, Repr

/-- `logRecord`. -/
structure LogRecord (M : Type) where
  type : RecordType
  manifest : M
  deriving DecidableEq, Repr

/-- The texts of records and of checkpoints. A record, as a JSON object,
is not read from a text that goes on behind another's beginning. -/
structure Json (M : Type) extends LineCodec (LogRecord M) where
  unmarshal_behind : ∀ a b n, 0 < n → n ≤ (marshal a).length →
    unmarshal ((marshal a).take n ++ marshal b) = none
  marshalIndent : M → Bytes
  unmarshalManifest : Bytes → Option M
  marshalIndent_ne_nil : ∀ m, marshalIndent m ≠ []
  unmarshal_marshalIndent : ∀ m, unmarshalManifest (marshalIndent m) = some m

/-- The two files of a store; a file may not exist. -/
structure Files where
  checkpoint : Option Bytes
  log : Option Bytes
  deriving DecidableEq, Repr

/-- `LogStore`. -/
structure LogStore (M : Type) where
  checkpointEveryN : ℤ
  loaded : Bool
  state : M
  updateCnt : ℤ
  deriving DecidableEq, Repr

variable [Inhabited M] (J : Json M)

/-- `NewLogStore`. The default manifest is `Manifest{}`. -/
def newLogStore (checkpointEveryN : ℤ) : LogStore M :=
  ⟨if checkpointEveryN ≤ 0 then 128 else checkpointEveryN, false, default, 0⟩

/-- What a record does to the manifest read so far. -/
def readRecord (out : M) (rec : LogRecord M) : M :=
  if rec.type = .snapshot then rec.manifest else out

/-- `readLogLocked`. -/
def readLog (log : Option Bytes) (state : M) : M :=
  match log with
  | none => state
  | some bytes => J.replay readRecord (splitLines bytes) state

/-- The checkpoint. One that cannot be read is ignored. -/
def readCheckpoint (checkpoint : Option Bytes) : M :=
  match checkpoint with
  | none => default
  | some data => if data = [] then default else (J.unmarshalManifest data).getD default

/-- `loadLocked`. -/
def load (s : LogStore M) (files : Files) : LogStore M :=
  if s.loaded then s
  else { s with state := readLog J files.log (readCheckpoint J files.checkpoint), loaded := true }

/-- The text of an append. -/
def recordLine (m : M) : Bytes := J.line ⟨.snapshot, m⟩

/-- `appendLocked`, as far as `n` bytes go. -/
def Files.append (files : Files) (bytes : Bytes) : Files :=
  { files with log := some (files.log.getD [] ++ bytes) }

/-- `writeCheckpointLocked`: a temporary file, renamed. -/
def Files.writeCheckpoint (files : Files) (m : M) : Files :=
  { files with checkpoint := some (J.marshalIndent m) }

/-- `truncateLogLocked`. A log that does not exist stays so. -/
def Files.truncateLog (files : Files) : Files := { files with log := files.log.map fun _ => [] }

/-! ## Operations -/

/-- `Update` and `Save`. -/
inductive Op (M : Type)
  | update (fn : M → M)
  | save (m : M)

/-- The manifest an operation is to produce. -/
def Op.result (op : Op M) (s : LogStore M) (files : Files) : M :=
  match op with
  | .update fn => fn (load J s files).state
  | .save m => m

/-- `Update`. -/
def LogStore.update (fn : M → M) (s : LogStore M) (files : Files) : LogStore M × Files :=
  let s := load J s files
  let m := fn s.state
  let files := files.append (recordLine J m)
  if s.checkpointEveryN ≤ s.updateCnt + 1 then
    ({ s with state := m, updateCnt := 0 }, (files.writeCheckpoint J m).truncateLog)
  else ({ s with state := m, updateCnt := s.updateCnt + 1 }, files)

/-- `Save`. -/
def LogStore.save (m : M) (s : LogStore M) (files : Files) : LogStore M × Files :=
  ({ s with state := m, loaded := true, updateCnt := 0 },
    (files.writeCheckpoint J m).truncateLog)

/-- An operation that completes. -/
def Op.run (op : Op M) (s : LogStore M) (files : Files) : LogStore M × Files :=
  match op with
  | .update fn => LogStore.update J fn s files
  | .save m => LogStore.save J m s files

/-- Where a crash leaves an operation. -/
inductive Point
  /-- That many bytes of the append are written. -/
  | appended (n : ℕ)
  /-- The checkpoint is in place, and the log is as it was. -/
  | renamed
  deriving DecidableEq, Repr

/-- The files at that point, if the operation comes by it. -/
def Op.crash (op : Op M) (point : Point) (s : LogStore M) (files : Files) : Option Files :=
  match op, point with
  | .update fn, .appended n =>
    some (files.append ((recordLine J (fn (load J s files).state)).take n))
  | .update fn, .renamed =>
    let s := load J s files
    let m := fn s.state
    if s.checkpointEveryN ≤ s.updateCnt + 1 then
      some ((files.append (recordLine J m)).writeCheckpoint J m)
    else none
  | .save _, .appended 0 => some files
  | .save _, .appended _ => none
  | .save m, .renamed => some (files.writeCheckpoint J m)

/-! ## Runs -/

/-- A store, its files, and the manifest it is to hold: that of the last
operation that completed, or that was in flight at a crash and was then
loaded. -/
structure State (M : Type) where
  store : LogStore M
  files : Files
  expected : M
  deriving DecidableEq, Repr

/-- An empty directory. -/
def start (checkpointEveryN : ℤ) : State M := ⟨newLogStore checkpointEveryN, ⟨none, none⟩, default⟩

/-- What `Load` returns. -/
def State.loaded (s : State M) : M := (load J s.store s.files).state

/-- An operation, a crash inside one and the opening that follows, or
an opening in between. -/
inductive Step (M : Type)
  | run (op : Op M)
  | crash (op : Op M) (point : Point) (checkpointEveryN : ℤ)
  | reopen (checkpointEveryN : ℤ)

/-- One step. -/
def act [DecidableEq M] (s : State M) : Step M → Option (State M)
  | .run op =>
    let r := op.run J s.store s.files
    some ⟨r.1, r.2, op.result J s.store s.files⟩
  | .crash op point n =>
    (op.crash J point s.store s.files).map fun files =>
      let m := op.result J s.store s.files
      let opened : State M := ⟨newLogStore n, files, s.expected⟩
      if opened.loaded J = m then { opened with expected := m } else opened
  | .reopen n => some { s with store := newLogStore n }

end LSMEngine.Manifest
