import LSMEngine.Types
import Mathlib.Data.List.Basic
/-!
# Commit log — the persisted raft log

`raftPersistentStorage` keeps the entries of the raft log twice: in raft's
own `MemoryStorage`, and in a list of its own, which `Persist` writes to a
file together with the hard state and from which `newRaftPersistentStorage`
fills both again. Raft's storage is a parameter, of which is assumed what
the fields of `MemoryStorage` say.

The encodings are left out: the file holds the state. Indexes are numbers,
as a log with 2^64 entries does not fit anywhere.
-/

namespace LSMEngine.CommitLog

/-- `raftpb.HardState`. -/
structure HardState where
  term : UInt64
  vote : UInt64
  commit : UInt64
  deriving DecidableEq, Repr

/-- `raftpb.EntryType`. -/
inductive EntryType
  | normal
  | confChange
  | confChangeV2
  deriving DecidableEq, Repr

/-- `raftpb.Entry`. -/
structure RaftpbEntry where
  term : UInt64
  index : ℕ
  type : EntryType
  data : Bytes
  deriving DecidableEq, Repr

/-- The indexes count on from a number. -/
def Counts (start : ℕ) (entries : List RaftpbEntry) : Prop :=
  entries.map RaftpbEntry.index = List.range' start entries.length

/-- `raft.MemoryStorage`: the calls that are made of it, and the contract
they are relied on to keep. The log is what `Entries` gives from the first
index to the last, and an `Append` that panics gives `none`. -/
structure MemoryStorage (Memory : Type) where
  newMemoryStorage : Memory
  initialState : Memory → HardState
  setHardState : Memory → HardState → Memory
  append : Memory → List RaftpbEntry → Option Memory
  log : Memory → List RaftpbEntry
  initialState_new : initialState newMemoryStorage = ⟨0, 0, 0⟩
  log_new : log newMemoryStorage = []
  initialState_setHardState : ∀ m st, initialState (setHardState m st) = st
  log_setHardState : ∀ m st, log (setHardState m st) = log m
  -- a batch without a gap replaces the entries from its first index on
  append_log : ∀ m e batch, Counts 1 (log m) → Counts e.index (e :: batch) → 1 ≤ e.index →
    e.index ≤ (log m).length + 1 → ∃ m', append m (e :: batch) = some m' ∧
      initialState m' = initialState m ∧ log m' = (log m).take (e.index - 1) ++ e :: batch

/-- `raftDiskState`. -/
structure RaftDiskState where
  hardState : HardState
  entries : List RaftpbEntry
  deriving DecidableEq, Repr

/-- `raftPersistentStorage`. -/
structure RaftPersistentStorage (Memory : Type) where
  memory : Memory
  entries : List RaftpbEntry

/-- `appendRaftEntries`. -/
def appendRaftEntries (existing incoming : List RaftpbEntry) : List RaftpbEntry :=
  match incoming with
  | [] => existing
  | e :: _ => existing.takeWhile (fun old => old.index < e.index) ++ incoming

section

variable {Memory : Type} (raft : MemoryStorage Memory)

/-- A new storage with a hard state, unless it is the empty one. -/
def restoredMemory (st : HardState) : Memory :=
  if st = ⟨0, 0, 0⟩ then raft.newMemoryStorage else raft.setHardState raft.newMemoryStorage st

/-- `newRaftPersistentStorage` of what is in the file, if there is one. -/
def newRaftPersistentStorage : Option RaftDiskState → Option (RaftPersistentStorage Memory)
  | none => some ⟨raft.newMemoryStorage, []⟩
  | some state =>
    if state.entries = [] then some ⟨restoredMemory raft state.hardState, []⟩
    else (raft.append (restoredMemory raft state.hardState) state.entries).map fun memory =>
      ⟨memory, state.entries⟩

namespace RaftPersistentStorage

variable (s : RaftPersistentStorage Memory)

/-- `SetHardState`. -/
def setHardState (st : HardState) : RaftPersistentStorage Memory :=
  { s with memory := raft.setHardState s.memory st }

/-- `Append`. -/
def append (entries : List RaftpbEntry) : Option (RaftPersistentStorage Memory) :=
  if entries = [] then some s
  else (raft.append s.memory entries).map fun memory =>
    ⟨memory, appendRaftEntries s.entries entries⟩

/-- What `Persist` writes. -/
def diskState : RaftDiskState := ⟨raft.initialState s.memory, s.entries⟩

end RaftPersistentStorage

/-! ## Runs -/

/-- What becomes of a `Persist`: it succeeds, or it fails before the file
is replaced, or after, where the directory is synced. -/
inductive PersistResult
  | ok
  | failed
  | failedLate
  deriving DecidableEq, Repr

/-- A storage with its file. -/
structure RaftDisk (Memory : Type) where
  storage : RaftPersistentStorage Memory
  file : Option RaftDiskState

/-- What happens to a storage. -/
inductive StorageOp
  | append (entries : List RaftpbEntry)
  | setHardState (st : HardState)
  | persist (result : PersistResult)
  | reload
  deriving DecidableEq, Repr

namespace RaftDisk

/-- A storage without a file. -/
def new : RaftDisk Memory := ⟨⟨raft.newMemoryStorage, []⟩, none⟩

/-- One step; `none` is a panic. -/
def act (d : RaftDisk Memory) : StorageOp → Option (RaftDisk Memory)
  | .append entries => (d.storage.append raft entries).map fun storage => { d with storage }
  | .setHardState st => some { d with storage := d.storage.setHardState raft st }
  | .persist result =>
    if result = .failed then some d else some { d with file := d.storage.diskState raft }
  | .reload => (newRaftPersistentStorage raft d.file).map fun storage => { d with storage }

end RaftDisk

end

end LSMEngine.CommitLog
