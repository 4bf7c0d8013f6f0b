import LSMEngine.Engine.Model.Memtable
import LSMEngine.Tables.Model.History
import LSMEngine.Tables.Model.Manifest
/-!
# Engine — the state of an open engine

The memtables are kept by identity, as the source keeps pointers: the
active one, the frozen ones that are searched (`immutables`), those on
their way to the dispatcher, and those back in the pool. The state also
says where the goroutines are: the write that holds the commit lock, the
calls of `enqueue` that have not appended to the flush queue yet, the
entry lists that have not reached the dispatcher's channel, how far the
dispatcher has come with a table, and how far a compaction has come.

An entry counts as acknowledged once it is in the log.
-/

namespace LSMEngine.Engine

open Tables (SSTable Table TableMeta Manifest)

/-- What the options fix. -/
structure Config where
  /-- `MemtableLimit`. -/
  mtLimit : ℤ
  /-- `FlushQueueSize`: the capacity of the dispatcher's channel. -/
  queueSize : ℕ
  /-- Memtables are pooled unless the caller brought a factory. -/
  pooled : Bool
  /-- `WAL.ValidateEntry`. -/
  validate : Entry → Option Err
  /-- How large a table file is. -/
  fileSize : List Entry → UInt64
  planner : Tables.StrictLevelledPlanner
  dropTombstones : Bool

/-! ## Memtables -/

/-- The memtables of an engine. -/
structure Mems where
  heap : ℕ → Memtable
  /-- No memtable has this identity or a later one. -/
  fresh : ℕ
  /-- `mtPool`. -/
  pool : List ℕ
  mem : ℕ
  /-- `immutables`, oldest first. -/
  immutables : List ℕ
  flushQueue : List ℕ
  pinned : ℕ → ℕ
  /-- Frozen for a flush, and not in the flush queue yet. -/
  enqueuing : List ℕ

namespace Mems

/-- One empty memtable. -/
def init : Mems where
  heap := fun _ => .empty
  fresh := 1
  pool := []
  mem := 0
  immutables := []
  flushQueue := []
  pinned := fun _ => 0
  enqueuing := []

/-- The memtables searched, oldest first. -/
def live (m : Mems) : List ℕ := m.immutables ++ [m.mem]

/-- `mtFactory`: one from the pool, or a new one. -/
def alloc (m : Mems) : Option ℕ → Option (ℕ × Mems)
  | some id => if id ∈ m.pool then some (id, { m with pool := m.pool.erase id }) else none
  | none => some (m.fresh, { m with fresh := m.fresh + 1 })

/-- `freezeMemtableLocked`. -/
def freeze (m : Mems) (reuse : Option ℕ) : Option Mems :=
  (m.alloc reuse).map fun (id, m') => { m' with mem := id, immutables := m.immutables ++ [m.mem] }

/-- `pinMemtableLocked`. -/
def pin (m : Mems) (id : ℕ) : Mems :=
  { m with pinned := Function.update m.pinned id (m.pinned id + 1) }

/-- `unpinMemtableLocked`: whether the memtable is to be flushed. -/
def unpin (m : Mems) (id : ℕ) : Mems × Bool :=
  if m.pinned id ≤ 1 then ({ m with pinned := Function.update m.pinned id 0 }, true)
  else ({ m with pinned := Function.update m.pinned id (m.pinned id - 1) }, false)

/-- `releasePinned`, up to `enqueue`. -/
def releasePinned (m : Mems) (id : ℕ) : Mems :=
  let (m', flush) := m.unpin id
  if flush then { m' with enqueuing := m'.enqueuing ++ [id] } else m'

/-- `recycleMemtable`. -/
def recycle (pooled : Bool) (m : Mems) (id : ℕ) : Mems :=
  if ¬ pooled ∨ 0 < m.pinned id then m
  else { m with heap := Function.update m.heap id .empty, pool := id :: m.pool }

/-- `removeImmutable`. -/
def removeImmutable (m : Mems) (id : ℕ) : Mems :=
  { m with immutables := m.immutables.erase id, flushQueue := m.flushQueue.erase id }

/-- `popFlushedTable`, and `recycleMemtable` of what it returns. -/
def popFlushedTable (pooled : Bool) (m : Mems) : Mems :=
  match m.flushQueue with
  | [] => m
  | id :: rest =>
    recycle pooled { m with flushQueue := rest, immutables := m.immutables.erase id } id

/-- The memtable has an entry written to it. -/
def write (m : Mems) (id : ℕ) (e : Entry) : Mems :=
  { m with heap := Function.update m.heap id ((m.heap id).applyOwned e) }

end Mems

/-! ## The rest of the state -/

/-- How far the dispatcher has come with an entry list: taken from the
channel, written to a file, in the table set, in the manifest. -/
inductive Stage
  | idle
  | taken (es : List Entry)
  | written (t : SSTable)
  | installed (t : SSTable)
  | recorded (t : SSTable)

/-- The way from `enqueue` to the table set. -/
structure Pipeline where
  /-- Lists whose memtable is in the flush queue, before `Enqueue`. -/
  sending : List (List Entry)
  /-- Lists in `EnqueueBlocking`. -/
  blocked : List (List Entry)
  flushBlocked : Bool
  channel : List (List Entry)
  stage : Stage

/-- Table files and the manifest. -/
structure Storage where
  /-- Every table ever written. -/
  archive : List SSTable
  /-- The table files there are. -/
  files : List SSTable
  /-- Files to be removed. -/
  doomed : List String
  /-- Tables whose handle is closed. -/
  closed : List String
  manifest : Manifest
  /-- A compaction that is in the table set and not in the manifest, with
  the tables that left the set for good. -/
  editing : Option (Tables.Result × List Table)

/-- How far a write has come: it has acquired the memtable, or it is in
the log and in the memtable and has seen whether that is full. -/
inductive WriteStage
  | acquired
  | applied (full : Bool)
  deriving DecidableEq

/-- A write that holds the commit lock. -/
structure Write where
  mem : ℕ
  entry : Entry
  stage : WriteStage

/-- The log, the index of the commit log, and the write under way. -/
structure Journal where
  wal : List Entry
  index : UInt64
  writer : Option Write

/-- `Snapshot`. The tables are pinned after the memtables are collected,
and unpinned after the memtable is released. -/
structure Snapshot where
  mems : List ℕ
  frozen : ℕ
  tables : Option (List Table)
  closed : Bool
  released : Bool

/-- The state of an open engine. -/
structure State where
  mems : Mems
  pipe : Pipeline
  tables : Tables.State
  disk : Storage
  journal : Journal
  snapshots : List Snapshot

/-- A new engine on an empty directory. -/
def State.init : State where
  mems := .init
  pipe := ⟨[], [], false, [], .idle⟩
  tables := .init
  disk := ⟨[], [], [], [], ⟨0, []⟩, none⟩
  journal := ⟨[], 0, none⟩
  snapshots := []

/-! ## Reads -/

/-- A point read of a table: nothing is found through a closed handle. -/
def readTable (closed : List String) (t : Table) (k : Bytes) : Option Entry :=
  if t.path ∈ closed then none else t.handle.get k

/-- Memtables, then tables, in the order they are given. -/
def searchAll (heap : ℕ → Memtable) (closed : List String) (mems : List ℕ) (tables : List Table)
    (k : Bytes) : Option Entry :=
  (mems.findSome? fun id => (heap id).get k).or (tables.findSome? fun t => readTable closed t k)

/-- `readService.Get`: the active memtable, the frozen ones newest to
oldest, the tables in set order. -/
def State.get (s : State) (k : Bytes) : Option Bytes :=
  Tables.visible (searchAll s.mems.heap s.disk.closed s.mems.live.reverse s.tables.set.tables k)

/-- `LSM.GetContext`, which pins the tables it reads. -/
def State.getContext (s : State) (k : Bytes) : Option Bytes :=
  match s.mems.live.reverse.findSome? fun id => (s.mems.heap id).get k with
  | some e => Tables.visible (some e)
  | none =>
    Tables.visible (s.tables.set.snapshotAndPin.1.findSome? fun t => readTable s.disk.closed t k)

/-- `Snapshot.Get`. -/
def Snapshot.get (s : State) (v : Snapshot) (k : Bytes) : Option Bytes :=
  Tables.visible (searchAll s.mems.heap s.disk.closed v.mems (v.tables.getD []) k)

/-- `viewMergeHeap.Less`, as the order of the queue. -/
def viewLe (c d : Cursor Entry) : Prop :=
  c.head.key < d.head.key ∨ (c.head.key = d.head.key ∧ c.place ≤ d.place)

instance : DecidableRel viewLe := fun c d =>
  inferInstanceAs (Decidable (c.head.key < d.head.key ∨ (c.head.key = d.head.key ∧ c.place ≤ d.place)))

/-- The item of a group that stands for it: the one of the first
iterator. -/
def viewBest (c : Cursor Entry) (group : List (Cursor Entry)) : Cursor Entry :=
  group.foldl (fun best d => if d.place < best.place then d else best) c

/-- `viewMergeIterator.Next`, over the groups of the merge: a key that was
the last one is passed over, and so is a tombstone. -/
def viewMerge (last : Bytes) : List (List (Cursor Entry)) → List Entry
  | [] => []
  | [] :: gs => viewMerge last gs
  | (c :: group) :: gs =>
    let best := viewBest c group
    if last ≠ [] ∧ last = c.head.key then viewMerge last gs
    else if best.head.tombstone then viewMerge c.head.key gs
    else best.head :: viewMerge c.head.key gs

/-- `Snapshot.Range`: what the iterator yields. Through a closed handle it
fails. -/
def Snapshot.range (s : State) (v : Snapshot) (start stop : Bytes) : Option (List Entry) :=
  let tables := v.tables.getD []
  if tables.any fun t => t.path ∈ s.disk.closed then none
  else
    let its := (v.mems.map fun id => (s.mems.heap id).range start stop) ++
      tables.map fun t => t.handle.range start stop
    some (viewMerge [] (mergeGroups Entry.key viewLe false (mergeQueue viewLe its)))

end LSMEngine.Engine
