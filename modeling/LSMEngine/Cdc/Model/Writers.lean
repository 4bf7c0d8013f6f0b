import LSMEngine.Cdc.Model.Stream
/-!
# Change streams — who writes and reads them

With the local commit log a `Put` or `Delete` takes its number under the
commit lock (`commitPut`, `commitDelete`), and records its event after it
has let the lock go (`recordCDCEvent`). So every call is a row of steps,
and the calls take theirs in any order; between them consumers read, each
with the offset at which the last page has ended, mutations of the control
plane take numbers of the same commit log, and the routes change.

What a write does to the memtable and the WAL is left out but for whether
it succeeds, and so are notifications.
-/

namespace LSMEngine.Cdc

open Control (trimSpace)

/-! ## Calls -/

/-- Where a call is. `committed` and `recording` hold the number of the
write; the commit lock is held from `locked` to `committed`. -/
inductive Phase
  | waiting
  | locked
  | committed (seq : UInt64)
  | recording (seq : UInt64)
  | acknowledged
  | failed
  deriving DecidableEq, Repr

/-- A call of `Put` or `Delete`. -/
structure Call where
  operation : Operation
  key : Bytes
  value : Bytes
  phase : Phase
  deriving DecidableEq, Repr

/-- The checks of `Put` and `Delete` on their arguments. -/
def accepts : Operation → Bytes → Bytes → Bool
  | .put, key, value => key ≠ [] ∧ value ≠ []
  | .delete, key, _ => key ≠ []

/-- The event of a call. A deleted key has no value. -/
def Call.event (c : Call) (shardID : String) (seq : UInt64) : CDCEvent :=
  match c.operation with
  | .put => ⟨seq, shardID, .put, c.key, c.value, false⟩
  | .delete => ⟨seq, shardID, .delete, c.key, [], true⟩

/-- A consumer of a shard. -/
structure Consumer where
  shardID : String
  reader : Reader CDCEvent UInt64
  deriving DecidableEq, Repr

/-- A node: the index of the commit log, the call that holds the commit
lock, the calls, the routes and the store, and who reads it. -/
structure State where
  index : UInt64
  holder : Option ℕ
  calls : List Call
  route : Bytes → Option String
  store : CDCStreamStore
  consumers : List Consumer

/-- A node that has been opened. -/
def State.opened (index : UInt64) (route : Bytes → Option String) (capacity : ℤ) : State :=
  ⟨index, none, [], route, newCDCStreamStore capacity, []⟩

/-- What happens: a call begins, is refused before it commits, takes the
commit lock, takes its number, is applied and lets the lock go, records
its event; a mutation of the control plane takes a number, the routes
change; a consumer starts, or reads while the control plane knows the
given shards. -/
inductive Step
  | call (operation : Operation) (key value : Bytes)
  | refuse (i : ℕ)
  | lock (i : ℕ)
  | commit (i : ℕ)
  | apply (i : ℕ) (ok : Bool)
  | record (i : ℕ)
  | commitControl
  | reroute (route : Bytes → Option String)
  | consume (shardID : String) (offset : UInt64)
  | read (k : ℕ) (known : Option (List String)) (limit : ℤ)

namespace State

variable (s : State)

/-- The call goes on to a phase. -/
def move (i : ℕ) (c : Call) (phase : Phase) : State :=
  { s with calls := s.calls.set i { c with phase := phase } }

/-- The shard that `recordCDCEvent` records an event under. -/
def recordShard (key : Bytes) : String :=
  match s.route key with
  | some routed => if trimSpace routed ≠ "" then routed else "default"
  | none => "default"

/-- `recordCDCEvent`. -/
def recordCDCEvent (c : Call) (seq : UInt64) : CDCStreamStore :=
  if seq = 0 then s.store else s.store.append (c.event (s.recordShard c.key) seq)

/-- The step of a call. -/
def callAct (i : ℕ) (c : Call) : Step → Option State
  | .refuse _ =>
    match c.phase with
    | .waiting => some (s.move i c .failed)
    | .locked => some { s.move i c .failed with holder := none }
    | _ => none
  | .lock _ =>
    if c.phase = .waiting ∧ s.holder = none then
      some { s.move i c .locked with holder := some i }
    else none
  | .commit _ =>
    -- `nextCommit`
    if c.phase = .locked then
      some { s.move i c (.committed (s.index + 1)) with index := s.index + 1 }
    else none
  | .apply _ ok =>
    -- `applyCommittedData` takes no entry with the number zero
    match c.phase with
    | .committed seq =>
      some { s.move i c (if ok ∧ seq ≠ 0 then .recording seq else .failed) with holder := none }
    | _ => none
  | .record _ =>
    match c.phase with
    | .recording seq => some { s.move i c .acknowledged with store := s.recordCDCEvent c seq }
    | _ => none
  | _ => none

/-- A consumer reads on from the offset at which the last page has
ended. -/
def readNext (c : Consumer) (known : Option (List String)) (limit : ℤ) : Consumer :=
  match readCDCEvents s.store known c.shardID c.reader.offset limit with
  | .error _ => c
  | .ok result =>
    { c with reader := { c.reader with
        offset := result.nextOffset, received := c.reader.received ++ result.events } }

/-- One step. -/
def act : Step → Option State
  | .call operation key value =>
    some { s with calls := s.calls ++
      [⟨operation, key, value, if accepts operation key value then .waiting else .failed⟩] }
  | .commitControl => some { s with index := s.index + 1 }
  | .reroute route => some { s with route := route }
  | .consume shardID offset =>
    some { s with consumers := s.consumers ++ [⟨shardID, offset, offset, []⟩] }
  | .read k known limit =>
    s.consumers[k]?.map fun c =>
      { s with consumers := s.consumers.set k (s.readNext c known limit) }
  | .refuse i => s.calls[i]?.bind fun c => s.callAct i c (.refuse i)
  | .lock i => s.calls[i]?.bind fun c => s.callAct i c (.lock i)
  | .commit i => s.calls[i]?.bind fun c => s.callAct i c (.commit i)
  | .apply i ok => s.calls[i]?.bind fun c => s.callAct i c (.apply i ok)
  | .record i => s.calls[i]?.bind fun c => s.callAct i c (.record i)

end State

end LSMEngine.Cdc
