import LSMEngine.Common.Pages
import LSMEngine.Control.Model.State
/-!
# Change streams — the store

`cdcStreamStore` keeps, for each shard, the last events of the writes to
it: `append` adds one and lets the oldest go, `read` gives a page of those
beyond an offset, and `ReadCDCEvents` finds the shard first.

The time of an event, which nothing reads, is left out.
-/

namespace LSMEngine.Cdc

open Control (trimSpace)

/-! ## Events -/

/-- `"put"` and `"delete"`. -/
inductive Operation
  | put
  | delete
  deriving DecidableEq, Repr

/-- `CDCEvent`. -/
structure CDCEvent where
  offset : UInt64
  shardID : String
  operation : Operation
  key : Bytes
  value : Bytes
  tombstone : Bool
  deriving DecidableEq, Repr

/-- `CDCReadResult`. -/
structure CDCReadResult where
  shardID : String
  fromOffset : UInt64
  nextOffset : UInt64
  oldestOffset : UInt64
  droppedBefore : Bool
  events : List CDCEvent
  deriving DecidableEq, Repr

/-- The errors of a read. -/
inductive ReadErr
  | shardNotFound
  | shardIDRequired
  deriving DecidableEq, Repr

/-! ## The store -/

/-- `cdcStreamStore`. There is room for an event in every stream. -/
structure CDCStreamStore where
  capacity : ℕ
  shards : AList fun _ : String => List CDCEvent
  pos : 0 < capacity

def defaultCDCReadLimit : ℤ := 100
def maxCDCReadLimit : ℤ := 1000
def defaultCDCMaxEventsPerShard : ℕ := 4096

/-- The capacity of a new store. -/
def storeCapacity (capacity : ℤ) : ℕ :=
  if capacity ≤ 0 then defaultCDCMaxEventsPerShard else capacity.toNat

theorem storeCapacity_pos (capacity : ℤ) : 0 < storeCapacity capacity := by
  rw [storeCapacity]
  split
  · exact Nat.succ_pos _
  · omega

/-- `newCDCStreamStore`. -/
def newCDCStreamStore (capacity : ℤ) : CDCStreamStore :=
  ⟨storeCapacity capacity, ∅, storeCapacity_pos capacity⟩

namespace CDCStreamStore

variable (s : CDCStreamStore)

/-- The events of a shard. -/
def stream (shardID : String) : List CDCEvent := (s.shards.lookup shardID).getD []

/-- A stream with room for one more event. -/
def push (stream : List CDCEvent) (event : CDCEvent) : List CDCEvent :=
  let stream := stream ++ [event]
  if s.capacity < stream.length then stream.drop (stream.length - s.capacity) else stream

/-- `append`. -/
def append (event : CDCEvent) : CDCStreamStore :=
  let event := { event with shardID := trimSpace event.shardID }
  if event.shardID = "" ∨ event.offset = 0 then s
  else { s with shards := s.shards.insert event.shardID (s.push (s.stream event.shardID) event) }

end CDCStreamStore

/-- `normalizeCDCReadLimit`. -/
def normalizeCDCReadLimit (limit : ℤ) : ℤ :=
  if limit ≤ 0 then defaultCDCReadLimit
  else if limit > maxCDCReadLimit then maxCDCReadLimit
  else limit

/-- `emptyCDCReadResult`. -/
def emptyCDCReadResult (shardID : String) (offset : UInt64) : CDCReadResult :=
  ⟨trimSpace shardID, offset, offset, 0, false, []⟩

/-- The loop of `read` over the events of a stream. -/
def readLoop (offset : UInt64) (limit : ℤ) (out : CDCReadResult) : List CDCEvent → CDCReadResult
  | [] => out
  | event :: events =>
    if event.offset ≤ offset then readLoop offset limit out events
    else
      let out := { out with events := out.events ++ [event], nextOffset := event.offset }
      if limit ≤ out.events.length then out else readLoop offset limit out events

/-- What `read` makes of a stream. -/
def readStream (shardID : String) (offset : UInt64) (limit : ℤ) (stream : List CDCEvent) :
    CDCReadResult :=
  let out := emptyCDCReadResult shardID offset
  match stream with
  | [] => out
  | oldest :: _ =>
    readLoop offset limit { out with
      oldestOffset := oldest.offset
      droppedBefore := oldest.offset > 0 ∧ offset + 1 < oldest.offset } stream

/-- `read`. -/
def CDCStreamStore.read (s : CDCStreamStore) (shardID : String) (offset : UInt64) (limit : ℤ) :
    Except ReadErr CDCReadResult :=
  if trimSpace shardID = "" then .error .shardIDRequired
  else
    match s.shards.lookup (trimSpace shardID) with
    | none => .error .shardNotFound
    | some stream =>
      .ok (readStream (trimSpace shardID) offset (normalizeCDCReadLimit limit) stream)

/-- The shard that `ReadCDCEvents` reads, given the ids of those that the
control plane knows: an empty id stands for the only one. -/
def readShard (known : List String) (shardID : String) : String :=
  if shardID = "" ∧ known.length = 1 then known.headD "" else shardID

/-- `ReadCDCEvents` with a control plane, which knows the shards with the
given ids, or without. -/
def readCDCEvents (s : CDCStreamStore) (known : Option (List String)) (shardID : String)
    (offset : UInt64) (limit : ℤ) : Except ReadErr CDCReadResult :=
  match known with
  | none => s.read (trimSpace shardID) offset limit
  | some known =>
    let shardID := readShard known (trimSpace shardID)
    if shardID ≠ "" ∧ shardID ∉ known then .error .shardNotFound
    else
      match s.read shardID offset limit with
      | .error .shardNotFound =>
        if shardID ∈ known then .ok (emptyCDCReadResult shardID offset) else .error .shardNotFound
      | result => result

end LSMEngine.Cdc
