import LSMEngine.Common.Runs
import LSMEngine.Engine.Model.State
/-!
# Engine — the way of a memtable to its table

The flush pipeline alone, with every caller of `flushService.enqueue`: a
writer whose memtable is full, `Snapshot.Close`, and the shutdown, which
goes through the frozen memtables one after the other. A call reads the
entries of its memtable, appends the memtable to the flush queue, and
sends the entries to the dispatcher's channel, in three steps; a full
channel leaves the entries with a goroutine that waits for room. When a
table is written, `onFlush` drops the head of the flush queue.

What is sent carries the memtable it was read from, which the source does
not have: it is what `onFlush` would have to know. A write is one step,
so that there is no writer to wait for; a call that has passed the check
for a shutdown may come after it.
-/

namespace LSMEngine.Engine

/-- Who calls `enqueue`. -/
inductive Caller
  | writer
  | snapshot
  | shutdown
  deriving DecidableEq

/-- Entries, and the memtable they were read from. -/
structure Batch where
  id : ℕ
  entries : List Entry
  deriving DecidableEq

/-- A call of `enqueue` that has not come to the flush queue: before or
after it has read the entries. -/
structure FlushCall where
  caller : Caller
  id : ℕ
  entries : Option (List Entry)
  deriving DecidableEq

/-- A table is complete: what was written, what was dropped, and what the
dropped memtable held. -/
structure Completion where
  batch : Batch
  dropped : Option ℕ
  held : List Entry
  deriving DecidableEq

/-- The flush pipeline. -/
structure Flushing where
  mems : Mems
  /-- The memtable each snapshot has pinned, until it is closed. -/
  snapshots : List (Option ℕ)
  /-- The memtables a shutdown has still to look at. -/
  closing : List ℕ
  calls : List FlushCall
  /-- In the flush queue, and not at `Enqueue` yet. -/
  sending : List (Caller × Batch)
  /-- In `EnqueueBlocking`. -/
  blocked : List Batch
  channel : List Batch
  /-- What the dispatcher has taken. -/
  stage : Option Batch
  completions : List Completion

namespace Flushing

def init : Flushing := ⟨.init, [], [], [], [], [], [], none, []⟩

/-- The caller is in no other call: a writer holds the commit lock, and a
shutdown makes its calls one by one. -/
def Free (s : Flushing) (caller : Caller) : Prop :=
  (∀ c ∈ s.calls, c.caller ≠ caller) ∧ ∀ c ∈ s.sending, c.1 ≠ caller

instance (s : Flushing) (caller : Caller) : Decidable (s.Free caller) :=
  inferInstanceAs (Decidable (_ ∧ _))

/-- `enqueue` is called. -/
def call (s : Flushing) (caller : Caller) (id : ℕ) : Flushing :=
  { s with calls := s.calls ++ [⟨caller, id, none⟩] }

/-- What can happen. -/
inductive Event
  | write (e : Entry)
  | freezeFull (reuse : Option ℕ)
  | openSnapshot (reuse : Option ℕ)
  | closeSnapshot (i : ℕ)
  | shutdown (reuse : Option ℕ)
  | closeNext
  | capture (j : ℕ)
  | append (j : ℕ)
  | send (j : ℕ)
  | unblock (i : ℕ)
  | take
  | complete

/-- `CanEnqueue`. -/
def canEnqueue (cfg : Config) (s : Flushing) : Bool := s.channel.length < cfg.queueSize

/-- One step, where it can be taken. -/
def act (cfg : Config) (s : Flushing) : Event → Option Flushing
  | .write e => some { s with mems := s.mems.write s.mems.mem e }
  | .freezeFull reuse =>
    -- `triggerFlush`
    if cfg.mtLimit ≤ (s.mems.heap s.mems.mem).size ∧ s.Free .writer then
      (s.mems.freeze reuse).map fun m => { s with mems := m }.call .writer s.mems.mem
    else none
  | .openSnapshot reuse =>
    (s.mems.freeze reuse).map fun m =>
      { s with mems := m.pin s.mems.mem, snapshots := s.snapshots ++ [some s.mems.mem] }
  | .closeSnapshot i =>
    match s.snapshots[i]? with
    | some (some id) =>
      let (m, flush) := s.mems.unpin id
      let s' := { s with mems := m, snapshots := s.snapshots.set i none }
      some (if flush then s'.call .snapshot id else s')
    | _ => none
  | .shutdown reuse =>
    -- `flushOnClose`
    (s.mems.freeze reuse).map fun m => { s with mems := m, closing := m.immutables }
  | .closeNext =>
    match s.closing with
    | id :: rest =>
      if id ∈ s.mems.flushQueue then some { s with closing := rest }
      else if s.Free .shutdown then some ({ s with closing := rest }.call .shutdown id)
      else none
    | [] => none
  | .capture j =>
    match s.calls[j]? with
    | some ⟨caller, id, none⟩ =>
      some { s with calls := s.calls.set j ⟨caller, id, some (s.mems.heap id).entries⟩ }
    | _ => none
  | .append j =>
    match s.calls[j]? with
    | some ⟨_, id, some []⟩ =>
      some
        { s with
          mems := (s.mems.removeImmutable id).recycle cfg.pooled id
          calls := s.calls.eraseIdx j }
    | some ⟨caller, id, some (e :: es)⟩ =>
      some
        { s with
          mems := { s.mems with flushQueue := s.mems.flushQueue ++ [id] }
          calls := s.calls.eraseIdx j
          sending := s.sending ++ [(caller, ⟨id, e :: es⟩)] }
    | _ => none
  | .send j =>
    match s.sending[j]? with
    | some (_, b) =>
      if s.canEnqueue cfg then
        some { s with sending := s.sending.eraseIdx j, channel := s.channel ++ [b] }
      else some { s with sending := s.sending.eraseIdx j, blocked := s.blocked ++ [b] }
    | none => none
  | .unblock i =>
    match s.blocked[i]? with
    | some b =>
      if s.canEnqueue cfg then
        some { s with blocked := s.blocked.eraseIdx i, channel := s.channel ++ [b] }
      else none
    | none => none
  | .take =>
    match s.stage, s.channel with
    | none, b :: rest => some { s with channel := rest, stage := some b }
    | _, _ => none
  | .complete =>
    -- `onFlush`
    match s.stage with
    | some b =>
      some
        { s with
          mems := s.mems.popFlushedTable cfg.pooled
          stage := none
          completions := s.completions ++
            [⟨b, s.mems.flushQueue.head?,
              (s.mems.flushQueue.head?.map fun id => (s.mems.heap id).entries).getD []⟩] }
    | none => none

end Flushing

end LSMEngine.Engine
