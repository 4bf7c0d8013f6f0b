import LSMEngine.Common.Runs
import LSMEngine.Wal.Model.Log
/-!
# WAL — async mode

The goroutines of an async log: calls of `appendAsync`, the call of
`closeAsync` that wins the flag, and the one writer, `runWriter`. They
share the closed flag, the buffered channels `reqCh` and `closeCh` and
the channel `doneCh`, which the writer closes when it returns. A request
brings a reply channel of its own with room for one reply.

A step is one channel operation, one access to the flag, or what the
writer does with the lock held. Where a `select` has several ready
cases, the step names the one that is taken; a `default` is taken only
if no case is ready.
-/

namespace LSMEngine.Wal

namespace Async

/-- Where a call of `appendAsync` stands. -/
inductive Call
  /-- The flag was read as open; the call is in its `select`. -/
  | checked (e : Entry)
  /-- The request was sent; the call is at `<-req.done`. -/
  | waiting
  /-- The call has returned what it was told. -/
  | answered (reply : Option Err)
  /-- The call has returned `ErrWALClosed` without a request. -/
  | refused
  deriving DecidableEq, Repr

/-- An `appendRequest`, under the number of its call. -/
structure Request where
  call : ℕ
  entry : Entry
  deriving DecidableEq, Repr

/-- Where the call of `closeAsync` that swapped the flag stands. -/
inductive Closer
  | idle
  | swapped
  | waiting
  | returned (answer : Option Err)
  deriving DecidableEq, Repr

/-- Where `processBatch` returns to. -/
inductive Caller
  /-- the loop of `runWriter` -/
  | loop
  /-- the loop of `drainAndClose`, for a full batch -/
  | drain
  /-- its `default`, for the last batch -/
  | last
  deriving DecidableEq, Repr

/-- Where the writer stands. -/
inductive Writer
  | select
  | collect (batch : List Request)
  | process (batch : List Request) (caller : Caller)
  | reply (rest : List (ℕ × Option Err)) (fatal : Option Err) (caller : Caller)
  | drain (pending : List Request)
  | abort (err : Err)
  | finish
  | respond (answer : Option Err)
  | leave
  | done
  deriving DecidableEq, Repr

/-- An async log with everyone who uses it. The replies are those put
into the channels of the requests, in the order they were. -/
structure State where
  world : World
  depth : ℕ
  calls : List Call
  reqCh : List Request
  closed : Bool
  closer : Closer
  closeCh : Bool
  resp : Option (Option Err)
  writer : Writer
  replies : List (ℕ × Option Err)
  deriving DecidableEq, Repr

/-- The log `NewWAL` returns, with a queue of that depth. -/
def start (depth : ℕ) (w : World) : State :=
  ⟨w, depth, [], [], false, .idle, false, none, .select, []⟩

/-- The steps, with the choice a `select` leaves open. -/
inductive Step
  | append (e : Entry)
  | send (i : ℕ)
  | observe (i : ℕ)
  | receive (i : ℕ)
  | close
  | sendClose
  | closeReturn
  | takeRequest
  | takeClose
  | advance
  deriving DecidableEq, Repr

/-! ## The writer -/

/-- `processBatch` syncs in the loop if the log does, and not in the
drain. -/
def Caller.syncNow (c : Caller) (w : WAL) : Bool :=
  match c with
  | .loop => w.sync
  | .drain | .last => false

/-- `processBatch` up to its replies. -/
def State.process (s : State) (batch : List Request) (caller : Caller) : State :=
  let r := processBatch (batch.map Request.entry) (caller.syncNow s.world.wal) s.world
  { s with
    world := r.2.2
    writer := .reply ((batch.map Request.call).zip r.1.errs) r.2.1 caller }

/-- What follows once every request of a batch has its reply. -/
def afterBatch : Option Err → Caller → Writer
  | _, .loop => .select
  | some err, _ => .abort err
  | none, .drain => .drain []
  | none, .last => .finish

/-- The one step the writer can make, outside of its `select`. -/
def State.advance (s : State) : Option State :=
  match s.writer with
  | .select | .done => none
  | .collect batch =>
    if s.world.wal.batchMax = 0 ∨ (batch.length : ℤ) < s.world.wal.batchMax then
      match s.reqCh with
      | req :: queue => some { s with reqCh := queue, writer := .collect (batch ++ [req]) }
      | [] => some { s with writer := .process batch .loop }
    else some { s with writer := .process batch .loop }
  | .process batch caller => some (s.process batch caller)
  | .reply (told :: rest) fatal caller =>
    some { s with replies := s.replies ++ [told], writer := .reply rest fatal caller }
  | .reply [] fatal caller => some { s with writer := afterBatch fatal caller }
  | .drain pending =>
    match s.reqCh with
    | req :: queue =>
      if 0 < s.world.wal.batchMax ∧ s.world.wal.batchMax ≤ (pending.length + 1 : ℕ) then
        some { s with reqCh := queue, writer := .process (pending ++ [req]) .drain }
      else some { s with reqCh := queue, writer := .drain (pending ++ [req]) }
    | [] =>
      if pending = [] then some { s with writer := .finish }
      else some { s with writer := .process pending .last }
  | .abort err => some { s with world := (closeFile s.world).2, writer := .respond (some err) }
  | .finish =>
    let r := finishClose s.world
    some { s with world := r.2, writer := .respond r.1 }
  | .respond answer => some { s with resp := some answer, writer := .leave }
  -- the deferred `close(w.doneCh)`
  | .leave => some { s with writer := .done }

/-! ## Everyone -/

/-- The state after a call has gone on. -/
def State.setCall (s : State) (i : ℕ) (c : Call) : State := { s with calls := s.calls.set i c }

/-- One step. -/
def act (s : State) : Step → Option State
  | .append e =>
    some { s with calls := s.calls ++ [if s.closed then .refused else .checked e] }
  | .send i =>
    match s.calls[i]? with
    | some (.checked e) =>
      if s.reqCh.length < s.depth then
        some { s.setCall i .waiting with reqCh := s.reqCh ++ [⟨i, e⟩] }
      else none
    | _ => none
  | .observe i =>
    match s.calls[i]? with
    | some (.checked _) => if s.writer = .done then some (s.setCall i .refused) else none
    | _ => none
  | .receive i =>
    match s.calls[i]?, s.replies.lookup i with
    | some .waiting, some told => some (s.setCall i (.answered told))
    | _, _ => none
  | .close =>
    -- whoever comes second returns at once
    if s.closed then some s else some { s with closed := true, closer := .swapped }
  | .sendClose =>
    if s.closer = .swapped then some { s with closeCh := true, closer := .waiting } else none
  | .closeReturn =>
    match s.closer, s.resp with
    | .waiting, some answer => some { s with closer := .returned answer }
    | _, _ => none
  | .takeRequest =>
    match s.writer, s.reqCh with
    | .select, req :: queue => some { s with reqCh := queue, writer := .collect [req] }
    | _, _ => none
  | .takeClose =>
    if s.writer = .select ∧ s.closeCh then
      some { s with closeCh := false, writer := .drain [] }
    else none
  | .advance => s.advance

end Async

end LSMEngine.Wal
