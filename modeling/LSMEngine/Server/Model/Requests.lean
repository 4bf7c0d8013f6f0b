import Mathlib.Algebra.Order.Ring.Nat
import Mathlib.Data.List.AList
/-!
# Server — tracking write requests

`writeRequestStore` numbers the write requests of a server and keeps their
states: a request is pending from its `New` until the `Commit` or the
`Reject` of the handler that runs it, and the oldest finished requests go
when there are more than the limit (`compactLocked`).

`New` takes the number before the lock, so others can come in between:
the two are two steps of a call. The times, the operation and the
consistency of a request, which the store only keeps, are left out.
-/

namespace LSMEngine.Server

/-- `WriteRequestState`. -/
inductive WriteRequestState
  | pending
  | committed
  | rejected
  deriving DecidableEq, Repr

/-- `WriteRequestStatus`. -/
structure WriteRequestStatus where
  requestID : String
  state : WriteRequestState
  error : String
  deriving DecidableEq, Repr

/-- `defaultWriteRequestCapacity`. -/
def defaultWriteRequestCapacity : ℕ := 4096

/-- The statuses under their ids. -/
abbrev Statuses := AList fun _ : String => WriteRequestStatus

/-- `writeRequestStore`. -/
structure WriteRequestStore where
  max : ℕ
  seq : UInt64
  order : List String
  statusMap : Statuses

/-- `newWriteRequestStore`. -/
def newWriteRequestStore (max : ℤ) : WriteRequestStore :=
  ⟨if max ≤ 0 then defaultWriteRequestCapacity else max.toNat, 0, [], ∅⟩

/-- The loop of `compactLocked`: what is kept of the order, and the
statuses that are left. -/
def compactLoop : ℕ → List String → Statuses → List String × Statuses
  | _, [], statusMap => ([], statusMap)
  | drop, id :: order, statusMap =>
    match statusMap.lookup id with
    | none => compactLoop drop order statusMap
    | some status =>
      if 0 < drop ∧ status.state ≠ .pending then
        compactLoop (drop - 1) order (statusMap.erase id)
      else
        let rest := compactLoop drop order statusMap
        (id :: rest.1, rest.2)

namespace WriteRequestStore

variable (s : WriteRequestStore)

/-- `compactLocked`. -/
def compact : WriteRequestStore :=
  if s.order.length ≤ s.max then s
  else
    let kept := compactLoop (s.order.length - s.max) s.order s.statusMap
    { s with order := kept.1, statusMap := kept.2 }

/-- The id of a number. -/
def requestID (n : UInt64) : String := "wr-" ++ toString n.toNat

/-- `New` under its lock, with the number it has taken. -/
def insert (n : UInt64) : WriteRequestStore :=
  let id := requestID n
  compact { s with
    statusMap := s.statusMap.insert id ⟨id, .pending, ""⟩
    order := s.order ++ [id] }

/-- `Commit` and `Reject`, which come with no error and with one. -/
def finish (id : String) (err : Option String) : WriteRequestStore :=
  let status := (s.statusMap.lookup id).getD ⟨"", .pending, ""⟩
  { s with
    statusMap := s.statusMap.insert id { status with
      state := if err.isNone then .committed else .rejected
      error := err.getD "" } }

/-- `Get`. -/
def get (id : String) : Option WriteRequestStatus := s.statusMap.lookup id

end WriteRequestStore

/-! ## Handlers -/

/-- Where the handler of a request is: it has a number; its `New` has
returned an id; it has finished the request. -/
inductive Handler
  | numbered (n : UInt64)
  | running (id : String)
  | done
  deriving DecidableEq, Repr

/-- A store with the handlers that use it. -/
structure Tracker where
  store : WriteRequestStore
  handlers : List Handler

/-- What a handler does: a new one takes a number; it does the rest of
`New`; it finishes its request. And anyone may look a request up. -/
inductive Step
  | number
  | new (i : ℕ)
  | finish (i : ℕ) (err : Option String)
  | get (id : String)
  deriving DecidableEq, Repr

namespace Tracker

/-- A server that starts. -/
def start (max : ℤ) : Tracker := ⟨newWriteRequestStore max, []⟩

/-- One step. -/
def act (s : Tracker) : Step → Option Tracker
  | .number =>
    let n := s.store.seq + 1
    some ⟨{ s.store with seq := n }, s.handlers ++ [.numbered n]⟩
  | .new i =>
    match s.handlers[i]? with
    | some (.numbered n) =>
      some ⟨s.store.insert n, s.handlers.set i (.running (WriteRequestStore.requestID n))⟩
    | _ => none
  | .finish i err =>
    match s.handlers[i]? with
    | some (.running id) => some ⟨s.store.finish id err, s.handlers.set i .done⟩
    | _ => none
  | .get _ => some s

end Tracker

end LSMEngine.Server
