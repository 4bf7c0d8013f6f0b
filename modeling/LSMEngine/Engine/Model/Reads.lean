import LSMEngine.Engine.Model.Memtable
import LSMEngine.Tables.Model.Edits
/-!
# Engine — a read in steps

`readService.Get` and `LSM.GetContext` search the memtables and then one
table after the other, while tables are edited, closed and removed. `Get`
copies the list of handles and goes on; `GetContext` pins the tables it is
going to read, in the same critical section in which it has searched the
memtables, and lets them go when it returns.

The memtables do not change here: nothing is written, and nothing flushed.
A read through a closed handle fails; `Get` takes the failure for absence,
`GetContext` returns it.
-/

namespace LSMEngine.Engine

open Tables (Table Store)

/-- The two ways to read. -/
inductive ReadKind
  | get
  | getContext
  deriving DecidableEq

/-- Why a table cannot be read. -/
inductive ReadError
  | closed
  deriving DecidableEq

/-- How far a read has come: the memtables do not have the key; tables are
still to be read, pinned by this hold or not; it has returned. -/
inductive Reader
  | idle
  | missed
  | reading (rest : List Table) (hold : Option ℕ)
  | done (result : Except ReadError (Option Entry))
  deriving DecidableEq

/-- The pins of a read under way. -/
def Reader.hold : Reader → Option ℕ
  | .reading _ hold => hold
  | _ => none

/-- What the caller is told: the entry, unless it is a tombstone. -/
def shown (e : Option Entry) : Option Entry := e.filter fun e => !e.tombstone

/-- One read, and the tables. -/
structure Scene where
  store : Store
  /-- The active memtable, then the frozen ones from new to old. -/
  mems : List Memtable
  reader : Reader

namespace Scene

/-- The memtables. -/
def searchMems (s : Scene) (k : Bytes) : Option Entry := s.mems.findSome? fun m => m.get k

/-- What there is to be seen under a key. -/
def visible (s : Scene) (k : Bytes) : Option Entry :=
  shown ((s.searchMems k).or (Tables.search s.store.set.tables k))

/-- `GetView` and `GetViewContext`, up to what is done with the error. -/
def readTable (s : Scene) (t : Table) (k : Bytes) : Except ReadError (Option Entry) :=
  if t.path ∈ s.store.closed then .error .closed else .ok (t.handle.get k)

/-- The next step of the read. -/
def stepReader (kind : ReadKind) (k : Bytes) (s : Scene) : Option Scene :=
  match s.reader with
  | .idle =>
    match s.searchMems k, kind with
    | some e, _ => some { s with reader := .done (.ok (shown (some e))) }
    | none, .get => some { s with reader := .missed }
    | none, .getContext =>
      (s.store.act .pin).map fun store =>
        { s with
          store := store
          reader := .reading s.store.set.tables (some s.store.holds.length) }
  | .missed => some { s with reader := .reading s.store.set.tables none }
  | .reading [] _ => some { s with reader := .done (.ok none) }
  | .reading (t :: rest) hold =>
    match s.readTable t k, kind with
    | .ok (some e), _ => some { s with reader := .done (.ok (shown (some e))) }
    | .ok none, _ => some { s with reader := .reading rest hold }
    | .error _, .get => some { s with reader := .reading rest hold }
    | .error err, .getContext => some { s with reader := .done (.error err) }
  | .done _ => none

/-- What can happen: the read goes on, or the tables change. -/
inductive Event
  | step
  | tables (a : Store.Event)

/-- The tables a read has pinned are its own to let go, when it returns. -/
def Owns (s : Scene) : Store.Event → Prop
  | .unpin j => s.reader.hold = some j
  | _ => False

instance (s : Scene) (a : Store.Event) : Decidable (s.Owns a) :=
  match a with
  | .unpin j => inferInstanceAs (Decidable (s.reader.hold = some j))
  | .plan .. | .apply _ | .store .. | .clean _ | .pin | .cleanHold _ =>
    inferInstanceAs (Decidable False)

/-- One step, where it can be taken. -/
def act (kind : ReadKind) (k : Bytes) (s : Scene) : Event → Option Scene
  | .step => s.stepReader kind k
  | .tables a =>
    if s.Owns a then none else (s.store.act a).map fun store => { s with store := store }

end Scene

end LSMEngine.Engine
