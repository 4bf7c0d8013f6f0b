import LSMEngine.Engine.Model.Memtable
import LSMEngine.Format.Model.Reader
/-!
# Engine — `GetContext` over tables with blocks

`LSM.GetContext` searches the memtables and then the tables, through the
readers of the table format: their filters, indexes, data blocks and
caches. The first failure of a table is returned.

What the context and the engine answer where they are asked is a
parameter (`Signals`), and so are the sources the tables are read from.
The pins are left out.
-/

namespace LSMEngine.Engine

open Format (Platform Source State Fault)

/-- What the context says, and whether the engine is closing. -/
structure Signals where
  /-- `ctx.Err()` on entry. -/
  entry : Option Fault
  closing : Bool
  /-- `readLockContext` of `readMu`. -/
  readLock : Option Fault
  /-- `isClosing` under `readMu`. -/
  closed : Bool
  /-- `readLockContext` of `memMu`. -/
  memLock : Option Fault
  /-- `ctx.Err()` where a memtable has the key. -/
  hit : Option Fault
  /-- `ctx.Err()` at a table. -/
  table : ℕ → Option Fault
  /-- `ctx.Err()` behind the tables. -/
  last : Option Fault

/-- `if err := …; err != nil { return err }`. -/
def failOn (err : Option Fault) : Except Fault Unit :=
  match err with
  | some f => .error f
  | none => .ok ()

/-- A table that is open. -/
structure Opened where
  reader : Format.Reader
  state : State

/-- The loop of `GetContext` over the tables. -/
def searchTables (P : Platform) (src : ℕ → Source) (ctx : ℕ → Option Fault) (k : Bytes) :
    ℕ → List Opened → Except Fault (Option EntryView) × List Opened
  | _, [] => (.ok none, [])
  | i, t :: ts =>
    let (res, s) := (t.reader.getViewContext P (src i) (ctx i) k).exec t.state
    match res with
    | .error f => (.error f, { t with state := s } :: ts)
    | .ok (some v) => (.ok (some v), { t with state := s } :: ts)
    | .ok none =>
      let (res, ts) := searchTables P src ctx k (i + 1) ts
      (res, { t with state := s } :: ts)

/-- `types.Entry{}`. -/
def noEntry : Entry := ⟨[], [], false, 0⟩

/-- The checks ahead of the search. -/
def checkSignals (sig : Signals) : Except Fault Unit := do
  failOn sig.entry
  failOn (if sig.closing then some .closed else none)
  failOn sig.readLock
  failOn (if sig.closed then some .closed else none)
  failOn sig.memLock

/-- `GetContext`: the entry and whether it is there, and the tables after
it. The memtables are the active one and the frozen ones from new to
old. -/
def getContext (P : Platform) (src : ℕ → Source) (sig : Signals) (mems : List Memtable) (k : Bytes)
    (ts : List Opened) : Except Fault (Entry × Bool) × List Opened :=
  match checkSignals sig with
  | .error f => (.error f, ts)
  | .ok () =>
    match mems.findSome? fun m => m.get k with
    | some e =>
      (match sig.hit with
        | some f => .error f
        | none => .ok (e, !e.tombstone), ts)
    | none =>
      let (res, ts) := searchTables P src sig.table k 0 ts
      (match res with
        | .error f => .error f
        | .ok (some v) => .ok (v.entry, !v.tombstone)
        | .ok none =>
          match sig.last with
          | some f => .error f
          | none => .ok (noEntry, false), ts)

end LSMEngine.Engine
