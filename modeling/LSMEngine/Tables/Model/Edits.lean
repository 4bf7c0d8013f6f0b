import LSMEngine.Common.Runs
import LSMEngine.Tables.Model.Manifest
/-!
# Tables — edits in steps

`tableedit.Service.Apply` is no critical section: it edits the table set,
then the manifest, then closes and removes the tables that left the set,
and other calls, and callers that pin tables, come in between. A store is
the set, the manifest and the files, with the calls and the pins under
way. One event is one step of one of them.

A call is planned on the set as it is: the tables it removes are in the
set then, and those it adds have new paths and are on disk.
-/

namespace LSMEngine.Tables

/-- Tables to be cleaned up: first every handle is closed, then every file
removed (`Apply` and `cleanupTables` have the same two loops). -/
inductive Cleanup
  | closing (rest all : List Table)
  | removing (rest : List Table)
  deriving DecidableEq

/-- How far a call of `Apply` has come: the set is edited, and `removed`
has left it for good; the manifest is stored; or could not be stored. -/
inductive Phase
  | planned
  | applied (removed : List Table)
  | stored (cleanup : Cleanup)
  | failed
  deriving DecidableEq

/-- A call of `Apply`. -/
structure Call where
  edit : Edit
  walSeq : UInt64
  phase : Phase

/-- A caller that has pinned tables, until it has cleaned up what `Unpin`
returned. -/
inductive Hold
  | holding (tables : List Table)
  | released (cleanup : Cleanup)
  deriving DecidableEq

/-- The tables of an engine, and what is under way. -/
structure Store where
  set : TableSet
  manifest : Manifest
  /-- The table files there are. -/
  files : List String
  /-- The tables whose handle is closed. -/
  closed : List String
  /-- Every call of `Apply`. -/
  calls : List Call
  /-- Every caller of `SnapshotAndPin`. -/
  holds : List Hold
  /-- Every path there ever was. -/
  used : List String

namespace Store

/-- A store at rest: the manifest lists the set, and the files are there. -/
def new (tables : List Table) (walSeq : UInt64) : Store :=
  ⟨TableSet.new tables, ⟨walSeq, (TableSet.new tables).tables.map Table.metadata⟩,
    tables.map Table.path, [], [], [], tables.map Table.path⟩

/-- One step of a cleanup. -/
def clean (s : Store) : Cleanup → Option (Store × Cleanup)
  | .closing (t :: rest) all => some ({ s with closed := t.path :: s.closed }, .closing rest all)
  | .closing [] all => some (s, .removing all)
  | .removing (t :: rest) =>
    some ({ s with files := s.files.filter fun p => p ≠ t.path }, .removing rest)
  | .removing [] => none

/-- What can happen. -/
inductive Event
  | plan (e : Edit) (walSeq : UInt64)
  | apply (i : ℕ)
  | store (i : ℕ) (ok : Bool)
  | clean (i : ℕ)
  | pin
  | unpin (j : ℕ)
  | cleanHold (j : ℕ)

/-- The tables a call adds are new, and those it removes are there. -/
def Sound (s : Store) (e : Edit) : Prop :=
  (e.add.map Table.path).Nodup ∧ (∀ p ∈ e.add.map Table.path, p ∉ s.used) ∧
    ∀ p ∈ e.removePath, p ∈ s.set.tables.map Table.path

instance (s : Store) (e : Edit) : Decidable (s.Sound e) :=
  inferInstanceAs (Decidable (_ ∧ _ ∧ _))

/-- The call goes on to a phase. -/
def goOn (s : Store) (i : ℕ) (c : Call) (phase : Phase) : Store :=
  { s with calls := s.calls.set i { c with phase := phase } }

/-- One step, where it can be taken. -/
def act (s : Store) : Event → Option Store
  | .plan e walSeq =>
    if s.Sound e then
      some
        { s with
          calls := s.calls ++ [⟨e, walSeq, .planned⟩]
          files := s.files ++ e.add.map Table.path
          used := s.used ++ e.add.map Table.path }
    else none
  | .apply i =>
    match s.calls[i]? with
    | some ⟨e, walSeq, .planned⟩ =>
      let (set, removed) := s.set.apply e
      some ({ s with set := set }.goOn i ⟨e, walSeq, .planned⟩ (.applied removed))
    | _ => none
  | .store i ok =>
    match s.calls[i]? with
    | some ⟨e, walSeq, .applied removed⟩ =>
      if ok then
        some
          ({ s with
              manifest := s.manifest.edit (e.add.map Table.metadata) e.removePath walSeq }.goOn i
            ⟨e, walSeq, .applied removed⟩ (.stored (.closing removed removed)))
      else some (s.goOn i ⟨e, walSeq, .applied removed⟩ .failed)
    | _ => none
  | .clean i =>
    match s.calls[i]? with
    | some ⟨e, walSeq, .stored cleanup⟩ =>
      (s.clean cleanup).map fun (s', cleanup') =>
        s'.goOn i ⟨e, walSeq, .stored cleanup⟩ (.stored cleanup')
    | _ => none
  | .pin =>
    let (tables, set) := s.set.snapshotAndPin
    some { s with set := set, holds := s.holds ++ [.holding tables] }
  | .unpin j =>
    match s.holds[j]? with
    | some (.holding tables) =>
      let (set, ready) := s.set.unpin (tables.map Table.path)
      some { s with set := set, holds := s.holds.set j (.released (.closing ready ready)) }
    | _ => none
  | .cleanHold j =>
    match s.holds[j]? with
    | some (.released cleanup) =>
      (s.clean cleanup).map fun (s', cleanup') =>
        { s' with holds := s'.holds.set j (.released cleanup') }
    | _ => none

end Store

end LSMEngine.Tables
