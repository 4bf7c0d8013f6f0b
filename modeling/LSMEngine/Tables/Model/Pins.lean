import LSMEngine.Common.Runs
import LSMEngine.Tables.Model.Set
/-!
# Tables — callers that pin

The table set together with the callers that have its tables pinned. A
caller takes what `SnapshotAndPin` returns and later hands the paths of
it to `Unpin`, once; edits come in between, and bring tables under paths
that were never used. What edits took out of the set, and what was
handed out for cleanup, is kept on record.
-/

namespace LSMEngine.Tables

/-- The set, the callers that hold pins, and the record. -/
structure Accounts where
  set : TableSet
  /-- What each caller got from `SnapshotAndPin`. -/
  held : List (List Table)
  /-- Every path there ever was. -/
  used : List String
  /-- Every table an edit took out of the set. -/
  removed : List Table
  /-- Every table `Apply` or `Unpin` returned. -/
  handed : List Table

namespace Accounts

/-- A set on its own. -/
def new (tables : List Table) : Accounts :=
  ⟨TableSet.new tables, [], tables.map Table.path, [], []⟩

/-- What can happen to the set. -/
inductive Event
  | pin
  | unpin (i : ℕ)
  | apply (e : Edit)

/-- The tables of an edit are new. -/
def NewPaths (used : List String) (e : Edit) : Prop :=
  (e.add.map Table.path).Nodup ∧ ∀ p ∈ e.add.map Table.path, p ∉ used

instance (used : List String) (e : Edit) : Decidable (NewPaths used e) :=
  inferInstanceAs (Decidable (_ ∧ _))

/-- One call. -/
def act (s : Accounts) : Event → Option Accounts
  | .pin =>
    let (tables, set) := s.set.snapshotAndPin
    some { s with set := set, held := s.held ++ [tables] }
  | .unpin i =>
    (s.held[i]?).map fun tables =>
      let (set, ready) := s.set.unpin (tables.map Table.path)
      { s with set := set, held := s.held.eraseIdx i, handed := s.handed ++ ready }
  | .apply e =>
    if NewPaths s.used e then
      let (set, removed) := s.set.apply e
      some
        { s with
          set := set
          used := s.used ++ e.add.map Table.path
          removed := s.removed ++ s.set.tables.filter fun t => t.path ∈ e.removePath
          handed := s.handed ++ removed }
    else none

end Accounts

end LSMEngine.Tables
