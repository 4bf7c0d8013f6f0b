import LSMEngine.Common.Runs
import LSMEngine.Tables.Model.Compaction
/-!
# Tables — the tables over time

Flushes and compactions work on the table set independently of each
other. A compaction takes a snapshot of the metadata and plans on it,
resolves and merges its inputs, and applies its result, and flushes come
in between; there is one compaction at a time. A failed compaction
leaves the set alone.

Every table written has a time of its own.
-/

namespace LSMEngine.Tables

/-- How far the compaction has come. -/
inductive Job
  | idle
  | planned (plan : Plan)
  | ran (result : Result)

/-- The tables, the compaction under way, and the time of the last table
written. -/
structure State where
  set : TableSet
  job : Job
  clock : ℕ

namespace State

/-- No tables yet. -/
def init : State := ⟨TableSet.new [], .idle, 0⟩

/-- `onFlush`, as far as the set goes: a table joins level 0. -/
def install (s : State) (t : SSTable) : State :=
  { s with set := (s.set.apply ⟨[Table.of t 0], []⟩).1 }

/-- A compaction is planned on the tables as they are. -/
def plan (p : StrictLevelledPlanner) (s : State) : Option State :=
  match s.job, p.next (stateFromMetas s.set.snapshot) with
  | .idle, some plan => some { s with job := .planned plan }
  | _, _ => none

/-- Its inputs are resolved and merged. -/
def merge (fileSize : List Entry → UInt64) (dropTombstones : Bool) (now : ℕ) (s : State) :
    Option State :=
  match s.job with
  | .planned plan =>
    if s.clock < now then
      match s.set.resolve plan.inputs >>= run fileSize dropTombstones now plan with
      | .ok r => some { s with job := .ran r, clock := now }
      | .error _ => some { s with job := .idle, clock := now }
    else none
  | _ => none

/-- Its result is applied. -/
def commit (s : State) : Option State :=
  match s.job with
  | .ran r => some { s with set := (s.set.apply r.edit).1, job := .idle }
  | _ => none

end State

/-- What can happen to the tables. -/
inductive Action
  | flush (now : ℕ) (entries : List Entry)
  | plan (p : StrictLevelledPlanner)
  | merge (dropTombstones : Bool) (now : ℕ)
  | commit
  | abandon

/-- What a memtable holds: at most one entry for a key, and none for the
empty key. -/
def OnePerKey (es : List Entry) : Prop :=
  (es.map Entry.key).Nodup ∧ ∀ e ∈ es, e.key ≠ []

instance (es : List Entry) : Decidable (OnePerKey es) :=
  inferInstanceAs (Decidable (_ ∧ ∀ e ∈ es, e.key ≠ []))

/-- A flush brings sequences past all there are. -/
def Fresh (tables : List Table) (es : List Entry) : Prop :=
  ∀ t ∈ tables, ∀ d ∈ t.handle.entries, ∀ e ∈ es, d.seq < e.seq

instance (tables : List Table) (es : List Entry) : Decidable (Fresh tables es) :=
  inferInstanceAs (Decidable (∀ t ∈ tables, ∀ d ∈ t.handle.entries, ∀ e ∈ es, d.seq < e.seq))

namespace State

variable (fileSize : List Entry → UInt64)

/-- One action, where it can happen. -/
def act (s : State) : Action → Option State
  | .flush now es =>
    if s.clock < now ∧ OnePerKey es ∧ Fresh s.set.tables es then
      match Tables.flush fileSize now es with
      | .ok t => some { s.install t with clock := now }
      | .error _ => none
    else none
  | .plan p => s.plan p
  | .merge drop now => s.merge fileSize drop now
  | .commit => s.commit
  | .abandon => some { s with job := .idle }

/-- A run of actions. -/
abbrev acts (s : State) (as : List Action) : Option State := runs (act fileSize) s as

/-- The states flushes and compactions lead to. -/
def Reachable (s : State) : Prop := ∃ as, init.acts fileSize as = some s

end State

end LSMEngine.Tables
