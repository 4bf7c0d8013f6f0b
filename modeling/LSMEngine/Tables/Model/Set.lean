import LSMEngine.Tables.Model.SSTable
/-!
# Tables — the table set

`tableset.Set`: the tables a reader searches, in the order it searches
them, the pins snapshots hold on their paths, and the tables that left
the set while they were pinned.

A map of the source is a function where every key has a value (`pinned`,
zero without an entry), and a list with one table for each path where
not (`pending`). The index by path is looked up in the list itself.
-/

namespace LSMEngine.Tables

/-- `tableset.Table`. -/
structure Table where
  metadata : TableMeta
  handle : SSTable
  deriving DecidableEq

/-- A loaded table with the metadata the editor derives for it. -/
def Table.of (t : SSTable) (level : ℕ) : Table := ⟨tableMetaFromSSTable t level, t⟩

/-- The path a table is known by. -/
def Table.path (t : Table) : String := t.metadata.path

/-- `tableset.Edit`. -/
structure Edit where
  add : List Table
  removePath : List String

/-- `tableset.Set`. -/
structure TableSet where
  tables : List Table
  pinned : String → ℕ
  pending : List Table

/-- The comparison of `rebuild`, and of the manifest: newest first, then
by path. -/
def metaLess (a b : TableMeta) : Bool :=
  if a.seqMax ≠ b.seqMax then b.seqMax < a.seqMax else a.path < b.path

/-- What the comparison compares. -/
def metaRank (m : TableMeta) : UInt64ᵒᵈ ×ₗ String := toLex (OrderDual.toDual m.seqMax, m.path)

theorem metaLess_iff (a b : TableMeta) : metaLess a b ↔ metaRank a < metaRank b := by
  simp only [metaLess, metaRank, Prod.Lex.toLex_lt_toLex, OrderDual.toDual_lt_toDual,
    OrderDual.toDual_inj]
  by_cases hs : a.seqMax = b.seqMax <;> simp [hs]

/-- Not behind in the order. -/
def TableLe (a b : Table) : Prop := ¬ metaLess b.metadata a.metadata

instance : DecidableRel TableLe := fun a b =>
  inferInstanceAs (Decidable (¬ metaLess b.metadata a.metadata))

theorem tableLe_iff (a b : Table) : TableLe a b ↔ metaRank a.metadata ≤ metaRank b.metadata := by
  rw [TableLe, metaLess_iff, not_lt]

instance tableLe_total : Std.Total TableLe :=
  ⟨fun a b => by rw [tableLe_iff, tableLe_iff]; exact le_total _ _⟩

instance tableLe_trans : IsTrans Table TableLe :=
  ⟨fun a b c hab hbc => by rw [tableLe_iff] at *; exact hab.trans hbc⟩

namespace TableSet

/-- `rebuild`. -/
def rebuild (tables : List Table) : List Table := tables.insertionSort TableLe

/-- `NewSet`. -/
def new (tables : List Table) : TableSet := ⟨rebuild tables, fun _ => 0, []⟩

/-- `Snapshot`: the metadata in read order. -/
def snapshot (s : TableSet) : List TableMeta := s.tables.map Table.metadata

/-- `SnapshotAndPin`: the tables, and the set with each of them pinned
once more. -/
def snapshotAndPin (s : TableSet) : List Table × TableSet :=
  (s.tables, { s with pinned := fun path => s.pinned path + (s.tables.map Table.path).count path })

/-- One turn of `Unpin`. -/
def unpinPath (s : TableSet) (path : String) : TableSet × List Table :=
  if s.pinned path ≤ 1 then
    ({ s with
        pinned := Function.update s.pinned path 0
        pending := s.pending.filter fun t => t.path ≠ path },
      s.pending.filter fun t => t.path = path)
  else ({ s with pinned := Function.update s.pinned path (s.pinned path - 1) }, [])

/-- `Unpin`: the set, and the tables nothing holds any more. -/
def unpin (s : TableSet) : List String → TableSet × List Table
  | [] => (s, [])
  | path :: paths =>
    let (s', ready) := s.unpinPath path
    let (s'', ready') := s'.unpin paths
    (s'', ready ++ ready')

/-- The table the index has under a path: the last one. -/
def indexed (s : TableSet) (path : String) : Option Table :=
  s.tables.reverse.find? fun t => t.path = path

/-- `Resolve`. -/
def resolve (s : TableSet) : List TableMeta → Except String (List SSTable)
  | [] => .ok []
  | m :: metas =>
    match s.indexed m.path with
    | none => .error ("tableset: missing table " ++ m.path)
    | some t => (s.resolve metas).map (t.handle :: ·)

/-- `pending[path] = t`. -/
def setPending (pending : List Table) (t : Table) : List Table :=
  t :: pending.filter fun u => u.path ≠ t.path

/-- `Apply`: the set, and the tables that are gone from it for good. -/
def apply (s : TableSet) (e : Edit) : TableSet × List Table :=
  let gone := s.tables.filter fun t => t.path ∈ e.removePath
  let kept := s.tables.filter fun t => t.path ∉ e.removePath
  ({ s with
      tables := rebuild (kept ++ e.add)
      pending := (gone.filter fun t => 0 < s.pinned t.path).foldl setPending s.pending },
    gone.filter fun t => s.pinned t.path = 0)

end TableSet

/-- The first table in read order that has an entry for the key. -/
def search (tables : List Table) (k : Bytes) : Option Entry :=
  tables.findSome? fun t => t.handle.get k

/-- What the entry found means to the caller: a tombstone is absence. -/
def visible : Option Entry → Option Bytes
  | some e => if e.tombstone then none else some e.value
  | none => none

/-- Looking a key up in the table set. -/
def lookup (tables : List Table) (k : Bytes) : Option Bytes := visible (search tables k)

end LSMEngine.Tables
