import LSMEngine.Types
import Mathlib.Data.List.Sort
import Mathlib.Data.Prod.Lex
import Mathlib.Data.String.Basic
/-!
# Tables — sorted tables and their metadata

An SSTable as its readers see it: the entries of the file in file order,
under a path, with the size of the file. `Writer.Flush` sorts the entries
it is given by key and, within a key, newest first; the name of the file
is made of the sequence of the last entry in that order and the time.

The layout of the file is not part of this picture, and neither are read
failures: a lookup that passes the key range of the file finds the first
entry under the key. How many bytes a file takes is left to the
parameter `fileSize`.
-/

namespace LSMEngine.Tables

/-! ## The order of a table -/

/-- The comparison `Writer.Flush` and the merge heap share: by key, then
newest first, then tombstones first. -/
def entryLess (a b : Entry) : Bool :=
  if a.key ≠ b.key then a.key < b.key
  else if a.seq ≠ b.seq then b.seq < a.seq
  else if a.tombstone ≠ b.tombstone then a.tombstone
  else false

/-- What the comparison compares. -/
def entryRank (e : Entry) : Bytes ×ₗ UInt64ᵒᵈ ×ₗ Bool :=
  toLex (e.key, toLex (OrderDual.toDual e.seq, !e.tombstone))

theorem entryLess_iff (a b : Entry) : entryLess a b ↔ entryRank a < entryRank b := by
  simp only [entryLess, entryRank, Prod.Lex.toLex_lt_toLex, OrderDual.toDual_lt_toDual,
    OrderDual.toDual_inj]
  by_cases hk : a.key = b.key
  · by_cases hs : a.seq = b.seq
    · cases ha : a.tombstone <;> cases hb : b.tombstone <;> simp [hk, hs]
    · simp [hk, hs]
  · simp [hk]

/-- Not behind in the order. -/
def EntryLe (a b : Entry) : Prop := ¬ entryLess b a

instance : DecidableRel EntryLe := fun a b => inferInstanceAs (Decidable (¬ entryLess b a))

theorem entryLe_iff (a b : Entry) : EntryLe a b ↔ entryRank a ≤ entryRank b := by
  rw [EntryLe, entryLess_iff, not_lt]

instance entryLe_total : Std.Total EntryLe :=
  ⟨fun a b => by rw [entryLe_iff, entryLe_iff]; exact le_total _ _⟩

instance entryLe_trans : IsTrans Entry EntryLe :=
  ⟨fun a b c hab hbc => by rw [entryLe_iff] at *; exact hab.trans hbc⟩

/-- The order a table is written in. -/
def sortEntries (es : List Entry) : List Entry := es.insertionSort EntryLe

theorem sortEntries_ne_nil {es : List Entry} (h : es ≠ []) : sortEntries es ≠ [] := by
  intro hnil
  have hlen := List.length_insertionSort EntryLe es
  rw [show es.insertionSort EntryLe = [] from hnil] at hlen
  exact h (List.length_eq_zero_iff.mp hlen.symm)

/-! ## Tables -/

/-- `SSTable`: an immutable sorted run under its path. -/
structure SSTable where
  path : String
  entries : List Entry
  sizeBytes : UInt64
  nonempty : entries ≠ []
  sorted : entries.Pairwise EntryLe
  deriving DecidableEq

/-- The entry the file starts with. -/
def SSTable.first (t : SSTable) : Entry := t.entries.head t.nonempty

/-- The entry it ends with. -/
def SSTable.last (t : SSTable) : Entry := t.entries.getLast t.nonempty

/-- The greatest sequence, as the loop of `Flush` finds it. -/
def SSTable.seqMax (t : SSTable) : UInt64 :=
  t.entries.foldl (fun m e => if m < e.seq then e.seq else m) t.last.seq

/-- The least one. -/
def SSTable.seqMin (t : SSTable) : UInt64 :=
  t.entries.foldl (fun m e => if e.seq < m then e.seq else m) t.first.seq

/-- `SSTable.Seq`: what the reader finds in the file's metadata. -/
def SSTable.seq (t : SSTable) : UInt64 := t.seqMax

/-- `fmt.Sprintf("sstable-%d-%d.sst", seq, now)`. -/
def tableName (seq now : ℕ) : String :=
  "sstable-" ++ (toString seq ++ ("-" ++ (toString now ++ ".sst")))

/-- `Writer.Flush` at a time, and the table it loads. -/
def flush (fileSize : List Entry → UInt64) (now : ℕ) (es : List Entry) : Except String SSTable :=
  if h : es = [] then .error "no entries to write"
  else
    .ok
      { path := tableName ((sortEntries es).getLast (sortEntries_ne_nil h)).seq.toNat now
        entries := sortEntries es
        sizeBytes := fileSize (sortEntries es)
        nonempty := sortEntries_ne_nil h
        sorted := List.pairwise_insertionSort EntryLe es }

/-- `SSTable.GetView`, and `GetViewContext` where nothing fails. -/
def SSTable.get (t : SSTable) (k : Bytes) : Option Entry :=
  if 0 < t.first.key.length ∧ k < t.first.key then none
  else if 0 < t.last.key.length ∧ t.last.key < k then none
  else t.entries.find? fun e => e.key = k

/-- `SSTable.Range`: what the iterator yields. Empty bounds are no
bounds. -/
def SSTable.range (t : SSTable) (start stop : Bytes) : List Entry :=
  (t.entries.dropWhile fun e => start ≠ [] ∧ e.key < start).takeWhile fun e =>
    stop = [] ∨ e.key < stop

/-! ## Metadata -/

/-- `metadata.TableMeta`. -/
structure TableMeta where
  path : String
  level : ℕ
  minKey : Bytes
  maxKey : Bytes
  seqMin : UInt64
  seqMax : UInt64
  sizeBytes : UInt64
  deriving DecidableEq, Repr

/-- `TableMetaFromSSTable`. -/
def tableMetaFromSSTable (t : SSTable) (level : ℕ) : TableMeta where
  path := t.path
  level := level
  minKey := t.first.key
  maxKey := t.last.key
  seqMin := if t.seqMin = 0 then t.seq else t.seqMin
  seqMax := if t.seqMax = 0 then t.seq else t.seqMax
  sizeBytes := t.sizeBytes

end LSMEngine.Tables
