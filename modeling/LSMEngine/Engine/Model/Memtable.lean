import LSMEngine.Types
import Mathlib.Data.List.Lex
/-!
# Engine — memtables

A memtable keeps one entry for each key, in key order. The three
implementations (a map, a skip list, sharded skip lists) agree on what
they hold and are one type here; the arenas that own the bytes are not
modelled.
-/

namespace LSMEngine.Engine

/-- `memtable.Table`, by its entries. -/
structure Memtable where
  entries : List Entry
  sorted : entries.Pairwise fun a b => a.key < b.key
  deriving DecidableEq

namespace Memtable

/-- A new memtable, or one that was `Reset`. -/
def empty : Memtable := ⟨[], .nil⟩

theorem sorted_upsert (m : Memtable) (e : Entry) :
    ((m.entries.filter fun d => d.key < e.key) ++
      e :: m.entries.filter fun d => e.key < d.key).Pairwise fun a b => a.key < b.key := by
  rw [List.pairwise_append, List.pairwise_cons]
  refine ⟨m.sorted.filter _, ⟨?_, m.sorted.filter _⟩, ?_⟩
  · intro b hb
    simpa using (List.mem_filter.mp hb).2
  · intro a ha b hb
    have hae : a.key < e.key := by simpa using (List.mem_filter.mp ha).2
    rcases List.mem_cons.mp hb with rfl | hb
    · exact hae
    · exact hae.trans (by simpa using (List.mem_filter.mp hb).2)

/-- `ApplyOwned`: the entry replaces the one under its key. -/
def applyOwned (m : Memtable) (e : Entry) : Memtable where
  entries := (m.entries.filter fun d => d.key < e.key) ++
    e :: m.entries.filter fun d => e.key < d.key
  sorted := sorted_upsert m e

/-- `Get`. -/
def get (m : Memtable) (k : Bytes) : Option Entry := m.entries.find? fun e => e.key = k

/-- `entrySize`. -/
def entrySize (e : Entry) : ℕ := e.key.length + e.value.length

/-- `Size`. -/
def size (m : Memtable) : ℕ := (m.entries.map entrySize).sum

/-- `Range`: what the iterator yields. Empty bounds are no bounds. -/
def range (m : Memtable) (start stop : Bytes) : List Entry :=
  if start ≠ [] ∧ stop ≠ [] ∧ stop ≤ start then []
  else m.entries.filter fun e => (start = [] ∨ start ≤ e.key) ∧ (stop = [] ∨ e.key < stop)

end Memtable

end LSMEngine.Engine
