import LSMEngine.Engine.Model.State
import Mathlib.Data.List.Nodup
/-!
# Engine — what happens to memtables

The operations on the memtables by what they touch, and what they keep
whoever calls them: a memtable is searched, or in the pool, or in neither
place, and never twice in one (`Placed`).
-/

namespace LSMEngine.Engine

variable {m m' : Mems} {id : ℕ}

/-! ## Operations -/

/-- `freezeMemtableLocked`: the memtable that becomes active was in the
pool or is new. -/
structure Froze (m m' : Mems) : Prop where
  heap : m'.heap = m.heap
  immutables : m'.immutables = m.immutables ++ [m.mem]
  flushQueue : m'.flushQueue = m.flushQueue
  pinned : m'.pinned = m.pinned
  enqueuing : m'.enqueuing = m.enqueuing
  mem : (m'.mem ∈ m.pool ∧ m'.pool = m.pool.erase m'.mem ∧ m'.fresh = m.fresh) ∨
    (m'.mem = m.fresh ∧ m'.pool = m.pool ∧ m'.fresh = m.fresh + 1)

theorem froze_of_freeze {reuse : Option ℕ} (h : m.freeze reuse = some m') :
    Froze m m' := by
  obtain ⟨⟨id, m₁⟩, halloc, rfl⟩ := Option.map_eq_some_iff.mp h
  cases reuse with
  | none =>
    obtain ⟨rfl, rfl⟩ := Prod.mk.inj (Option.some.inj halloc)
    exact ⟨rfl, rfl, rfl, rfl, rfl, .inr ⟨rfl, rfl, rfl⟩⟩
  | some r =>
    simp only [Mems.alloc] at halloc
    split at halloc
    · next hr =>
      obtain ⟨rfl, rfl⟩ := Prod.mk.inj (Option.some.inj halloc)
      exact ⟨rfl, rfl, rfl, rfl, rfl, .inl ⟨hr, rfl, rfl⟩⟩
    · cases halloc

theorem popFlushedTable_nil {pooled : Bool} (h : m.flushQueue = []) :
    m.popFlushedTable pooled = m := by
  unfold Mems.popFlushedTable
  rw [h]

theorem popFlushedTable_cons {pooled : Bool} {rest : List ℕ}
    (h : m.flushQueue = id :: rest) :
    m.popFlushedTable pooled =
      Mems.recycle pooled
        { m with flushQueue := rest, immutables := m.immutables.erase id } id := by
  unfold Mems.popFlushedTable
  rw [h]

/-- Recycling touches the one memtable, unless it does nothing. -/
theorem recycle_cases (pooled : Bool) (m : Mems) (x : ℕ) :
    m.recycle pooled x = m ∨ (pooled ∧ m.pinned x = 0 ∧ m.recycle pooled x =
      { m with heap := Function.update m.heap x .empty, pool := x :: m.pool }) := by
  unfold Mems.recycle
  split
  · exact .inl rfl
  · next hgo =>
    rw [not_or, not_not, not_lt] at hgo
    exact .inr ⟨hgo.1, Nat.le_zero.mp hgo.2, rfl⟩

/-- A freeze activates another memtable. -/
theorem Froze.other (hm : Froze m m') (hpool : id ∉ m.pool) (hfresh : id < m.fresh) :
    id ∉ m'.pool ∧ id ≠ m'.mem := by
  rcases hm.mem with ⟨hmem, hp, -⟩ | ⟨hmem, hp, -⟩
  · rw [hp]
    refine ⟨fun hin => hpool (List.mem_of_mem_erase hin), ?_⟩
    rintro rfl
    exact hpool hmem
  · rw [hp]
    refine ⟨hpool, ?_⟩
    omega

theorem Froze.fresh_le (hm : Froze m m') : m.fresh ≤ m'.fresh := by
  rcases hm.mem with ⟨-, -, h⟩ | ⟨-, -, h⟩ <;> omega

theorem recycle_fresh (pooled : Bool) (m : Mems) (x : ℕ) :
    (m.recycle pooled x).fresh = m.fresh := by
  rcases recycle_cases pooled m x with h | ⟨-, -, h⟩ <;> rw [h]

theorem recycle_queue (pooled : Bool) (m : Mems) (x : ℕ) :
    (m.recycle pooled x).flushQueue = m.flushQueue ∧
      (m.recycle pooled x).immutables = m.immutables := by
  rcases recycle_cases pooled m x with h | ⟨-, -, h⟩ <;> rw [h] <;> exact ⟨rfl, rfl⟩

/-- Recycling another memtable leaves this one alone. -/
theorem recycle_other (m : Mems) (id : ℕ) {x : ℕ} (pooled : Bool)
    (hne : pooled → m.pinned x = 0 → x ≠ id) :
    (m.recycle pooled x).heap id = m.heap id ∧ (m.recycle pooled x).mem = m.mem ∧
      (id ∉ m.pool → id ∉ (m.recycle pooled x).pool) := by
  rcases recycle_cases pooled m x with hsame | ⟨hpooled, hpinned, hrec⟩
  · rw [hsame]
    exact ⟨rfl, rfl, fun hin => hin⟩
  · have hne := hne hpooled hpinned
    rw [hrec]
    refine ⟨Function.update_of_ne (Ne.symm hne) _ _, rfl, fun hpool hin => ?_⟩
    rcases List.mem_cons.mp hin with rfl | hin
    · exact hne rfl
    · exact hpool hin

/-! ## Places -/

theorem mem_live : id ∈ m.live ↔ id ∈ m.immutables ∨ id = m.mem := by simp [Mems.live]

/-- **No memtable is in two places.** -/
structure Placed (m : Mems) : Prop where
  nodup : m.live.Nodup
  pool : m.pool.Nodup
  apart : ∀ id ∈ m.pool, id ∉ m.live
  fresh : ∀ id, id ∈ m.live ∨ id ∈ m.pool → id < m.fresh

theorem placed_init : Placed .init := by
  refine ⟨by simp [Mems.live, Mems.init], .nil, by simp [Mems.init], ?_⟩
  intro id hid
  have hid : id = 0 := by simpa [Mems.live, Mems.init] using hid
  rw [hid]
  exact Nat.one_pos

theorem Placed.mem_not_frozen (h : Placed m) : m.mem ∉ m.immutables := by
  intro hmem
  have := h.nodup
  rw [Mems.live, List.nodup_append] at this
  exact this.2.2 m.mem hmem m.mem (List.mem_singleton_self _) rfl

theorem Placed.nodup_immutables (h : Placed m) : m.immutables.Nodup :=
  h.nodup.sublist (List.sublist_append_left _ _)

theorem Froze.pool_sublist (hm : Froze m m') : m'.pool.Sublist m.pool := by
  rcases hm.mem with ⟨-, hpool, -⟩ | ⟨-, hpool, -⟩
  · rw [hpool]
    exact List.erase_sublist
  · rw [hpool]

/-- The memtable that becomes active was not searched before. -/
theorem Placed.froze_new (h : Placed m) (hm : Froze m m') : m'.mem ∉ m.live := by
  rcases hm.mem with ⟨hpool, -, -⟩ | ⟨hfresh, -, -⟩
  · exact h.apart _ hpool
  · intro hin
    have := h.fresh _ (.inl hin)
    omega

theorem Placed.froze (h : Placed m) (hm : Froze m m') : Placed m' := by
  have hlive : m'.live = m.live ++ [m'.mem] := by
    rw [Mems.live, hm.immutables, Mems.live]
  have hnew := h.froze_new hm
  have hpool := hm.pool_sublist
  refine ⟨?_, h.pool.sublist hpool, ?_, ?_⟩
  · rw [hlive, List.nodup_append]
    refine ⟨h.nodup, by simp, ?_⟩
    intro x hx y hy hxy
    rw [List.mem_singleton.mp hy] at hxy
    exact hnew (hxy ▸ hx)
  · intro x hx
    rw [hlive, List.mem_append, List.mem_singleton]
    rintro (hin | rfl)
    · exact h.apart x (hpool.mem hx) hin
    · rcases hm.mem with ⟨-, hpool, -⟩ | ⟨hfresh, -, -⟩
      · have hx' : m'.mem ∈ m.pool.erase m'.mem := hpool ▸ hx
        exact (h.pool.mem_erase_iff.mp hx').1 rfl
      · have := h.fresh _ (.inr (hpool.mem hx))
        omega
  · intro x hx
    rw [hlive, List.mem_append, List.mem_singleton] at hx
    have hle : m.fresh ≤ m'.fresh ∧ m'.mem < m'.fresh := by
      rcases hm.mem with ⟨hpool, -, hfresh⟩ | ⟨hmem, -, hfresh⟩
      · have := h.fresh _ (.inr hpool)
        omega
      · omega
    rcases hx with (hx | rfl) | hx
    · exact lt_of_lt_of_le (h.fresh x (.inl hx)) hle.1
    · exact hle.2
    · exact lt_of_lt_of_le (h.fresh x (.inr (hpool.mem hx))) hle.1

/-- A memtable is searched no longer. -/
theorem Placed.erase (h : Placed m) (id : ℕ) (flushQueue : List ℕ) :
    Placed { m with immutables := m.immutables.erase id, flushQueue := flushQueue } := by
  have hsub : (m.immutables.erase id ++ [m.mem]).Sublist m.live :=
    List.erase_sublist.append_right _
  exact ⟨h.nodup.sublist hsub, h.pool, fun x hx hin => h.apart x hx (hsub.mem hin),
    fun x hx => h.fresh x (hx.imp_left fun hin => hsub.mem hin)⟩

/-- A memtable that is nowhere goes to the pool. -/
theorem Placed.recycle (h : Placed m) (hlive : id ∉ m.live) (hpool : id ∉ m.pool)
    (hfresh : id < m.fresh) (pooled : Bool) : Placed (m.recycle pooled id) := by
  rcases recycle_cases pooled m id with hsame | ⟨-, -, hrec⟩
  · rw [hsame]
    exact h
  · rw [hrec]
    refine ⟨h.nodup, List.nodup_cons.mpr ⟨hpool, h.pool⟩, ?_, ?_⟩
    · intro x hx
      rcases List.mem_cons.mp hx with rfl | hx
      · exact hlive
      · exact h.apart x hx
    · intro x hx
      rcases hx with hx | hx
      · exact h.fresh x (.inl hx)
      · rcases List.mem_cons.mp hx with rfl | hx
        · exact hfresh
        · exact h.fresh x (.inr hx)

/-- A frozen memtable is dropped, and goes to the pool. -/
theorem Placed.drop (h : Placed m) (hid : id ∈ m.immutables) (flushQueue : List ℕ)
    (pooled : Bool) :
    Placed (Mems.recycle pooled
      { m with immutables := m.immutables.erase id, flushQueue := flushQueue } id) := by
  have hlive : id ∈ m.live := mem_live.mpr (.inl hid)
  refine (h.erase id flushQueue).recycle ?_ (fun hpool => h.apart id hpool hlive)
    (h.fresh id (.inl hlive)) pooled
  rw [mem_live]
  rintro (hin | hmem)
  · exact (h.nodup_immutables.mem_erase_iff.mp hin).1 rfl
  · exact h.mem_not_frozen (hmem ▸ hid)

/-- Pooled memtables of two bytes, and no compactions. -/
def pooledConfig : Config := ⟨2, 4, true, fun _ => none, fun _ => 0, ⟨0, 0, 0⟩, false⟩

end LSMEngine.Engine
