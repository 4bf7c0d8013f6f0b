import LSMEngine.Common.Lists
import LSMEngine.Engine.Steps
import Mathlib.Data.List.Nodup
/-!
# Engine — where a memtable is

At any time a memtable is searched, pooled or forgotten, and a frozen one
is held by the snapshot that froze it, by a caller of `enqueue`, or by
the flush queue, and by one of them only (`Shape`). This holds in every
run. It is what makes recycling sound for the engine itself: a memtable
goes back to the pool only when nothing in the engine refers to it.
-/

namespace LSMEngine.Engine

variable {cfg : Config} {s s' : State} {m m' : Mems} {j : Journal} {vs : List Snapshot} {id : ℕ}

/-! ## Snapshots that hold their memtable -/

/-- The memtables held by snapshots that are not closed. -/
def openFrozen (vs : List Snapshot) : List ℕ := (vs.filter fun v => ¬ v.closed).map Snapshot.frozen

theorem openFrozen_append (vs ws : List Snapshot) :
    openFrozen (vs ++ ws) = openFrozen vs ++ openFrozen ws := by
  rw [openFrozen, List.filter_append, List.map_append]
  rfl

theorem openFrozen_cons (v : Snapshot) (vs : List Snapshot) :
    openFrozen (v :: vs) = (if v.closed then [] else [v.frozen]) ++ openFrozen vs := by
  unfold openFrozen
  cases hv : v.closed <;> simp [hv]

/-- What a snapshot knows besides its memtable does not count. -/
theorem openFrozen_set_of_eq {i : ℕ} {v v' : Snapshot} (hv : vs[i]? = some v)
    (hclosed : v'.closed = v.closed) (hfrozen : v'.frozen = v.frozen) :
    openFrozen (vs.set i v') = openFrozen vs := by
  obtain ⟨as, bs, rfl, hset, -⟩ := exists_split_of_getElem hv
  rw [hset, openFrozen_append, openFrozen_append, openFrozen_cons, openFrozen_cons, hclosed,
    hfrozen]

theorem openFrozen_close {i : ℕ} {v : Snapshot} (hv : vs[i]? = some v) (hopen : v.closed = false) :
    (openFrozen vs).Perm (v.frozen :: openFrozen (vs.set i { v with closed := true })) := by
  obtain ⟨as, bs, rfl, hset, -⟩ := exists_split_of_getElem hv
  rw [hset, openFrozen_append, openFrozen_append, openFrozen_cons, openFrozen_cons, hopen]
  exact List.perm_middle

/-! ## The invariant -/

/-- The frozen memtables on their way to a table. -/
def held (m : Mems) (vs : List Snapshot) : List ℕ :=
  openFrozen vs ++ (m.enqueuing ++ m.flushQueue)

/-- **Where the memtables are.** -/
structure Shape (m : Mems) (j : Journal) (vs : List Snapshot) : Prop where
  nodup : m.live.Nodup
  pool : m.pool.Nodup
  apart : ∀ id ∈ m.pool, id ∉ m.live
  fresh : ∀ id, id ∈ m.live ∨ id ∈ m.pool → id < m.fresh
  blank : ∀ id, id ∈ m.pool ∨ m.fresh ≤ id → (m.heap id).entries = []
  once : (held m vs).Nodup
  frozen : ∀ id ∈ held m vs, id ∈ m.immutables
  pinned : ∀ id, m.pinned id = (openFrozen vs).count id
  writing : ∀ w, j.writer = some w → w.stage = .acquired →
    w.mem = m.mem ∨ w.mem ∈ openFrozen vs ++ m.enqueuing

theorem Shape.placed (h : Shape m j vs) : Placed m := ⟨h.nodup, h.pool, h.apart, h.fresh⟩

theorem shape_init : Shape .init State.init.journal [] := by
  have hplaced := placed_init
  exact ⟨hplaced.nodup, hplaced.pool, hplaced.apart, hplaced.fresh, fun _ _ => rfl, .nil,
    by simp [held, Mems.init, openFrozen], fun _ => rfl, fun _ h => by cases h⟩

section

variable (h : Shape m j vs)
include h

theorem Shape.mem_not_frozen : m.mem ∉ m.immutables := h.placed.mem_not_frozen

theorem Shape.nodup_immutables : m.immutables.Nodup := h.placed.nodup_immutables

/-- A memtable that is written to is searched. -/
theorem Shape.writer_live {w : Write} (hw : j.writer = some w) (hstage : w.stage = .acquired) :
    w.mem ∈ m.live := by
  rw [mem_live]
  rcases h.writing w hw hstage with hmem | hmem
  · exact .inr hmem
  · refine .inl (h.frozen _ ?_)
    rw [held, ← List.append_assoc]
    exact List.mem_append_left _ hmem

/-! ## Parts of steps -/

/-- The journal matters through the write that has a memtable acquired. -/
theorem Shape.journal {j' : Journal}
    (hw : ∀ w, j'.writer = some w → w.stage = .acquired →
      w.mem = m.mem ∨ w.mem ∈ openFrozen vs ++ m.enqueuing) : Shape m j' vs :=
  ⟨h.nodup, h.pool, h.apart, h.fresh, h.blank, h.once, h.frozen, h.pinned, hw⟩

/-- So do the snapshots through the memtables they hold. -/
theorem Shape.snapshots {vs' : List Snapshot} (hsame : openFrozen vs' = openFrozen vs) :
    Shape m j vs' := by
  have hheld : held m vs' = held m vs := by rw [held, held, hsame]
  refine ⟨h.nodup, h.pool, h.apart, h.fresh, h.blank, hheld ▸ h.once, hheld ▸ h.frozen, ?_, ?_⟩
  · rw [hsame]
    exact h.pinned
  · rw [hsame]
    exact h.writing

/-- A memtable that is searched is written to. -/
theorem Shape.write (hid : id ∈ m.live) (e : Entry) : Shape (m.write id e) j vs := by
  refine ⟨h.nodup, h.pool, h.apart, h.fresh, ?_, h.once, h.frozen, h.pinned, h.writing⟩
  intro x hx
  have hne : x ≠ id := by
    rintro rfl
    rcases hx with hx | hx
    · exact h.apart x hx hid
    · exact absurd (h.fresh x (.inl hid)) (not_lt.mpr hx)
  simp only [Mems.write, Function.update_of_ne hne]
  exact h.blank x hx

/-- A freeze: the active memtable joins the frozen ones, held by a
snapshot or a caller of `enqueue`. -/
theorem Shape.froze (hm : Froze m m') {pinned : ℕ → ℕ} {enqueuing : List ℕ} {vs' : List Snapshot}
    (hheld : (openFrozen vs' ++ enqueuing).Perm (m.mem :: (openFrozen vs ++ m.enqueuing)))
    (hpinned : ∀ id, pinned id = (openFrozen vs').count id) :
    Shape { m' with pinned := pinned, enqueuing := enqueuing } j vs' := by
  have hplaced := h.placed.froze hm
  have hheld' : (held { m' with pinned := pinned, enqueuing := enqueuing } vs').Perm
      (m.mem :: held m vs) := by
    simp only [held, hm.flushQueue]
    rw [← List.append_assoc, ← List.append_assoc, ← List.cons_append]
    exact hheld.append_right _
  have hpool := hm.pool_sublist
  refine ⟨hplaced.nodup, hplaced.pool, hplaced.apart, hplaced.fresh, ?_, ?_, ?_, hpinned, ?_⟩
  · intro x hx
    change (m'.heap x).entries = []
    rw [hm.heap]
    refine h.blank x (hx.imp (fun hx => hpool.mem hx) fun hx => ?_)
    change m'.fresh ≤ x at hx
    rcases hm.mem with ⟨-, -, hfresh⟩ | ⟨-, -, hfresh⟩ <;> omega
  · rw [hheld'.nodup_iff, List.nodup_cons]
    exact ⟨fun hin => h.mem_not_frozen (h.frozen _ hin), h.once⟩
  · intro x hx
    change x ∈ m'.immutables
    rw [hm.immutables, List.mem_append, List.mem_singleton]
    rcases List.mem_cons.mp (hheld'.mem_iff.mp hx) with hx | hx
    · exact .inr hx
    · exact .inl (h.frozen x hx)
  · intro w hw hstage
    refine .inr (hheld.mem_iff.mpr ?_)
    rcases h.writing w hw hstage with hmem | hmem
    · rw [hmem]
      exact List.mem_cons_self
    · exact List.mem_cons_of_mem _ hmem

/-- A snapshot that is closed passes its memtable on: nothing else had it
pinned. -/
theorem Shape.releasePinned_eq (id : ℕ) :
    m.releasePinned id =
      { m with
        pinned := Function.update m.pinned id 0
        enqueuing := m.enqueuing ++ [id] } := by
  have hnodup : (openFrozen vs).Nodup := h.once.sublist (List.sublist_append_left _ _)
  have hone : m.pinned id ≤ 1 := by
    rw [h.pinned]
    exact List.nodup_iff_count_le_one.mp hnodup _
  simp only [Mems.releasePinned, Mems.unpin, if_pos hone, if_true]

theorem Shape.release {i : ℕ} {v : Snapshot} (hv : vs[i]? = some v) (hopen : v.closed = false) :
    Shape (m.releasePinned v.frozen) j (vs.set i { v with closed := true }) := by
  have hperm := openFrozen_close hv hopen
  rw [h.releasePinned_eq]
  set vs' := vs.set i { v with closed := true }
  have hheld : (openFrozen vs' ++ (m.enqueuing ++ [v.frozen])).Perm
      (openFrozen vs ++ m.enqueuing) := by
    rw [← List.append_assoc]
    exact List.perm_append_comm.trans (hperm.symm.append_right _)
  have hall : (held { m with
      pinned := Function.update m.pinned v.frozen 0
      enqueuing := m.enqueuing ++ [v.frozen] } vs').Perm (held m vs) := by
    simp only [held]
    rw [← List.append_assoc, ← List.append_assoc (openFrozen vs)]
    exact hheld.append_right _
  refine ⟨h.nodup, h.pool, h.apart, h.fresh, h.blank, hall.nodup_iff.mpr h.once, ?_, ?_, ?_⟩
  · exact fun x hx => h.frozen x (hall.mem_iff.mp hx)
  · intro x
    have hcount : m.pinned x = (v.frozen :: openFrozen vs').count x := by
      rw [h.pinned, hperm.count_eq]
    have hnodup : (v.frozen :: openFrozen vs').Nodup :=
      hperm.nodup_iff.mp (h.once.sublist (List.sublist_append_left _ _))
    change Function.update m.pinned v.frozen 0 x = _
    by_cases hx : x = v.frozen
    · rw [hx, Function.update_self, List.count_eq_zero_of_not_mem (List.nodup_cons.mp hnodup).1]
    · rw [Function.update_of_ne hx, hcount, List.count_cons_of_ne (Ne.symm hx)]
  · intro w hw hstage
    exact (h.writing w hw hstage).imp_right fun hmem => hheld.mem_iff.mpr hmem

end

theorem writing_eq_false (hw : j.writing id = false) {w : Write} (hj : j.writer = some w)
    (hstage : w.stage = .acquired) : w.mem ≠ id := by
  obtain ⟨mem, entry, stage⟩ := w
  obtain rfl : stage = .acquired := hstage
  simpa [Journal.writing, hj] using hw

theorem mem_held_of_enqueuing (hmem : id ∈ m.enqueuing) : id ∈ held m vs :=
  List.mem_append_right _ (List.mem_append_left _ hmem)

section

variable (h : Shape m j vs)
include h

/-- A memtable that is not written to leaves its caller of `enqueue`. -/
theorem Shape.writing_erase (hw : j.writing id = false) (w : Write) (hj : j.writer = some w)
    (hstage : w.stage = .acquired) :
    w.mem = m.mem ∨ w.mem ∈ openFrozen vs ++ m.enqueuing.erase id := by
  refine (h.writing w hj hstage).imp_right fun hin => ?_
  rcases List.mem_append.mp hin with hin | hin
  · exact List.mem_append_left _ hin
  · exact List.mem_append_right _
      ((List.mem_erase_of_ne (writing_eq_false hw hj hstage)).mpr hin)

/-- A memtable moves from a caller of `enqueue` to the flush queue. -/
theorem Shape.toQueue (hmem : id ∈ m.enqueuing) (hw : j.writing id = false) :
    Shape
      { m with
        enqueuing := m.enqueuing.erase id
        flushQueue := m.flushQueue ++ [id] } j vs := by
  have hall : (held { m with
      enqueuing := m.enqueuing.erase id
      flushQueue := m.flushQueue ++ [id] } vs).Perm (held m vs) := by
    simp only [held]
    refine List.Perm.append_left _ ?_
    calc (m.enqueuing.erase id ++ (m.flushQueue ++ [id])).Perm
          (m.enqueuing.erase id ++ (id :: m.flushQueue)) :=
          (List.perm_append_singleton id m.flushQueue).append_left _
      _ |>.Perm (id :: (m.enqueuing.erase id ++ m.flushQueue)) := List.perm_middle
      _ |>.Perm (m.enqueuing ++ m.flushQueue) :=
          (List.perm_cons_erase hmem).symm.append_right m.flushQueue
  refine ⟨h.nodup, h.pool, h.apart, h.fresh, h.blank, hall.nodup_iff.mpr h.once,
    fun x hx => h.frozen x (hall.mem_iff.mp hx), h.pinned, h.writing_erase hw⟩

/-- A frozen memtable is taken out of everything. -/
theorem Shape.remove {enqueuing flushQueue : List ℕ}
    (hheld : (held m vs).Perm (id :: (openFrozen vs ++ (enqueuing ++ flushQueue))))
    (hw : ∀ w, j.writer = some w → w.stage = .acquired →
      w.mem = m.mem ∨ w.mem ∈ openFrozen vs ++ enqueuing) :
    Shape
      { m with
        immutables := m.immutables.erase id
        enqueuing := enqueuing
        flushQueue := flushQueue } j vs := by
  have himm : ∀ x, x ∈ m.immutables.erase id ↔ x ≠ id ∧ x ∈ m.immutables :=
    fun x => h.nodup_immutables.mem_erase_iff
  have hnodup := hheld.nodup_iff.mp h.once
  have hplaced := h.placed.erase id flushQueue
  refine ⟨hplaced.nodup, hplaced.pool, hplaced.apart, hplaced.fresh, h.blank,
    (List.nodup_cons.mp hnodup).2, ?_, h.pinned, hw⟩
  · intro x hx
    refine (himm x).mpr ⟨?_, h.frozen x (hheld.mem_iff.mpr (List.mem_cons_of_mem _ hx))⟩
    rintro rfl
    exact (List.nodup_cons.mp hnodup).1 hx

/-- A memtable nothing refers to goes back to the pool. -/
theorem Shape.recycle (hlive : id ∉ m.live) (hpool : id ∉ m.pool) (hfresh : id < m.fresh)
    (pooled : Bool) : Shape (m.recycle pooled id) j vs := by
  have hplaced := h.placed.recycle hlive hpool hfresh pooled
  rcases recycle_cases pooled m id with hsame | ⟨-, -, hrec⟩
  · rw [hsame]
    exact h
  · rw [hrec] at hplaced ⊢
    refine ⟨hplaced.nodup, hplaced.pool, hplaced.apart, hplaced.fresh, ?_, h.once, h.frozen,
      h.pinned, h.writing⟩
    intro x hx
    change (Function.update m.heap id .empty x).entries = []
    by_cases hxid : x = id
    · rw [hxid, Function.update_self]
      rfl
    · rw [Function.update_of_ne hxid]
      refine h.blank x (hx.imp_left fun hx => ?_)
      exact (List.mem_cons.mp hx).resolve_left hxid

/-- A memtable that was frozen can be recycled once it is taken out. -/
theorem Shape.remove_recycle (hid : id ∈ m.immutables) {enqueuing flushQueue : List ℕ}
    (hheld : (held m vs).Perm (id :: (openFrozen vs ++ (enqueuing ++ flushQueue))))
    (hw : ∀ w, j.writer = some w → w.stage = .acquired →
      w.mem = m.mem ∨ w.mem ∈ openFrozen vs ++ enqueuing)
    (pooled : Bool) :
    Shape
      (Mems.recycle pooled
        { m with
          immutables := m.immutables.erase id
          enqueuing := enqueuing
          flushQueue := flushQueue } id) j vs := by
  have hlive : id ∈ m.live := mem_live.mpr (.inl hid)
  refine (h.remove hheld hw).recycle ?_ (fun hp => h.apart id hp hlive) (h.fresh id (.inl hlive))
    pooled
  rw [mem_live]
  rintro (hin | hin)
  · exact (h.nodup_immutables.mem_erase_iff.mp hin).1 rfl
  · exact h.mem_not_frozen (hin ▸ hid)

theorem Shape.not_queued (hmem : id ∈ m.enqueuing) : id ∉ m.flushQueue := by
  intro hin
  have := (List.nodup_append.mp (List.nodup_append.mp h.once).2.1).2.2
  exact this id hmem id hin rfl

theorem Shape.discard (hmem : id ∈ m.enqueuing) (hw : j.writing id = false) (pooled : Bool) :
    Shape (Mems.recycle pooled
      (Mems.removeImmutable { m with enqueuing := m.enqueuing.erase id } id) id) j vs := by
  have hid := h.frozen id (mem_held_of_enqueuing hmem)
  have hqueue := h.not_queued hmem
  have hheld : (held m vs).Perm
      (id :: (openFrozen vs ++ (m.enqueuing.erase id ++ m.flushQueue.erase id))) := by
    rw [List.erase_of_not_mem hqueue]
    calc (held m vs).Perm (openFrozen vs ++ (id :: (m.enqueuing.erase id ++ m.flushQueue))) :=
          ((List.perm_cons_erase hmem).append_right m.flushQueue).append_left _
      _ |>.Perm (id :: (openFrozen vs ++ (m.enqueuing.erase id ++ m.flushQueue))) :=
          List.perm_middle
  exact h.remove_recycle hid hheld (h.writing_erase hw) pooled

theorem Shape.pop (pooled : Bool) : Shape (m.popFlushedTable pooled) j vs := by
  unfold Mems.popFlushedTable
  split
  · exact h
  · next id rest hqueue =>
    have hheld : (held m vs).Perm (id :: (openFrozen vs ++ (m.enqueuing ++ rest))) := by
      rw [held, hqueue]
      exact (List.perm_middle.append_left _).trans List.perm_middle
    have hid := h.frozen id (hheld.mem_iff.mpr List.mem_cons_self)
    exact h.remove_recycle hid hheld h.writing pooled

end

/-! ## Every run -/

/-- **One step keeps the memtables in their places.** -/
theorem Shape.step {a : Action} (h : Shape s.mems s.journal s.snapshots)
    (hs : Step cfg s a s') : Shape s'.mems s'.journal s'.snapshots := by
  cases hs with
  | refuse => exact h
  | bump ha hfree =>
    refine h.journal fun w hw => ?_
    rw [show s.journal.writer = some w from hw] at hfree
    cases hfree
  | acquire ha hfree hindex key value tombstone =>
    refine h.journal fun w hw _ => .inl ?_
    rw [← Option.some.inj hw]
  | commitWrite hw full =>
    refine (h.write (h.writer_live hw rfl) _).journal fun w hw' hstage => ?_
    rw [← Option.some.inj hw'] at hstage
    cases hstage
  | failWrite hw => exact h.journal fun w hw' => by cases hw'
  | finishWrite hw => exact h.journal fun w hw' => by cases hw'
  | @freezeFull e full reuse m hw hm =>
    have hfroze : Shape { m with enqueuing := m.enqueuing ++ [s.mems.mem] } s.journal
        s.snapshots := by
      refine h.froze hm ?_ ?_
      · rw [hm.enqueuing, ← List.append_assoc]
        exact List.perm_append_singleton _ _
      · rw [hm.pinned]
        exact h.pinned
    exact hfroze.journal fun w hw' => by cases hw'
  -- the snapshot holds a pin on the memtable it froze, and that one is not enqueued
  | @openSnapshot reuse m hm =>
    have hopen : openFrozen (s.snapshots ++
        [⟨m.immutables.reverse, s.mems.mem, none, false, false⟩]) =
          openFrozen s.snapshots ++ [s.mems.mem] := openFrozen_append _ _
    refine h.froze hm ?_ ?_
    · rw [hopen, hm.enqueuing, List.append_assoc, List.singleton_append]
      exact List.perm_middle
    · intro x
      rw [hopen, List.count_append, hm.pinned]
      by_cases hx : x = s.mems.mem
      · rw [hx, Function.update_self, h.pinned, List.count_singleton_self]
      · rw [Function.update_of_ne hx, h.pinned, List.count_singleton,
          if_neg (by simpa using Ne.symm hx), Nat.add_zero]
  | pinTables hv hnone hopen => exact h.snapshots (openFrozen_set_of_eq hv rfl rfl)
  | closeSnapshot hv hsome hopen => exact h.release hv hopen
  | unpinTables hv htables hclosed hheld => exact h.snapshots (openFrozen_set_of_eq hv rfl rfl)
  | discard hmem hw hempty => exact h.discard hmem hw _
  | enqueue hmem hw hfull => exact h.toQueue hmem hw
  | retire hstage => exact h.pop _
  | _ => exact h

end LSMEngine.Engine
