import LSMEngine.Engine.Pins
/-!
# Engine — what a snapshot sees

A snapshot holds every frozen memtable of its view and pins only the one
it froze, while a completed flush resets the memtable at the head of the
flush queue and returns it to the pool. So what a snapshot sees may go,
and other writes may come in its place (`flushed_under_snapshot`). It is
the only way: as long as no memtable of the view is recycled, and none
was still being written to when the snapshot was returned, the view stays
as it is (`snapshot_isolated`).
-/

namespace LSMEngine.Engine

open Tables (SSTable Table)

variable {cfg : Config} {s s' : State} {a : Action} {v w : Snapshot} {i id : ℕ}

/-! ## Where a memtable changes -/

/-- The memtable an action hands to `recycleMemtable` with nothing pinned:
an empty one in `enqueue`, the head of the flush queue in `onFlush`. -/
def recycled (cfg : Config) (s : State) : Action → Option ℕ
  | .enqueue id =>
    if (s.mems.heap id).entries = [] ∧ cfg.pooled ∧ s.mems.pinned id = 0 then some id else none
  | .retire =>
    match s.mems.flushQueue with
    | id :: _ => if cfg.pooled ∧ s.mems.pinned id = 0 then some id else none
    | [] => none
  | _ => none

/-- The memtable cannot be written to: it is not pooled or active, and no
write has it acquired. -/
structure Sealed (s : State) (id : ℕ) : Prop where
  pool : id ∉ s.mems.pool
  mem : id ≠ s.mems.mem
  writing : s.journal.writing id = false

theorem writing_of_writer {j : Journal} {x : ℕ} {e : Entry}
    (hw : j.writer = some ⟨x, e, .acquired⟩) : j.writing x = true := by
  simp [Journal.writing, hw]

/-- **A sealed memtable changes only when it is recycled.** -/
theorem Sealed.step (h : Sealed s id) (hshape : Shape s.mems s.journal s.snapshots)
    (hfresh : id < s.mems.fresh) (hkeep : recycled cfg s a ≠ some id) (hs : Step cfg s a s') :
    s'.mems.heap id = s.mems.heap id ∧ Sealed s' id := by
  cases hs with
  | refuse ha => exact ⟨rfl, h⟩
  | bump ha hfree => exact ⟨rfl, h.pool, h.mem, h.writing⟩
  | acquire ha hfree hindex key value tombstone =>
    exact ⟨rfl, h.pool, h.mem, decide_eq_false (Ne.symm h.mem)⟩
  | @commitWrite x e hw full =>
    -- the memtable written to is being written, a sealed one is not
    have hne : id ≠ x := by
      rintro rfl
      have hfree := h.writing
      rw [writing_of_writer hw] at hfree
      cases hfree
    exact ⟨Function.update_of_ne hne _ _, h.pool, h.mem, rfl⟩
  | failWrite hw => exact ⟨rfl, h.pool, h.mem, rfl⟩
  | finishWrite hw => exact ⟨rfl, h.pool, h.mem, rfl⟩
  | freezeFull hw hm =>
    obtain ⟨hpool, hmem⟩ := hm.other h.pool hfresh
    exact ⟨congrFun hm.heap id, hpool, hmem, rfl⟩
  | openSnapshot hm =>
    obtain ⟨hpool, hmem⟩ := hm.other h.pool hfresh
    exact ⟨congrFun hm.heap id, hpool, hmem, h.writing⟩
  | closeSnapshot hv hsome hopen =>
    rw [hshape.releasePinned_eq]
    exact ⟨rfl, h.pool, h.mem, h.writing⟩
  | @discard x hmem hw hempty =>
    have hne : cfg.pooled → s.mems.pinned x = 0 → x ≠ id := by
      rintro hpooled hpinned rfl
      exact hkeep (if_pos ⟨hempty, hpooled, hpinned⟩)
    obtain ⟨hheap, hmem, hpool⟩ := recycle_other
      (Mems.removeImmutable { s.mems with enqueuing := s.mems.enqueuing.erase x } x) id
      cfg.pooled hne
    exact ⟨hheap, hpool h.pool, hmem ▸ h.mem, h.writing⟩
  | retire hstage =>
    -- a retired memtable goes back to the pool only where the step recycles it
    cases hqueue : s.mems.flushQueue with
    | nil =>
      rw [popFlushedTable_nil hqueue]
      exact ⟨rfl, h.pool, h.mem, h.writing⟩
    | cons x rest =>
      have hne : cfg.pooled → s.mems.pinned x = 0 → x ≠ id := by
        rintro hpooled hpinned rfl
        refine hkeep ?_
        simp only [recycled, hqueue]
        exact if_pos ⟨hpooled, hpinned⟩
      obtain ⟨hheap, hmem, hpool⟩ := recycle_other
        { s.mems with flushQueue := rest, immutables := s.mems.immutables.erase x } id
        cfg.pooled hne
      rw [popFlushedTable_cons hqueue]
      exact ⟨hheap, hpool h.pool, fun heq => h.mem (heq.trans hmem), h.writing⟩
  | _ => exact ⟨rfl, h.pool, h.mem, h.writing⟩

/-! ## What a view is made of -/

/-- A snapshot as it goes on: the memtables it searches, the tables once
it has them, and closed for good. -/
structure Continues (v w : Snapshot) : Prop where
  mems : w.mems = v.mems
  tables : v.tables.isSome → w.tables = v.tables
  closed : w.closed = false → v.closed = false

theorem Continues.refl (v : Snapshot) : Continues v v := ⟨rfl, fun _ => rfl, fun h => h⟩

theorem Continues.trans {u : Snapshot} (h : Continues v w) (h' : Continues w u) :
    Continues v u := by
  refine ⟨h'.mems.trans h.mems, fun hsome => ?_, fun hc => h.closed (h'.closed hc)⟩
  have hw := h.tables hsome
  exact (h'.tables (hw ▸ hsome)).trans hw

/-- One snapshot of the list is replaced by what it becomes. -/
theorem continues_set {vs : List Snapshot} {j : ℕ} {u u' : Snapshot} (hu : vs[j]? = some u)
    (hc : Continues u u') (hv : vs[i]? = some v) :
    ∃ w, (vs.set j u')[i]? = some w ∧ Continues v w := by
  obtain ⟨hj, -⟩ := List.getElem?_eq_some_iff.mp hu
  by_cases hij : j = i
  · subst hij
    obtain rfl := Option.some.inj (hu.symm.trans hv)
    exact ⟨u', List.getElem?_set_self hj, hc⟩
  · exact ⟨v, (List.getElem?_set_ne hij).trans hv, .refl v⟩

/-- **A snapshot keeps its place and its view.** -/
theorem continues_step (hs : Step cfg s a s') (hv : s.snapshots[i]? = some v) :
    ∃ w, s'.snapshots[i]? = some w ∧ Continues v w := by
  cases hs with
  | openSnapshot hm =>
    obtain ⟨hi, -⟩ := List.getElem?_eq_some_iff.mp hv
    exact ⟨v, (List.getElem?_append_left hi).trans hv, .refl v⟩
  | pinTables hu hnone hopen =>
    exact continues_set hu ⟨rfl, fun hsome => by simp [hnone] at hsome, fun hc => hc⟩ hv
  | closeSnapshot hu hsome hopen => exact continues_set hu ⟨rfl, fun _ => rfl, fun _ => hopen⟩ hv
  | unpinTables hu htables hclosed hheld =>
    exact continues_set hu ⟨rfl, fun _ => rfl, fun hc => hc⟩ hv
  | _ => exact ⟨v, hv, .refl v⟩

theorem fresh_le_of_step (hshape : Shape s.mems s.journal s.snapshots) (hs : Step cfg s a s') :
    s.mems.fresh ≤ s'.mems.fresh := by
  cases hs with
  | freezeFull hw hm =>
    have hle := hm.fresh_le
    exact hle
  | openSnapshot hm =>
    have hle := hm.fresh_le
    exact hle
  | closeSnapshot hv hsome hopen => exact (congrArg Mems.fresh (hshape.releasePinned_eq _)).ge
  | discard hmem hw hempty =>
    rw [recycle_fresh]
    exact le_rfl
  | retire hstage =>
    cases hqueue : s.mems.flushQueue with
    | nil => rw [popFlushedTable_nil hqueue]
    | cons x rest =>
      rw [popFlushedTable_cons hqueue, recycle_fresh]
  | _ => exact le_rfl

/-- No view has a memtable that is still to be made. -/
def Known (s : State) : Prop := ∀ v ∈ s.snapshots, ∀ id ∈ v.mems, id < s.mems.fresh

theorem Known.set (h : Known s) {w : Snapshot} (hv : s.snapshots[i]? = some v)
    (hmems : w.mems = v.mems) : ∀ u ∈ s.snapshots.set i w, ∀ id ∈ u.mems, id < s.mems.fresh := by
  intro u hu
  rcases List.mem_or_eq_of_mem_set hu with hu | rfl
  · exact h u hu
  · rw [hmems]
    exact h v (List.mem_of_getElem? hv)

theorem Known.step (h : Known s) (hshape : Shape s.mems s.journal s.snapshots)
    (hs : Step cfg s a s') : Known s' := by
  have hle := fresh_le_of_step hshape hs
  suffices hold : ∀ v ∈ s'.snapshots, ∀ id ∈ v.mems, id < s.mems.fresh from
    fun v hv x hx => (hold v hv x hx).trans_le hle
  cases hs with
  | openSnapshot hm =>
    intro v hv x hx
    rcases List.mem_append.mp hv with hv | hv
    · exact h v hv x hx
    · rw [List.mem_singleton.mp hv, List.mem_reverse, hm.immutables] at hx
      exact hshape.fresh x (.inl hx)
  | pinTables hv hnone hopen => exact h.set hv rfl
  | closeSnapshot hv hsome hopen => exact h.set hv rfl
  | unpinTables hv htables hclosed hheld => exact h.set hv rfl
  | _ => exact h

/-! ## Isolation -/

/-- The view of a snapshot as it was in an earlier state. -/
structure Isolated (i : ℕ) (v : Snapshot) (heap : ℕ → Memtable) (s : State) : Prop where
  kept : Kept s
  known : Known s
  same : ∃ w, s.snapshots[i]? = some w ∧ Continues v w
  sealed : ∀ id ∈ v.mems, Sealed s id
  heap : ∀ id ∈ v.mems, s.mems.heap id = heap id

theorem Isolated.step {heap : ℕ → Memtable} (h : Isolated i v heap s)
    (hkeep : ∀ id, recycled cfg s a = some id → id ∉ v.mems) (hs : Step cfg s a s') :
    Isolated i v heap s' := by
  obtain ⟨w, hw, hcont⟩ := h.same
  obtain ⟨u, hu, hcont'⟩ := continues_step hs hw
  have hmem : ∀ id ∈ v.mems, s'.mems.heap id = s.mems.heap id ∧ Sealed s' id := by
    intro x hx
    have hfresh : x < s.mems.fresh :=
      h.known w (List.mem_of_getElem? hw) x (hcont.mems.symm ▸ hx)
    exact (h.sealed x hx).step h.kept.shape hfresh (fun hr => hkeep x hr hx) hs
  exact ⟨h.kept.step hs, h.known.step h.kept.shape hs, ⟨u, hu, hcont.trans hcont'⟩,
    fun x hx => (hmem x hx).2, fun x hx => (hmem x hx).1.trans (h.heap x hx)⟩

/-- Through open handles a point read is a search of the tables. -/
theorem searchAll_congr {heap heap' : ℕ → Memtable} {closed closed' : List String}
    {mems : List ℕ} {tables : List Table} (hheap : ∀ id ∈ mems, heap id = heap' id)
    (hopen : ∀ t ∈ tables, t.path ∉ closed) (hopen' : ∀ t ∈ tables, t.path ∉ closed') (k : Bytes) :
    searchAll heap closed mems tables k = searchAll heap' closed' mems tables k := by
  unfold searchAll
  congr 1
  · exact findSome?_congr fun x hx => by rw [hheap x hx]
  · refine findSome?_congr fun t ht => ?_
    rw [readTable, readTable, if_neg (hopen t ht), if_neg (hopen' t ht)]

theorem range_congr {w : Snapshot} (hmems : w.mems = v.mems) (htables : w.tables = v.tables)
    (hheap : ∀ id ∈ v.mems, s'.mems.heap id = s.mems.heap id)
    (hopen : ∀ t ∈ v.tables.getD [], t.path ∉ s.disk.closed)
    (hopen' : ∀ t ∈ v.tables.getD [], t.path ∉ s'.disk.closed) (start stop : Bytes) :
    w.range s' start stop = v.range s start stop := by
  have hnone : ∀ {closed : List String}, (∀ t ∈ v.tables.getD [], t.path ∉ closed) →
      ¬ (v.tables.getD []).any (fun t => decide (t.path ∈ closed)) := by
    intro closed hopen hany
    obtain ⟨t, ht, hin⟩ := List.any_eq_true.mp hany
    exact hopen t ht (by simpa using hin)
  unfold Snapshot.range
  rw [hmems, htables, if_neg (hnone hopen), if_neg (hnone hopen')]
  have hits : (v.mems.map fun id => (s'.mems.heap id).range start stop) =
      v.mems.map fun id => (s.mems.heap id).range start stop :=
    List.map_congr_left fun x hx => by rw [hheap x hx]
  rw [hits]

/-- **Snapshot isolation**, where the code gives it. From a state in which
a snapshot has been returned and no memtable of its view can be written
to, through any run that recycles none of these memtables, the snapshot
answers every `Get` and every `Range` as before, until it is closed. -/
theorem snapshot_isolated {as bs : List Action} {s₁ s₂ : State} {v v₂ : Snapshot}
    (h₁ : run cfg .init as = some s₁) (hv : s₁.snapshots[i]? = some v) (hcreated : v.tables.isSome)
    (hsealed : ∀ id ∈ v.mems, Sealed s₁ id) (h₂ : run cfg s₁ bs = some s₂)
    (hkeep : ∀ pre a post s, bs = pre ++ a :: post → run cfg s₁ pre = some s →
      ∀ id, recycled cfg s a = some id → id ∉ v.mems)
    (hv₂ : s₂.snapshots[i]? = some v₂) (hopen : v₂.closed = false) :
    (∀ k, v₂.get s₂ k = v.get s₁ k) ∧
      ∀ start stop, v₂.range s₂ start stop = v.range s₁ start stop := by
  have hkept : Kept s₁ := kept_init.run h₁
  have hknown : Kept s₁ ∧ Known s₁ := by
    refine run_induction (P := fun s => Kept s ∧ Known s) (C := fun _ _ => True) ?_ ?_ h₁ ?_
    · exact fun s a s' h _ hs => ⟨h.1.step hs, h.2.step h.1.shape hs⟩
    · exact ⟨kept_init, nofun⟩
    · exact fun _ _ _ _ _ _ => trivial
  have hiso : Isolated i v s₁.mems.heap s₂ :=
    run_induction (fun s a s' h hc hs => Isolated.step h hc hs)
      ⟨hkept, hknown.2, ⟨v, hv, .refl v⟩, hsealed, fun _ _ => rfl⟩ h₂ hkeep
  obtain ⟨w, hw, hcont⟩ := hiso.same
  obtain rfl := Option.some.inj (hv₂.symm.trans hw)
  have htables := hcont.tables hcreated
  obtain ⟨tables, hsome⟩ := Option.isSome_iff_exists.mp hcreated
  have hopen₁ : ∀ t ∈ v.tables.getD [], t.path ∉ s₁.disk.closed := by
    intro t ht
    rw [hsome] at ht
    exact hkept.snapshot_open (List.mem_of_getElem? hv) (hcont.closed hopen) hsome ht
  have hopen₂ : ∀ t ∈ v.tables.getD [], t.path ∉ s₂.disk.closed := by
    intro t ht
    rw [hsome] at ht
    exact hiso.kept.snapshot_open (List.mem_of_getElem? hv₂) hopen (htables.trans hsome) ht
  refine ⟨fun k => ?_, fun start stop => ?_⟩
  · unfold Snapshot.get
    rw [hcont.mems, htables, searchAll_congr hiso.heap hopen₂ hopen₁]
  · exact range_congr hcont.mems htables hiso.heap hopen₁ hopen₂ start stop

/-! ## A run that meets it, and one that does not -/

/-- A key is written, and a snapshot returned that froze its memtable. -/
def snapshotHolds : List Action :=
  [.put [1] [2], .commitWrite, .openSnapshot none, .finishWrite none, .pinTables 0]

theorem snapshotHolds_isSome : (run pooledConfig .init snapshotHolds).isSome := by decide +kernel

/-- Another key is written and flushed, and its memtable recycled. -/
def flushedBeside : List Action :=
  [.put [2] [3], .commitWrite, .finishWrite none, .enqueue 1, .send 0, .take, .writeTable 1,
    .install, .record, .retire]

/-- The state the snapshot is returned in, and the one after the flush. -/
def heldState : State := (run pooledConfig .init snapshotHolds).get snapshotHolds_isSome

theorem flushedBeside_isSome : (run pooledConfig heldState flushedBeside).isSome := by
  decide +kernel

def besideState : State := (run pooledConfig heldState flushedBeside).get flushedBeside_isSome

theorem heldState_ne_nil : heldState.snapshots ≠ [] := by decide +kernel

theorem besideState_ne_nil : besideState.snapshots ≠ [] := by decide +kernel

def heldSnapshot : Snapshot := heldState.snapshots.head heldState_ne_nil

def besideSnapshot : Snapshot := besideState.snapshots.head besideState_ne_nil

/-- The memtable a snapshot froze is pinned, and a flush of another one
does not show. -/
theorem snapshot_isolated_beside :
    (∀ k, besideSnapshot.get besideState k = heldSnapshot.get heldState k) ∧
      ∀ start stop, besideSnapshot.range besideState start stop =
        heldSnapshot.range heldState start stop := by
  have hsealed : ∀ id ∈ heldSnapshot.mems, id ∉ heldState.mems.pool ∧ id ≠ heldState.mems.mem ∧
      heldState.journal.writing id = false := by decide +kernel
  have hcheck : check (act pooledConfig)
      (fun s a => ∀ id ∈ recycled pooledConfig s a, id ∉ heldSnapshot.mems) heldState
      flushedBeside := by decide +kernel
  have h₁ : run pooledConfig .init snapshotHolds = some heldState :=
    (Option.some_get snapshotHolds_isSome).symm
  have h₂ : run pooledConfig heldState flushedBeside = some besideState :=
    (Option.some_get flushedBeside_isSome).symm
  have hv : heldState.snapshots[0]? = some heldSnapshot := rfl
  have hv₂ : besideState.snapshots[0]? = some besideSnapshot := rfl
  refine snapshot_isolated h₁ hv (by decide +kernel) ?_ h₂ ?_ hv₂ (by decide +kernel)
  · intro id hid
    obtain ⟨hpool, hmem, hw⟩ := hsealed id hid
    exact ⟨hpool, hmem, hw⟩
  · exact fun pre a post s has hpre id hr => along_of_check hcheck pre a post s has hpre id hr

/-- A memtable is frozen on the limit and on its way to a flush when the
snapshot comes. -/
def snapshotQueued : List Action :=
  [.put [1] [2], .commitWrite, .finishWrite none, .enqueue 0, .openSnapshot none, .pinTables 0]

/-- The flush completes. -/
def flushedUnder : List Action :=
  [.send 0, .take, .writeTable 1, .install, .record, .retire]

theorem snapshotQueued_isSome : (run pooledConfig .init snapshotQueued).isSome := by decide +kernel

def queuedState : State := (run pooledConfig .init snapshotQueued).get snapshotQueued_isSome

theorem flushedUnder_isSome : (run pooledConfig queuedState flushedUnder).isSome := by
  decide +kernel

def underState : State := (run pooledConfig queuedState flushedUnder).get flushedUnder_isSome

/-- **A completed flush empties a snapshot's view.** The memtable was in
the view and not pinned. -/
theorem flushed_under_snapshot :
    ∃ as bs s₁ s₂ v v₂, run pooledConfig .init as = some s₁ ∧ as.getLast? = some (.pinTables 0) ∧
      run pooledConfig s₁ bs = some s₂ ∧ s₁.snapshots[0]? = some v ∧ s₂.snapshots[0]? = some v₂ ∧
      v₂.closed = false ∧ v.get s₁ [1] = some [2] ∧ v₂.get s₂ [1] = none :=
  ⟨snapshotQueued, flushedUnder, queuedState, underState, _, _,
    (Option.some_get snapshotQueued_isSome).symm, rfl, (Option.some_get flushedUnder_isSome).symm,
    rfl, rfl, by decide +kernel, by decide +kernel, by decide +kernel⟩

/-! ## Reads -/

/-- **No table of the set or of an open snapshot is closed, in any run**
whose tables are written one after the other in time: no path is used
twice, a table of the set has its file and an open handle, and a table of
an open snapshot has an open handle. So `Get` and `GetContext`, if nothing
comes between their steps, find what the memtables and the tables hold. -/
theorem run_serves {as : List Action} (hrun : run cfg .init as = some s) :
    (s.disk.archive.map SSTable.path).Nodup ∧
      (∀ t ∈ s.tables.set.tables, t.path ∉ s.disk.closed ∧ t.handle ∈ s.disk.files) ∧
      (∀ v ∈ s.snapshots, v.closed = false → ∀ t ∈ v.tables.getD [], t.path ∉ s.disk.closed) ∧
      ∀ k, s.get k = Tables.visible ((s.mems.live.reverse.findSome? fun id =>
          (s.mems.heap id).get k).or (Tables.search s.tables.set.tables k)) ∧
        s.getContext k = s.get k := by
  have h := kept_init.run hrun
  have hopen : ∀ t ∈ s.tables.set.tables, t.path ∉ s.disk.closed := by
    intro t ht hclosed
    refine h.paths.gone _ (List.mem_append_left _ hclosed) ?_
    exact List.mem_append_right _ (List.mem_append_right _ (List.mem_map_of_mem ht))
  have hread : ∀ k, (s.tables.set.tables.findSome? fun t => readTable s.disk.closed t k) =
      Tables.search s.tables.set.tables k := fun k =>
    findSome?_congr fun t ht => if_neg (hopen t ht)
  refine ⟨h.archived.nodup, fun t ht => ⟨hopen t ht, ?_⟩, fun v hv hheld t ht => ?_, fun k => ?_⟩
  · obtain ⟨hpath, hmem⟩ := h.archived.handles t (List.mem_append_left _ ht)
    exact h.archived.files _ hmem (hpath ▸ hopen t ht)
  · cases htables : v.tables with
    | none => simp [htables] at ht
    | some tables =>
      rw [htables] at ht
      exact h.snapshot_open hv hheld htables ht
  · rw [State.get, searchAll, hread, State.getContext]
    refine ⟨rfl, ?_⟩
    cases s.mems.live.reverse.findSome? fun id => (s.mems.heap id).get k with
    | some e => rfl
    | none => exact congrArg Tables.visible (hread k)

/-- After a flush beside a snapshot. -/
theorem run_serves_flushed :
    ∃ s, run pooledConfig .init (snapshotHolds ++ flushedBeside) = some s ∧
      ∀ t ∈ s.tables.set.tables, t.handle ∈ s.disk.files := by
  obtain ⟨s, hs⟩ := Option.isSome_iff_exists.mp
    (show (run pooledConfig .init (snapshotHolds ++ flushedBeside)).isSome by decide +kernel)
  exact ⟨s, hs, fun t ht => ((run_serves hs).2.1 t ht).2⟩

end LSMEngine.Engine
