import LSMEngine.Engine.Files
import LSMEngine.Engine.Shape
/-!
# Engine — pinned tables

The table set counts, for each path, the snapshots that have it pinned,
and a handle is closed only when that count is zero (`Pins`). So a
snapshot that is not closed reads its tables, in every run.
-/

namespace LSMEngine.Engine

open Tables (SSTable Table TableSet)

variable {cfg : Config} {s s' : State} {st : Stage} {ts : Tables.State} {set : TableSet}
  {d : Storage} {vs : List Snapshot} {v v' : Snapshot} {i : ℕ} {p : String}

/-! ## Counting -/

/-- How often a snapshot has a path pinned. -/
def Snapshot.pins (v : Snapshot) (p : String) : ℕ :=
  if v.released then 0 else ((v.tables.getD []).map Table.path).count p

/-- How often the snapshots have it pinned. -/
def pinCount (vs : List Snapshot) (p : String) : ℕ := (vs.map fun v => v.pins p).sum

theorem pinCount_append (vs ws : List Snapshot) (p : String) :
    pinCount (vs ++ ws) p = pinCount vs p + pinCount ws p := by
  rw [pinCount, List.map_append, List.sum_append]
  rfl

theorem pinCount_cons (v : Snapshot) (vs : List Snapshot) (p : String) :
    pinCount (v :: vs) p = v.pins p + pinCount vs p := rfl

/-- Replacing one snapshot counts by the difference. -/
theorem pinCount_set (hv : vs[i]? = some v) (v' : Snapshot) (p : String) :
    pinCount (vs.set i v') p + v.pins p = pinCount vs p + v'.pins p := by
  obtain ⟨as, bs, rfl, hset, -⟩ := exists_split_of_getElem hv
  rw [hset, pinCount_append, pinCount_append, pinCount_cons, pinCount_cons]
  omega

theorem pins_le_pinCount (hv : v ∈ vs) (p : String) : v.pins p ≤ pinCount vs p := by
  obtain ⟨as, bs, rfl⟩ := List.append_of_mem hv
  rw [pinCount_append, pinCount_cons]
  omega

/-- The tables of a snapshot that is not released are pinned. -/
theorem pins_pos (hheld : v.released = false) {tables : List Table} (htables : v.tables = some tables)
    {t : Table} (ht : t ∈ tables) : 0 < v.pins t.path := by
  rw [Snapshot.pins, hheld, htables]
  exact List.count_pos_iff.mpr (List.mem_map_of_mem ht)

/-! ## The invariant -/

/-- **A handle is closed only when nothing has it pinned.** -/
structure Pins (set : TableSet) (d : Storage) (vs : List Snapshot) : Prop where
  counted : ∀ p, set.pinned p = pinCount vs p
  free : ∀ p ∈ d.closed ++ d.removed, pinCount vs p = 0
  released : ∀ v ∈ vs, v.released → v.closed

theorem pins_init : Pins Tables.State.init.set State.init.disk [] :=
  ⟨fun _ => rfl, nofun, nofun⟩

/-- A snapshot changes, and its pins do not. -/
theorem Pins.same (h : Pins set d vs) (hv : vs[i]? = some v) (hpins : ∀ p, v'.pins p = v.pins p)
    (hreleased : v'.released → v'.closed) : Pins set d (vs.set i v') := by
  have hcount : ∀ p, pinCount (vs.set i v') p = pinCount vs p := by
    intro p
    have := pinCount_set hv v' p
    have := hpins p
    omega
  refine ⟨fun p => (h.counted p).trans (hcount p).symm, fun p hp => ?_, fun w hw => ?_⟩
  · rw [hcount]
    exact h.free p hp
  · rcases List.mem_or_eq_of_mem_set hw with hw | rfl
    · exact h.released w hw
    · exact hreleased

/-- A snapshot pins the tables of the set: none of them is on its way
out. -/
theorem Pins.pin (h : Pins ts.set d vs) (hp : Paths st ts d) (hv : vs[i]? = some v)
    (hnone : v.tables = none) (hopen : v.closed = false) :
    Pins ts.set.snapshotAndPin.2 d (vs.set i { v with tables := some ts.set.tables }) := by
  have hheld : v.released = false :=
    Bool.eq_false_iff.mpr fun hr => by
      rw [h.released v (List.mem_of_getElem? hv) hr] at hopen
      cases hopen
  have hcount : ∀ p, pinCount (vs.set i { v with tables := some ts.set.tables }) p =
      pinCount vs p + (ts.set.tables.map Table.path).count p := by
    intro p
    have hset := pinCount_set hv { v with tables := some ts.set.tables } p
    have hold : v.pins p = 0 := by simp [Snapshot.pins, hnone]
    have hnew : Snapshot.pins { v with tables := some ts.set.tables } p =
        (ts.set.tables.map Table.path).count p := by simp [Snapshot.pins, hheld]
    omega
  refine ⟨fun p => ?_, fun p hmem => ?_, fun w hw => ?_⟩
  · rw [Tables.snapshotAndPin_pinned, h.counted, hcount]
  · have hgone : p ∈ gone d ts.set := by
      rw [Engine.gone, ← List.append_assoc]
      exact List.mem_append_left _ hmem
    have hout : p ∉ ts.set.tables.map Table.path := fun hin =>
      hp.gone p hgone (List.mem_append_right _ (List.mem_append_right _ hin))
    rw [hcount, h.free p hmem, List.count_eq_zero_of_not_mem hout]
  · rcases List.mem_or_eq_of_mem_set hw with hw | rfl
    · exact h.released w hw
    · exact h.released v (List.mem_of_getElem? hv)

/-- A closed snapshot gives its pins back, and what it was the last to
hold is closed. -/
theorem Pins.unpin (h : Pins set d vs) {tables : List Table} (hv : vs[i]? = some v)
    (htables : v.tables = some tables) (hclosed : v.closed) (hheld : v.released = false)
    {doomed : List String} :
    Pins (set.unpin (tables.map Table.path)).1
      { d with
        closed := d.closed ++ (set.unpin (tables.map Table.path)).2.map Table.path
        doomed := doomed } (vs.set i { v with released := true }) := by
  have hcount : ∀ p, pinCount (vs.set i { v with released := true }) p =
      pinCount vs p - (tables.map Table.path).count p := by
    intro p
    have hset := pinCount_set hv { v with released := true } p
    have hold : v.pins p = (tables.map Table.path).count p := by
      simp [Snapshot.pins, htables, hheld]
    have hnew : Snapshot.pins { v with released := true } p = 0 := by simp [Snapshot.pins]
    omega
  have hcounted : ∀ p, (set.unpin (tables.map Table.path)).1.pinned p =
      pinCount (vs.set i { v with released := true }) p := by
    intro p
    rw [Tables.unpin_pinned, h.counted, hcount]
  refine ⟨hcounted, fun p hmem => ?_, fun w hw => ?_⟩
  · have hfree : p ∈ d.closed ++ d.removed →
        pinCount (vs.set i { v with released := true }) p = 0 := by
      intro hmem
      rw [hcount, h.free p hmem, Nat.zero_sub]
    rcases List.mem_append.mp hmem with hmem | hmem
    · rcases List.mem_append.mp hmem with hmem | hmem
      · exact hfree (List.mem_append_left _ hmem)
      · obtain ⟨t, ht, rfl⟩ := List.mem_map.mp hmem
        rw [← hcounted]
        exact (Tables.mem_unpin ht).2
    · exact hfree (List.mem_append_right _ hmem)
  · rcases List.mem_or_eq_of_mem_set hw with hw | rfl
    · exact h.released w hw
    · exact fun _ => hclosed

/-- **One step keeps the count.** -/
theorem Pins.step {a : Action} (h : Pins s.tables.set s.disk s.snapshots)
    (hp : Paths s.pipe.stage s.tables s.disk) (hs : Step cfg s a s') :
    Pins s'.tables.set s'.disk s'.snapshots := by
  cases hs with
  | @openSnapshot reuse m hm =>
    have hcount : ∀ p, pinCount (s.snapshots ++
        [⟨m.immutables.reverse, s.mems.mem, none, false, false⟩]) p =
          pinCount s.snapshots p := fun p => pinCount_append _ _ p
    refine ⟨fun p => (h.counted p).trans (hcount p).symm, fun p hp => ?_, fun v hv => ?_⟩
    · rw [hcount]
      exact h.free p hp
    · rcases List.mem_append.mp hv with hv | hv
      · exact h.released v hv
      · rw [List.mem_singleton.mp hv]
        exact nofun
  | pinTables hv hnone hopen => exact h.pin hp hv hnone hopen
  | closeSnapshot hv hsome hopen => exact h.same hv (fun _ => rfl) fun _ => rfl
  | unpinTables hv htables hclosed hheld => exact h.unpin hv htables hclosed hheld
  | planCompaction hedit ht =>
    obtain ⟨plan, -, -, rfl⟩ := Tables.plan_eq_some ht
    exact h
  | mergeTables ht =>
    obtain ⟨-, hset, -, -⟩ := writes_of_merge ht
    refine ⟨fun p => ?_, h.free, h.released⟩
    rw [hset]
    exact h.counted p
  | commitCompaction hjob =>
    refine ⟨h.counted, fun p hmem => ?_, h.released⟩
    rcases List.mem_append.mp hmem with hmem | hmem
    · exact h.free p (List.mem_append_left _ hmem)
    · obtain ⟨t, ht, rfl⟩ := List.mem_map.mp hmem
      rw [← h.counted]
      exact (Tables.mem_apply_removed ht).2.2
  | @recordCompaction r removed hedit =>
    refine ⟨h.counted, fun p hmem => h.free p ?_, h.released⟩
    have hremoved : s.disk.removed = removed.map Table.path := by rw [Storage.removed, hedit]
    rw [hremoved]
    simpa [Storage.removed] using hmem
  | _ => exact ⟨h.counted, h.free, h.released⟩

/-! ## Every run -/

/-- What every run keeps. -/
structure Kept (s : State) : Prop where
  shape : Shape s.mems s.journal s.snapshots
  archived : Archived s.pipe.stage s.tables s.disk
  paths : Paths s.pipe.stage s.tables s.disk
  pins : Pins s.tables.set s.disk s.snapshots

theorem kept_init : Kept .init := ⟨shape_init, archived_init, paths_init, pins_init⟩

theorem Kept.step {a : Action} (h : Kept s) (hs : Step cfg s a s') : Kept s' :=
  ⟨h.shape.step hs, h.archived.step hs, h.paths.step h.archived hs, h.pins.step h.paths hs⟩

/-- **Every run keeps it.** -/
theorem Kept.run (h : Kept s) {as : List Action} (hrun : run cfg s as = some s') : Kept s' :=
  run_induction (C := fun _ _ => True) (fun _ _ _ h _ hs => h.step hs) h hrun
    fun _ _ _ _ _ _ => trivial

/-- The handles of a snapshot that is not closed are open. -/
theorem Kept.snapshot_open (h : Kept s) {v : Snapshot} (hv : v ∈ s.snapshots)
    (hopen : v.closed = false) {tables : List Table} (htables : v.tables = some tables)
    {t : Table} (ht : t ∈ tables) : t.path ∉ s.disk.closed := by
  intro hclosed
  have hheld : v.released = false :=
    Bool.eq_false_iff.mpr fun hr => by
      rw [h.pins.released v hv hr] at hopen
      cases hopen
  have hpos := pins_pos hheld htables ht
  have hle := pins_le_pinCount hv t.path
  have hfree := h.pins.free t.path (List.mem_append_left _ hclosed)
  omega

end LSMEngine.Engine
