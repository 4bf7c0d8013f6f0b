import LSMEngine.Engine.Steps
import LSMEngine.Tables.History
import Mathlib.Data.List.Nodup
/-!
# Engine — table files

A table gets a path of its own when it is written, and its file is there
until its handle is closed (`Archived`). The path is on its way to the
set, in the set, or on its way out, and only one of these (`Paths`).
This holds in every run.
-/

namespace LSMEngine.Engine

variable {p : String} {ts' : Tables.State} {set : TableSet}

open Tables (SSTable Table TableSet Manifest Named tableName)

variable {cfg : Config} {s s' : State} {st : Stage} {ts : Tables.State} {d : Storage}
  {vs : List Snapshot} {out : List SSTable} {now : ℕ}

/-! ## Paths -/

/-- The table the dispatcher works on. -/
def Stage.table : Stage → Option SSTable
  | .written t => some t
  | .installed t => some t
  | .recorded t => some t
  | _ => none

/-- The path of a table that is written and not in the set yet. -/
def Stage.staged : Stage → List String
  | .written t => [t.path]
  | _ => []

/-- The paths on their way to the set, and in it. -/
def inUse (st : Stage) (ts : Tables.State) : List String :=
  st.staged ++ ((jobOutput ts.job).map SSTable.path ++ ts.set.tables.map Table.path)

/-- The tables that left the set for good, until the manifest says so. -/
def Storage.removed (d : Storage) : List String :=
  match d.editing with
  | some (_, removed) => removed.map Table.path
  | none => []

/-- The paths on their way out. -/
def gone (d : Storage) (set : TableSet) : List String :=
  d.closed ++ (d.removed ++ set.pending.map Table.path)

/-- What is written is on record: every table a path stands for is in the
archive, and its file is there until its handle is closed. -/
structure Archived (st : Stage) (ts : Tables.State) (d : Storage) : Prop where
  nodup : (d.archive.map SSTable.path).Nodup
  named : ∀ t ∈ d.archive, Named ts.clock t.path
  staged : ∀ t, st.table = some t → t ∈ d.archive
  output : ∀ t ∈ jobOutput ts.job, t ∈ d.archive
  handles : ∀ t ∈ ts.set.tables ++ ts.set.pending,
    t.path = t.handle.path ∧ t.handle ∈ d.archive
  removed : ∀ p ∈ d.closed ++ d.removed, p ∈ d.archive.map SSTable.path
  files : ∀ t ∈ d.archive, t.path ∉ d.closed → t ∈ d.files
  known : ∀ t ∈ d.files, t ∈ d.archive
  doomed : ∀ p ∈ d.doomed, p ∈ d.closed

/-- **A path is in one place.** -/
structure Paths (st : Stage) (ts : Tables.State) (d : Storage) : Prop where
  nodup : (inUse st ts).Nodup
  gone : ∀ p ∈ gone d ts.set, p ∉ inUse st ts

theorem archived_init : Archived .idle .init State.init.disk := by
  have hset : Tables.State.init.set.tables ++ Tables.State.init.set.pending = [] := rfl
  have hdisk : State.init.disk = ⟨[], [], [], [], ⟨0, []⟩, none⟩ := rfl
  refine ⟨.nil, ?_, nofun, nofun, ?_, ?_, ?_, ?_, ?_⟩ <;> simp [hset, hdisk, Storage.removed]

theorem paths_init : Paths .idle .init State.init.disk :=
  ⟨.nil, nofun⟩

theorem Archived.mem_of_inUse (h : Archived st ts d) (hp : p ∈ inUse st ts) :
    p ∈ d.archive.map SSTable.path := by
  rcases List.mem_append.mp hp with hp | hp
  · cases st with
    | written t =>
      rw [List.mem_singleton.mp hp]
      exact List.mem_map_of_mem (h.staged t rfl)
    | _ => cases hp
  · rcases List.mem_append.mp hp with hp | hp
    · obtain ⟨t, ht, rfl⟩ := List.mem_map.mp hp
      exact List.mem_map_of_mem (h.output t ht)
    · obtain ⟨t, ht, rfl⟩ := List.mem_map.mp hp
      obtain ⟨hpath, hmem⟩ := h.handles t (List.mem_append_left _ ht)
      rw [hpath]
      exact List.mem_map_of_mem hmem

theorem Archived.mem_of_gone (h : Archived st ts d) (hp : p ∈ gone d ts.set) :
    p ∈ d.archive.map SSTable.path := by
  rw [Engine.gone, ← List.append_assoc] at hp
  rcases List.mem_append.mp hp with hp | hp
  · exact h.removed p hp
  · obtain ⟨t, ht, rfl⟩ := List.mem_map.mp hp
    obtain ⟨hpath, hmem⟩ := h.handles t (List.mem_append_right _ ht)
    rw [hpath]
    exact List.mem_map_of_mem hmem

/-- A name of a later time is new. -/
theorem Archived.ne_of_named (h : Archived st ts d) (hclock : ts.clock < now) {q : String}
    (hp : p ∈ d.archive.map SSTable.path) (hq : ∃ seq, q = tableName seq now) : p ≠ q := by
  obtain ⟨t, ht, rfl⟩ := List.mem_map.mp hp
  obtain ⟨seq, rfl⟩ := hq
  exact (h.named t ht).ne hclock

/-! ## What is written -/

/-- The tables a step writes: one at most, named after the time. -/
structure Writes (clock now : ℕ) (out : List SSTable) : Prop where
  later : clock < now
  one : out.length ≤ 1
  named : ∀ o ∈ out, ∃ seq, o.path = tableName seq now

theorem writes_of_flush {es : List Entry} {t : SSTable} (hclock : ts.clock < now)
    (ht : Tables.flush cfg.fileSize now es = .ok t) : Writes ts.clock now [t] := by
  refine ⟨hclock, le_rfl, fun o ho => ?_⟩
  rw [List.mem_singleton.mp ho]
  exact (Tables.flush_ok ht).2

theorem writes_of_merge {drop : Bool} (h : ts.merge cfg.fileSize drop now = some ts') :
    jobOutput ts.job = [] ∧ ts'.set = ts.set ∧ ts'.clock = now ∧
      Writes ts.clock now (jobOutput ts'.job) := by
  obtain ⟨hclock, plan, hjob, rfl | ⟨handles, r, -, hr, rfl⟩⟩ := Tables.merge_cases h
  · rw [hjob]
    exact ⟨rfl, rfl, rfl, hclock, Nat.zero_le 1, nofun⟩
  · rw [hjob]
    obtain ⟨hone, hpath⟩ := Tables.run_output hr
    exact ⟨rfl, rfl, rfl, hclock, hone, hpath⟩

theorem Writes.nodup (h : Writes ts.clock now out) : (out.map SSTable.path).Nodup := by
  have hone := h.one
  match out with
  | [] => exact .nil
  | [t] => exact List.nodup_singleton _
  | _ :: _ :: _ => simp at hone

theorem Writes.new (hw : Writes ts.clock now out) (h : Archived st ts d)
    (hp : p ∈ d.archive.map SSTable.path) : p ∉ out.map SSTable.path := by
  intro hout
  obtain ⟨o, ho, rfl⟩ := List.mem_map.mp hout
  exact h.ne_of_named hw.later hp (hw.named o ho) rfl

/-- Tables are written to files of their own. -/
theorem Archived.write (h : Archived st ts d) (hw : Writes ts.clock now out) :
    Archived st { ts with clock := now }
      { d with archive := d.archive ++ out, files := d.files ++ out } := by
  refine ⟨?_, ?_, ?_, ?_, ?_, ?_, ?_, ?_, h.doomed⟩
  · rw [List.map_append]
    exact List.nodup_append.mpr ⟨h.nodup, hw.nodup, fun p hp q hq hpq => hw.new h hp (hpq ▸ hq)⟩
  · intro t ht
    rcases List.mem_append.mp ht with ht | ht
    · exact (h.named t ht).mono (le_of_lt hw.later)
    · obtain ⟨seq, hseq⟩ := hw.named t ht
      exact ⟨seq, now, hseq, le_rfl⟩
  · exact fun t ht => List.mem_append_left _ (h.staged t ht)
  · exact fun t ht => List.mem_append_left _ (h.output t ht)
  · exact fun t ht => ⟨(h.handles t ht).1, List.mem_append_left _ (h.handles t ht).2⟩
  · intro p hp
    rw [List.map_append]
    exact List.mem_append_left _ (h.removed p hp)
  · intro t ht hopen
    rcases List.mem_append.mp ht with ht | ht
    · exact List.mem_append_left _ (h.files t ht hopen)
    · exact List.mem_append_right _ ht
  · intro t ht
    rcases List.mem_append.mp ht with ht | ht
    · exact List.mem_append_left _ (h.known t ht)
    · exact List.mem_append_right _ ht

/-- Paths that are new come into use. -/
theorem Paths.use (h : Paths st ts d) (ha : Archived st ts d) (hw : Writes ts.clock now out)
    {st' : Stage} {d' : Storage}
    (hperm : (inUse st' ts').Perm (out.map SSTable.path ++ inUse st ts))
    (hgone : Engine.gone d' ts'.set = Engine.gone d ts.set) : Paths st' ts' d' := by
  constructor
  · rw [hperm.nodup_iff]
    exact List.nodup_append.mpr
      ⟨hw.nodup, h.nodup, fun p hp q hq hpq => hw.new ha (ha.mem_of_inUse hq) (hpq ▸ hp)⟩
  · intro p hp hin
    rw [hgone] at hp
    rcases List.mem_append.mp (hperm.mem_iff.mp hin) with hin | hin
    · exact hw.new ha (ha.mem_of_gone hp) hin
    · exact h.gone p hp hin

/-! ## One step -/

/-- The tables of the set once an edit is applied. -/
theorem mem_apply {e : Tables.Edit} {t : Table}
    (ht : t ∈ (set.apply e).1.tables ++ (set.apply e).1.pending) :
    t ∈ set.tables ++ set.pending ∨ t ∈ e.add := by
  rcases List.mem_append.mp ht with ht | ht
  · rcases List.mem_append.mp ((Tables.apply_tables set e).mem_iff.mp ht) with ht | ht
    · exact .inl (List.mem_append_left _ (List.mem_filter.mp ht).1)
    · exact .inr ht
  · rcases Tables.mem_apply_pending ht with ht | ht
    · exact .inl (List.mem_append_right _ ht)
    · exact .inl (List.mem_append_left _ ht.1)

/-- An edit of the set that adds tables on record. -/
theorem Archived.edit (h : Archived st ts d) (e : Tables.Edit)
    (hadd : ∀ t ∈ e.add, t.path = t.handle.path ∧ t.handle ∈ d.archive) :
    Archived st { ts with set := (ts.set.apply e).1 } d := by
  refine ⟨h.nodup, h.named, h.staged, h.output, fun t ht => ?_, h.removed, h.files, h.known,
    h.doomed⟩
  rcases mem_apply ht with ht | ht
  · exact h.handles t ht
  · exact hadd t ht

theorem Archived.stage (h : Archived st ts d) {st' : Stage}
    (hst : ∀ t, st'.table = some t → t ∈ d.archive) : Archived st' ts d :=
  ⟨h.nodup, h.named, hst, h.output, h.handles, h.removed, h.files, h.known, h.doomed⟩

theorem Archived.job (h : Archived st ts d) {job : Tables.Job}
    (hjob : ∀ t ∈ jobOutput job, t ∈ d.archive) : Archived st { ts with job := job } d :=
  ⟨h.nodup, h.named, h.staged, hjob, h.handles, h.removed, h.files, h.known, h.doomed⟩

/-- Handles are closed, and their files are to be removed. -/
theorem Archived.close (h : Archived st ts d) {paths : List String} {manifest : Manifest}
    {editing : Option (Tables.Result × List Table)} (htables : set.tables = ts.set.tables)
    (hpending : ∀ t ∈ set.pending, t ∈ ts.set.pending) (hpaths : ∀ p ∈ paths, p ∈ gone d ts.set)
    (hedit : editing = d.editing ∨ editing = none) :
    Archived st { ts with set := set }
      { d with
        closed := d.closed ++ paths
        doomed := d.doomed ++ paths
        manifest := manifest
        editing := editing } := by
  refine ⟨h.nodup, h.named, h.staged, h.output, ?_, ?_, ?_, h.known, ?_⟩
  · intro t ht
    rcases List.mem_append.mp ht with ht | ht
    · exact h.handles t (List.mem_append_left _ (htables ▸ ht))
    · exact h.handles t (List.mem_append_right _ (hpending t ht))
  · intro p hp
    rcases List.mem_append.mp hp with hp | hp
    · rcases List.mem_append.mp hp with hp | hp
      · exact h.removed p (List.mem_append_left _ hp)
      · exact h.mem_of_gone (hpaths p hp)
    · rcases hedit with rfl | rfl
      · exact h.removed p (List.mem_append_right _ hp)
      · cases hp
  · exact fun t ht hopen => h.files t ht fun hc => hopen (List.mem_append_left _ hc)
  · intro p hp
    rcases List.mem_append.mp hp with hp | hp
    · exact List.mem_append_left _ (h.doomed p hp)
    · exact List.mem_append_right _ hp

/-- The tables an unpin closes were on their way out. -/
theorem unpin_gone {paths : List String} (p : String)
    (hp : p ∈ (set.unpin paths).2.map Table.path) : p ∈ gone d set := by
  obtain ⟨t, ht, rfl⟩ := List.mem_map.mp hp
  exact List.mem_append_right _
    (List.mem_append_right _ (List.mem_map_of_mem (Tables.mem_unpin ht).1))

theorem removed_gone {r : Tables.Result} {removed : List Table}
    (hedit : d.editing = some (r, removed)) (p : String) (hp : p ∈ removed.map Table.path) :
    p ∈ gone d set := by
  refine List.mem_append_right _ (List.mem_append_left _ ?_)
  rw [Storage.removed, hedit]
  exact hp

/-- **What is written stays on record.** -/
theorem Archived.step {a : Action} (h : Archived s.pipe.stage s.tables s.disk)
    (hs : Step cfg s a s') : Archived s'.pipe.stage s'.tables s'.disk := by
  cases hs with
  | pinTables hv hnone hopen =>
    exact ⟨h.nodup, h.named, h.staged, h.output, h.handles, h.removed, h.files, h.known, h.doomed⟩
  | unpinTables hv htables hclosed hheld =>
    exact h.close (Tables.unpin_tables _ _) (fun _ => Tables.unpin_pending) unpin_gone (.inl rfl)
  | take hidle hchannel => exact h.stage nofun
  | @writeTable now es t hstage hclock ht =>
    refine (h.write (writes_of_flush hclock ht)).stage fun u hu => ?_
    obtain rfl := Option.some.inj hu
    exact List.mem_append_right _ (List.mem_singleton_self t)
  | @install t hstage =>
    have ht : t ∈ s.disk.archive := h.staged t (by rw [hstage]; rfl)
    refine (h.edit ⟨[Table.of t 0], []⟩ fun u hu => ?_).stage fun u hu => ?_
    · rw [List.mem_singleton.mp hu]
      exact ⟨rfl, ht⟩
    · obtain rfl := Option.some.inj hu
      exact ht
  | @record t hstage =>
    have ht : t ∈ s.disk.archive := h.staged t (by rw [hstage]; rfl)
    refine ⟨h.nodup, h.named, fun u hu => ?_, h.output, h.handles, h.removed, h.files, h.known,
      h.doomed⟩
    obtain rfl := Option.some.inj hu
    exact ht
  | retire hstage => exact h.stage nofun
  | planCompaction hedit ht =>
    obtain ⟨plan, -, -, rfl⟩ := Tables.plan_eq_some ht
    exact h.job nofun
  | @mergeTables now t ht =>
    obtain ⟨-, hset, hclock, hw⟩ := writes_of_merge ht
    obtain ⟨set, job, clock⟩ := t
    obtain rfl : set = s.tables.set := hset
    obtain rfl : clock = now := hclock
    exact (h.write hw).job fun o ho => List.mem_append_right _ ho
  | @commitCompaction r hjob =>
    have hout : ∀ o ∈ r.output, o ∈ s.disk.archive := fun o ho => h.output o (by rwa [hjob])
    have hedit := h.edit r.edit fun t ht => by
      obtain ⟨o, ho, rfl⟩ := List.mem_map.mp ht
      exact ⟨rfl, hout o ho⟩
    -- the tables that leave the set were in it, and so in the archive
    refine ⟨h.nodup, h.named, h.staged, nofun, hedit.handles, ?_, h.files, h.known, h.doomed⟩
    intro p hp
    rcases List.mem_append.mp hp with hp | hp
    · exact h.removed p (List.mem_append_left _ hp)
    · obtain ⟨t, ht, rfl⟩ := List.mem_map.mp hp
      have hmem := List.mem_append_left s.tables.set.pending (Tables.mem_apply_removed ht).1
      rw [(h.handles t hmem).1]
      exact List.mem_map_of_mem (h.handles t hmem).2
  | @recordCompaction r removed hedit =>
    exact h.close rfl (fun _ ht => ht) (removed_gone hedit) (.inr rfl)
  | @removeFile path hdoomed =>
    refine ⟨h.nodup, h.named, h.staged, h.output, h.handles, h.removed, ?_, ?_, ?_⟩
    · intro t ht hopen
      -- the file of an open handle is not the one removed, whose handle is closed
      refine List.mem_filter.mpr ⟨h.files t ht hopen, decide_eq_true ?_⟩
      rintro rfl
      exact hopen (h.doomed _ hdoomed)
    · exact fun t ht => h.known t (List.mem_filter.mp ht).1
    · exact fun p hp => h.doomed p (List.mem_of_mem_erase hp)
  | _ => exact h

/-- Paths may leave use, and those on their way out may be closed. -/
theorem Paths.mono (h : Paths st ts d) {st' : Stage} {d' : Storage}
    (huse : inUse st' ts' = inUse st ts)
    (hgone : ∀ p ∈ Engine.gone d' ts'.set, p ∈ Engine.gone d ts.set) : Paths st' ts' d' := by
  constructor
  · rw [huse]
    exact h.nodup
  · intro p hp
    rw [huse]
    exact h.gone p (hgone p hp)

/-- A table that is written joins the set. -/
theorem Paths.install (h : Paths st ts d) {t : SSTable} (hst : st = .written t) :
    Paths (.installed t) (ts.install t) d := by
  have hperm : (inUse (.installed t) (ts.install t)).Perm (inUse st ts) := by
    have htables := (Tables.install_tables ts t).map Table.path
    rw [hst]
    calc (inUse (.installed t) (ts.install t)).Perm
          ((jobOutput ts.job).map SSTable.path ++ (ts.set.tables ++ [Table.of t 0]).map
            Table.path) := htables.append_left _
      _ |>.Perm ((jobOutput ts.job).map SSTable.path ++ ts.set.tables.map Table.path ++
            [t.path]) := by
          rw [List.map_append, List.append_assoc]
          exact .refl _
      _ |>.Perm (inUse (.written t) ts) := List.perm_append_comm
  constructor
  · rw [hperm.nodup_iff]
    exact h.nodup
  · intro p hp
    rw [hperm.mem_iff]
    refine h.gone p ?_
    rcases List.mem_append.mp hp with hp | hp
    · exact List.mem_append_left _ hp
    · refine List.mem_append_right _ ?_
      rcases List.mem_append.mp hp with hp | hp
      · exact List.mem_append_left _ hp
      · obtain ⟨u, hu, rfl⟩ := List.mem_map.mp hp
        rcases Tables.mem_apply_pending hu with hu | hu
        · exact List.mem_append_right _ (List.mem_map_of_mem hu)
        · exact absurd hu.2 (List.not_mem_nil)

/-- The result of a compaction replaces its inputs. -/
theorem Paths.commit (h : Paths st ts d) {r : Tables.Result} (hjob : ts.job = .ran r) :
    Paths st { ts with set := (ts.set.apply r.edit).1, job := .idle }
      { d with editing := some (r, (ts.set.apply r.edit).2) } := by
  have hnodup := h.nodup
  rw [inUse, hjob] at hnodup
  obtain ⟨-, hrest, hstaged⟩ := List.nodup_append.mp hnodup
  obtain ⟨-, -, hout⟩ := List.nodup_append.mp hrest
  have hadd : r.edit.add.map Table.path = r.output.map SSTable.path := by
    simp only [Tables.Result.edit, List.map_map]
    rfl
  set kept := ts.set.tables.filter fun t => t.path ∉ r.edit.removePath with hkept
  have hperm : ((ts.set.apply r.edit).1.tables.map Table.path).Perm
      (r.output.map SSTable.path ++ kept.map Table.path) := by
    have := (Tables.apply_tables ts.set r.edit).map Table.path
    rw [List.map_append, hadd] at this
    exact this.trans List.perm_append_comm
  have huse : (inUse st { ts with set := (ts.set.apply r.edit).1, job := .idle }).Perm
      (st.staged ++ (r.output.map SSTable.path ++ kept.map Table.path)) := hperm.append_left _
  have hsub : (st.staged ++ (r.output.map SSTable.path ++ kept.map Table.path)).Sublist
      (inUse st ts) := by
    rw [inUse, hjob]
    exact ((List.filter_sublist.map Table.path).append_left _).append_left _
  have hold : ∀ p, p ∈ inUse st { ts with set := (ts.set.apply r.edit).1, job := .idle } →
      p ∈ inUse st ts := fun p hp => hsub.mem (huse.mem_iff.mp hp)
  refine ⟨huse.nodup_iff.mpr (h.nodup.sublist hsub), ?_⟩
  -- a table that leaves the set has a path no other table has
  have hleft : ∀ t ∈ ts.set.tables, t.path ∈ r.edit.removePath →
      t.path ∉ inUse st { ts with set := (ts.set.apply r.edit).1, job := .idle } := by
    intro t ht hrem hin
    have hpath := List.mem_map_of_mem (f := Table.path) ht
    rcases List.mem_append.mp hin with hin | hin
    · exact hstaged _ hin _ (List.mem_append_right _ hpath) rfl
    · rcases List.mem_append.mp (hperm.mem_iff.mp hin) with hin | hin
      · exact hout _ hin _ hpath rfl
      · obtain ⟨u, hu, hup⟩ := List.mem_map.mp hin
        have hnot := (List.mem_filter.mp hu).2
        rw [hup] at hnot
        exact absurd hrem (by simpa using hnot)
  intro p hp
  rcases List.mem_append.mp hp with hp | hp
  · exact fun hin => h.gone p (List.mem_append_left _ hp) (hold _ hin)
  rcases List.mem_append.mp hp with hp | hp
  · obtain ⟨t, ht, rfl⟩ := List.mem_map.mp hp
    obtain ⟨hmem, hrem, -⟩ := Tables.mem_apply_removed ht
    exact hleft t hmem hrem
  · obtain ⟨t, ht, rfl⟩ := List.mem_map.mp hp
    rcases Tables.mem_apply_pending ht with hpend | ⟨hmem, hrem⟩
    · refine fun hin => h.gone t.path ?_ (hold _ hin)
      exact List.mem_append_right _ (List.mem_append_right _ (List.mem_map_of_mem hpend))
    · exact hleft t hmem hrem

/-- **A path stays in one place.** -/
theorem Paths.step {a : Action} (h : Paths s.pipe.stage s.tables s.disk)
    (ha : Archived s.pipe.stage s.tables s.disk) (hs : Step cfg s a s') :
    Paths s'.pipe.stage s'.tables s'.disk := by
  cases hs with
  | pinTables hv hnone hopen => exact ⟨h.nodup, h.gone⟩
  | @unpinTables i v tables hv htables hclosed hheld =>
    refine h.mono ?_ ?_
    · simp only [inUse, Tables.unpin_tables]
    · intro p hp
      -- what `Unpin` lets go of was pending
      rcases List.mem_append.mp hp with hp | hp
      · rcases List.mem_append.mp hp with hp | hp
        · exact List.mem_append_left _ hp
        · exact unpin_gone p hp
      · refine List.mem_append_right _ ?_
        rcases List.mem_append.mp hp with hp | hp
        · exact List.mem_append_left _ hp
        · obtain ⟨t, ht, rfl⟩ := List.mem_map.mp hp
          exact List.mem_append_right _ (List.mem_map_of_mem (Tables.unpin_pending ht))
  | take hidle hchannel =>
    refine h.mono ?_ fun _ hp => hp
    rw [hidle]
    rfl
  | writeTable hstage hclock ht =>
    refine h.use ha (writes_of_flush hclock ht) ?_ rfl
    rw [hstage]
    exact .refl _
  | install hstage => exact h.install hstage
  | record hstage =>
    refine h.mono ?_ fun _ hp => hp
    rw [hstage]
    rfl
  | retire hstage =>
    refine h.mono ?_ fun _ hp => hp
    rw [hstage]
    rfl
  | planCompaction hedit ht =>
    obtain ⟨plan, hjob, -, rfl⟩ := Tables.plan_eq_some ht
    refine h.mono ?_ fun _ hp => hp
    rw [inUse, inUse, hjob]
    rfl
  | @mergeTables now t ht =>
    obtain ⟨hjob, hset, -, hw⟩ := writes_of_merge ht
    refine h.use ha hw ?_ (by rw [hset]; rfl)
    simp only [inUse, hjob, hset, List.map_nil, List.nil_append]
    -- the outputs stand behind the staged path, not in front of it
    rw [← List.append_assoc, ← List.append_assoc]
    exact List.perm_append_comm.append_right _
  | commitCompaction hjob => exact h.commit hjob
  | @recordCompaction r removed hedit =>
    refine h.mono rfl fun p hp => ?_
    rcases List.mem_append.mp hp with hp | hp
    · rcases List.mem_append.mp hp with hp | hp
      · exact List.mem_append_left _ hp
      · exact removed_gone hedit p hp
    · exact List.mem_append_right _ (List.mem_append_right _ hp)
  | removeFile hdoomed => exact ⟨h.nodup, h.gone⟩
  | _ => exact h

end LSMEngine.Engine
