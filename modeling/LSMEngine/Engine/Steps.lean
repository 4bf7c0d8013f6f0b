import LSMEngine.Common.Runs
import LSMEngine.Engine.Model.Run
import LSMEngine.Engine.Places
/-!
# Engine — what one step does

`Step` lists the outcomes of an action, each with what had to hold and
the parts of the state it touches; `step_of_act` is the one place where
the definitions of the actions are opened. The invariants are proved
over `Step`.
-/

namespace LSMEngine.Engine

open Tables (SSTable Table TableMeta)

variable {cfg : Config} {s s' : State} {a : Action}

/-- A request to write. -/
def Action.isWrite : Action → Prop
  | .put _ _ => True
  | .delete _ => True
  | _ => False

/-- **The outcomes of an action.** -/
inductive Step (cfg : Config) (s : State) : Action → State → Prop
  /-- A write is refused before it takes an index. -/
  | refuse {a : Action} (ha : a.isWrite) : Step cfg s a s
  /-- A write takes an index and is refused. -/
  | bump {a : Action} (ha : a.isWrite) (hfree : s.journal.writer = none) :
      Step cfg s a { s with journal := { s.journal with index := s.journal.index + 1 } }
  /-- A write takes an index and the active memtable. -/
  | acquire {a : Action} (ha : a.isWrite) (hfree : s.journal.writer = none)
      (hindex : s.journal.index + 1 ≠ 0) (key value : Bytes) (tombstone : Bool) :
      Step cfg s a
        { s with
          journal :=
            { s.journal with
              index := s.journal.index + 1
              writer := some
                ⟨s.mems.mem, ⟨key, value, tombstone, s.journal.index + 1⟩, .acquired⟩ } }
  | commitWrite {id : ℕ} {e : Entry} (hw : s.journal.writer = some ⟨id, e, .acquired⟩)
      (full : Bool) :
      Step cfg s .commitWrite
        { s with
          mems := s.mems.write id e
          journal :=
            { s.journal with
              wal := s.journal.wal ++ [e]
              writer := some ⟨id, e, .applied full⟩ } }
  | failWrite {id : ℕ} {e : Entry} (hw : s.journal.writer = some ⟨id, e, .acquired⟩) :
      Step cfg s .failWrite { s with journal := { s.journal with writer := none } }
  | finishWrite {id : ℕ} {e : Entry} {full : Bool} {reuse : Option ℕ}
      (hw : s.journal.writer = some ⟨id, e, .applied full⟩) :
      Step cfg s (.finishWrite reuse) { s with journal := { s.journal with writer := none } }
  | freezeFull {e : Entry} {full : Bool} {reuse : Option ℕ} {m : Mems}
      (hw : s.journal.writer = some ⟨s.mems.mem, e, .applied full⟩) (hm : Froze s.mems m) :
      Step cfg s (.finishWrite reuse)
        { s with
          mems := { m with enqueuing := m.enqueuing ++ [s.mems.mem] }
          journal := { s.journal with writer := none } }
  | openSnapshot {reuse : Option ℕ} {m : Mems} (hm : Froze s.mems m) :
      Step cfg s (.openSnapshot reuse)
        { s with
          mems := m.pin s.mems.mem
          snapshots :=
            s.snapshots ++ [⟨m.immutables.reverse, s.mems.mem, none, false, false⟩] }
  | pinTables {i : ℕ} {v : Snapshot} (hv : s.snapshots[i]? = some v) (hnone : v.tables = none)
      (hopen : v.closed = false) :
      Step cfg s (.pinTables i)
        { s with
          tables := { s.tables with set := s.tables.set.snapshotAndPin.2 }
          snapshots := s.snapshots.set i { v with tables := some s.tables.set.tables } }
  | closeSnapshot {i : ℕ} {v : Snapshot} (hv : s.snapshots[i]? = some v)
      (hsome : v.tables.isSome) (hopen : v.closed = false) :
      Step cfg s (.closeSnapshot i)
        { s with
          mems := s.mems.releasePinned v.frozen
          snapshots := s.snapshots.set i { v with closed := true } }
  | unpinTables {i : ℕ} {v : Snapshot} {tables : List Table} (hv : s.snapshots[i]? = some v)
      (htables : v.tables = some tables) (hclosed : v.closed) (hheld : v.released = false) :
      Step cfg s (.unpinTables i)
        { s with
          tables := { s.tables with set := (s.tables.set.unpin (tables.map Table.path)).1 }
          disk :=
            { s.disk with
              closed := s.disk.closed ++
                (s.tables.set.unpin (tables.map Table.path)).2.map Table.path
              doomed := s.disk.doomed ++
                (s.tables.set.unpin (tables.map Table.path)).2.map Table.path }
          snapshots := s.snapshots.set i { v with released := true } }
  | discard {id : ℕ} (hmem : id ∈ s.mems.enqueuing) (hw : s.journal.writing id = false)
      (hempty : (s.mems.heap id).entries = []) :
      Step cfg s (.enqueue id)
        { s with
          mems := Mems.recycle cfg.pooled
            (Mems.removeImmutable { s.mems with enqueuing := s.mems.enqueuing.erase id } id) id }
  | enqueue {id : ℕ} (hmem : id ∈ s.mems.enqueuing) (hw : s.journal.writing id = false)
      (hfull : (s.mems.heap id).entries ≠ []) :
      Step cfg s (.enqueue id)
        { s with
          mems :=
            { s.mems with
              enqueuing := s.mems.enqueuing.erase id
              flushQueue := s.mems.flushQueue ++ [id] }
          pipe := { s.pipe with sending := s.pipe.sending ++ [(s.mems.heap id).entries] } }
  | send {i : ℕ} {sending blocked channel : List (List Entry)} {flushBlocked : Bool} :
      Step cfg s (.send i)
        { s with pipe := ⟨sending, blocked, flushBlocked, channel, s.pipe.stage⟩ }
  | unblock {i : ℕ} {sending blocked channel : List (List Entry)} {flushBlocked : Bool} :
      Step cfg s (.unblock i)
        { s with pipe := ⟨sending, blocked, flushBlocked, channel, s.pipe.stage⟩ }
  | take {es : List Entry} {rest : List (List Entry)} (hidle : s.pipe.stage = .idle)
      (hchannel : s.pipe.channel = es :: rest) :
      Step cfg s .take { s with pipe := { s.pipe with channel := rest, stage := .taken es } }
  | writeTable {now : ℕ} {es : List Entry} {t : SSTable} (hstage : s.pipe.stage = .taken es)
      (hclock : s.tables.clock < now) (ht : Tables.flush cfg.fileSize now es = .ok t) :
      Step cfg s (.writeTable now)
        { s with
          pipe := { s.pipe with stage := .written t }
          tables := { s.tables with clock := now }
          disk :=
            { s.disk with
              archive := s.disk.archive ++ [t]
              files := s.disk.files ++ [t] } }
  | install {t : SSTable} (hstage : s.pipe.stage = .written t) :
      Step cfg s .install
        { s with tables := s.tables.install t, pipe := { s.pipe with stage := .installed t } }
  | record {t : SSTable} (hstage : s.pipe.stage = .installed t) :
      Step cfg s .record
        { s with
          pipe := { s.pipe with stage := .recorded t }
          disk :=
            { s.disk with
              manifest := s.disk.manifest.edit [Tables.tableMetaFromSSTable t 0] [] t.seq } }
  | retire {t : SSTable} (hstage : s.pipe.stage = .recorded t) :
      Step cfg s .retire
        { s with
          mems := s.mems.popFlushedTable cfg.pooled
          pipe := { s.pipe with stage := .idle } }
  | planCompaction {t : Tables.State} (hedit : s.disk.editing = none)
      (ht : s.tables.plan cfg.planner = some t) :
      Step cfg s .planCompaction { s with tables := t }
  | mergeTables {now : ℕ} {t : Tables.State}
      (ht : s.tables.merge cfg.fileSize cfg.dropTombstones now = some t) :
      Step cfg s (.mergeTables now)
        { s with
          tables := t
          disk :=
            { s.disk with
              archive := s.disk.archive ++ jobOutput t.job
              files := s.disk.files ++ jobOutput t.job } }
  | commitCompaction {r : Tables.Result} (hjob : s.tables.job = .ran r) :
      Step cfg s .commitCompaction
        { s with
          tables := { s.tables with set := (s.tables.set.apply r.edit).1, job := .idle }
          disk := { s.disk with editing := some (r, (s.tables.set.apply r.edit).2) } }
  | recordCompaction {r : Tables.Result} {removed : List Table}
      (hedit : s.disk.editing = some (r, removed)) :
      Step cfg s .recordCompaction
        { s with
          disk :=
            { s.disk with
              manifest := s.disk.manifest.edit (r.edit.add.map Table.metadata) r.edit.removePath 0
              closed := s.disk.closed ++ removed.map Table.path
              doomed := s.disk.doomed ++ removed.map Table.path
              editing := none } }
  | removeFile {path : String} (hdoomed : path ∈ s.disk.doomed) :
      Step cfg s (.removeFile path)
        { s with
          disk :=
            { s.disk with
              files := s.disk.files.filter fun t => t.path ≠ path
              doomed := s.disk.doomed.erase path } }

theorem step_of_startWrite {key value : Bytes} {tombstone : Bool} (ha : a.isWrite)
    (h : startWrite cfg s key value tombstone = some s') : Step cfg s a s' := by
  unfold startWrite at h
  split at h
  · next hfree =>
    have hfree : s.journal.writer = none := by simpa using hfree
    obtain rfl := Option.some.inj h
    unfold beginWrite
    split
    · exact .refuse ha
    · split
      · exact .refuse ha
      · split
        · exact .refuse ha
        · dsimp only
          split
          · exact .bump ha hfree
          · next hgo =>
            rw [not_or] at hgo
            exact .acquire ha hfree hgo.1 key value tombstone
  · cases h

theorem step_of_commitWrite (h : commitWrite cfg s = some s') : Step cfg s .commitWrite s' := by
  unfold commitWrite at h
  split at h
  · next id e hw =>
    obtain rfl := Option.some.inj h
    exact .commitWrite hw _
  · cases h

theorem step_of_finishWrite {reuse : Option ℕ} (h : finishWrite s reuse = some s') :
    Step cfg s (.finishWrite reuse) s' := by
  unfold finishWrite at h
  split at h
  · next id e full hw =>
    dsimp only at h
    split at h
    · next hfull =>
      obtain ⟨-, rfl⟩ := hfull
      obtain ⟨m, hm, rfl⟩ := Option.map_eq_some_iff.mp h
      exact .freezeFull hw (froze_of_freeze hm)
    · obtain rfl := Option.some.inj h
      exact .finishWrite hw
  · cases h

theorem step_of_enqueue {id : ℕ} (h : enqueue cfg s id = some s') :
    Step cfg s (.enqueue id) s' := by
  unfold enqueue at h
  split at h
  · next hguard =>
    obtain ⟨hmem, hw⟩ := hguard
    have hw : s.journal.writing id = false := by simpa using hw
    dsimp only at h
    split at h
    · next hempty =>
      obtain rfl := Option.some.inj h
      exact .discard hmem hw hempty
    · next hfull =>
      obtain rfl := Option.some.inj h
      exact .enqueue hmem hw hfull
  · cases h

theorem step_of_send {i : ℕ} (h : send cfg s i = some s') : Step cfg s (.send i) s' := by
  unfold send at h
  split at h
  · dsimp only at h
    split at h
    · obtain rfl := Option.some.inj h
      exact .send
    · obtain rfl := Option.some.inj h
      exact .send
  · cases h

theorem step_of_unblock {i : ℕ} (h : unblock cfg s i = some s') : Step cfg s (.unblock i) s' := by
  unfold unblock at h
  split at h
  · split at h
    · obtain rfl := Option.some.inj h
      exact .unblock
    · cases h
  · cases h

theorem step_of_writeTable {now : ℕ} (h : writeTable cfg s now = some s') :
    Step cfg s (.writeTable now) s' := by
  unfold writeTable at h
  split at h
  · next es hstage =>
    split at h
    · next hclock =>
      split at h
      · next t ht =>
        obtain rfl := Option.some.inj h
        exact .writeTable hstage hclock ht
      · cases h
    · cases h
  · cases h

/-- **Every action has one of the outcomes.** -/
theorem step_of_act (h : act cfg s a = some s') : Step cfg s a s' := by
  cases a with
  | put key value => exact step_of_startWrite trivial h
  | delete key => exact step_of_startWrite trivial h
  | commitWrite => exact step_of_commitWrite h
  | failWrite =>
    simp only [act, failWrite] at h
    split at h
    · next id e hw =>
      obtain rfl := Option.some.inj h
      exact .failWrite hw
    · cases h
  | finishWrite reuse => exact step_of_finishWrite h
  | openSnapshot reuse =>
    obtain ⟨m, hm, rfl⟩ := Option.map_eq_some_iff.mp h
    exact .openSnapshot (froze_of_freeze hm)
  | pinTables i =>
    simp only [act, pinTables] at h
    split at h
    · next mems frozen released hv =>
      obtain rfl := Option.some.inj h
      exact .pinTables hv rfl rfl
    · cases h
  | closeSnapshot i =>
    simp only [act, closeSnapshot] at h
    split at h
    · next mems frozen tables released hv =>
      obtain rfl := Option.some.inj h
      exact .closeSnapshot hv rfl rfl
    · cases h
  | unpinTables i =>
    simp only [act, unpinTables] at h
    split at h
    · next mems frozen tables hv =>
      obtain rfl := Option.some.inj h
      exact .unpinTables hv rfl rfl rfl
    · cases h
  | enqueue id => exact step_of_enqueue h
  | send i => exact step_of_send h
  | unblock i => exact step_of_unblock h
  | take =>
    simp only [act, take] at h
    split at h
    · next es rest hidle hchannel =>
      obtain rfl := Option.some.inj h
      exact .take hidle hchannel
    · cases h
  | writeTable now => exact step_of_writeTable h
  | install =>
    simp only [act, install] at h
    split at h
    · next t hstage =>
      obtain rfl := Option.some.inj h
      exact .install hstage
    · cases h
  | record =>
    simp only [act, record] at h
    split at h
    · next t hstage =>
      obtain rfl := Option.some.inj h
      exact .record hstage
    · cases h
  | retire =>
    simp only [act, retire] at h
    split at h
    · next t hstage =>
      obtain rfl := Option.some.inj h
      exact .retire hstage
    · cases h
  | planCompaction =>
    simp only [act, planCompaction] at h
    split at h
    · next hedit =>
      obtain ⟨t, ht, rfl⟩ := Option.map_eq_some_iff.mp h
      exact .planCompaction (by simpa using hedit) ht
    · cases h
  | mergeTables now =>
    obtain ⟨t, ht, rfl⟩ := Option.map_eq_some_iff.mp h
    exact .mergeTables ht
  | commitCompaction =>
    simp only [act, commitCompaction] at h
    split at h
    · next r hjob =>
      obtain rfl := Option.some.inj h
      exact .commitCompaction hjob
    · cases h
  | recordCompaction =>
    simp only [act, recordCompaction] at h
    split at h
    · next r removed hedit =>
      obtain rfl := Option.some.inj h
      exact .recordCompaction hedit
    · cases h
  | removeFile path =>
    simp only [act, removeFile] at h
    split at h
    · next hdoomed =>
      obtain rfl := Option.some.inj h
      exact .removeFile hdoomed
    · cases h

/-- **Invariants of runs.** What holds at first and is kept by every step
that meets a condition holds wherever a run of such steps leads. -/
theorem run_induction {P : State → Prop} {C : State → Action → Prop}
    (hstep : ∀ s a s', P s → C s a → Step cfg s a s' → P s') {as : List Action}
    (hs : P s) (hrun : run cfg s as = some s')
    (hcond : Along (act cfg) C s as) : P s' :=
  runs_induction (fun s a s' h hc hact => hstep s a s' h hc (step_of_act hact)) hs hrun hcond

end LSMEngine.Engine
