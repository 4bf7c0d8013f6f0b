import LSMEngine.Common.Runs
import LSMEngine.CommitLog.Model.RaftStorage
/-!
# Commit log — the persisted raft log mirrors the storage

The list that is persisted is the log of raft's `MemoryStorage`, and its
indexes count from 1 (`Mirrors`). A batch that starts at most one past the
end keeps that: both lists lose what is not below its first index and get
the batch. So a restart finds the storage as it was when the file was last
replaced (`mirrors_run`).

That is not always the last `Persist` that succeeded, since one that fails
when it syncs the directory has replaced the file (`persist_failed_late`).
-/

namespace LSMEngine.CommitLog

variable {Memory : Type} {raft : MemoryStorage Memory} {s s' : RaftPersistentStorage Memory}
  {d d' : RaftDisk Memory} {batch entries : List RaftpbEntry} {op : StorageOp}
  {ops : List StorageOp}

theorem counts_cons {start : ℕ} {e : RaftpbEntry} :
    Counts start (e :: entries) ↔ e.index = start ∧ Counts (start + 1) entries := by
  rw [Counts, Counts, List.map_cons, List.length_cons, List.range'_succ, List.cons.injEq]

/-- What is below an index is the front of the list. -/
theorem Counts.below_eq {start : ℕ} (h : Counts start entries) (first : ℕ) :
    entries.takeWhile (fun e => e.index < first) = entries.take (first - start) ∧
      entries.filter (fun e => e.index < first) = entries.take (first - start) := by
  induction entries generalizing start with
  | nil => rw [List.takeWhile_nil, List.filter_nil, List.take_nil, and_self]
  | cons e entries ih =>
    obtain ⟨hindex, hrest⟩ := counts_cons.mp h
    obtain ⟨htakeWhile, hfilter⟩ := ih hrest
    by_cases hlt : e.index < first
    · rw [List.takeWhile_cons_of_pos (by simpa using hlt), htakeWhile,
        List.filter_cons_of_pos (by simpa using hlt), hfilter,
        show first - start = first - (start + 1) + 1 by omega, List.take_succ_cons, and_self]
    · rw [List.takeWhile_cons_of_neg (by simpa using hlt),
        List.filter_cons_of_neg (by simpa using hlt), hfilter, show first - start = 0 by omega,
        show first - (start + 1) = 0 by omega, List.take_zero, List.take_zero, and_self]

theorem counts_append {start : ℕ} :
    Counts start (entries ++ batch) ↔
      Counts start entries ∧ Counts (start + entries.length) batch := by
  induction entries generalizing start with
  | nil => exact ⟨fun h => ⟨rfl, h⟩, And.right⟩
  | cons e entries ih =>
    rw [List.cons_append, counts_cons, counts_cons, ih, and_assoc, List.length_cons,
      Nat.add_right_comm start 1, Nat.add_assoc start]

/-- **The storage mirrors the log.** -/
structure Mirrors (raft : MemoryStorage Memory) (s : RaftPersistentStorage Memory) : Prop where
  log : raft.log s.memory = s.entries
  counts : Counts 1 s.entries

/-- **A batch that may come**: its indexes count on, from 1 or later, and
from at most one past the end of the log. -/
def Fits (s : RaftPersistentStorage Memory) : List RaftpbEntry → Prop
  | [] => True
  | e :: batch => 1 ≤ e.index ∧ e.index ≤ s.entries.length + 1 ∧ Counts e.index (e :: batch)

/-- **A batch** keeps the mirror: the entries below its first index stay,
and the batch follows. -/
theorem Mirrors.append (h : Mirrors raft s) {e : RaftpbEntry} (hfits : Fits s (e :: batch)) :
    ∃ s', s.append raft (e :: batch) = some s' ∧ Mirrors raft s' ∧
      s'.entries = s.entries.filter (fun old => old.index < e.index) ++ e :: batch := by
  obtain ⟨hpos, hle, hcounts⟩ := hfits
  obtain ⟨m', happend, -, hlog⟩ := raft.append_log s.memory e batch (h.log ▸ h.counts) hcounts hpos
    (h.log ▸ hle)
  have hentries : appendRaftEntries s.entries (e :: batch) =
      s.entries.take (e.index - 1) ++ e :: batch := by
    rw [appendRaftEntries, (h.counts.below_eq _).1]
  have hcount : Counts 1 (s.entries.take (e.index - 1) ++ e :: batch) := by
    have hall := h.counts
    rw [← List.take_append_drop (e.index - 1) s.entries, counts_append] at hall
    refine counts_append.mpr ⟨hall.1, ?_⟩
    rw [List.length_take, min_eq_left (by omega), show 1 + (e.index - 1) = e.index by omega]
    exact hcounts
  refine ⟨⟨m', s.entries.take (e.index - 1) ++ e :: batch⟩, ?_, ⟨h.log ▸ hlog, hcount⟩, ?_⟩
  · rw [RaftPersistentStorage.append, if_neg (List.cons_ne_nil _ _), happend, Option.map_some,
      hentries]
  · rw [(h.counts.below_eq _).2]

theorem initialState_restoredMemory (st : HardState) :
    raft.initialState (restoredMemory raft st) = st := by
  rw [restoredMemory]
  split
  · next hzero => rw [raft.initialState_new, hzero]
  · exact raft.initialState_setHardState _ _

theorem log_restoredMemory (st : HardState) : raft.log (restoredMemory raft st) = [] := by
  rw [restoredMemory]
  split
  · exact raft.log_new
  · rw [raft.log_setHardState, raft.log_new]

/-- **A restart** from what a mirror has written gives a mirror of the same
hard state and entries. -/
theorem Mirrors.reload (h : Mirrors raft s) :
    ∃ s', newRaftPersistentStorage raft (some (s.diskState raft)) = some s' ∧ Mirrors raft s' ∧
      s'.diskState raft = s.diskState raft := by
  obtain ⟨memory, entries⟩ := s
  rcases entries with _ | ⟨e, entries⟩
  · refine ⟨⟨restoredMemory raft (raft.initialState memory), []⟩, rfl, ⟨log_restoredMemory _, rfl⟩, ?_⟩
    rw [RaftPersistentStorage.diskState, initialState_restoredMemory]
    rfl
  obtain ⟨hindex, -⟩ := counts_cons.mp h.counts
  have hlog : raft.log (restoredMemory raft (raft.initialState memory)) = [] :=
    log_restoredMemory _
  obtain ⟨m', happend, hstate, hlog'⟩ := raft.append_log
    (restoredMemory raft (raft.initialState memory)) e entries (by rw [hlog]; rfl)
    (hindex ▸ h.counts) hindex.ge (by omega)
  refine ⟨⟨m', e :: entries⟩, ?_, ⟨?_, h.counts⟩, ?_⟩
  · rw [newRaftPersistentStorage, RaftPersistentStorage.diskState, if_neg (List.cons_ne_nil _ _),
      happend, Option.map_some]
  · rw [hlog', hlog, List.take_nil, List.nil_append]
  · rw [RaftPersistentStorage.diskState, hstate, initialState_restoredMemory]
    rfl

/-! ## Runs -/

/-- The batch of the step may come. -/
def Proper (d : RaftDisk Memory) : StorageOp → Prop
  | .append batch => Fits d.storage batch
  | _ => True

instance (s : RaftPersistentStorage Memory) : ∀ batch, Decidable (Fits s batch)
  | [] => inferInstanceAs (Decidable True)
  | _ :: _ => inferInstanceAs (Decidable (_ ∧ _ ∧ _ = _))

instance (d : RaftDisk Memory) : ∀ op, Decidable (Proper d op)
  | .append batch => inferInstanceAs (Decidable (Fits d.storage batch))
  | .setHardState _ => inferInstanceAs (Decidable True)
  | .persist _ => inferInstanceAs (Decidable True)
  | .reload => inferInstanceAs (Decidable True)

/-- The storage mirrors the log, and the file was written by one that
did. -/
structure Sound (raft : MemoryStorage Memory) (d : RaftDisk Memory) : Prop where
  storage : Mirrors raft d.storage
  file : ∀ state, d.file = some state → ∃ s, Mirrors raft s ∧ state = s.diskState raft

theorem mirrors_new : Mirrors raft ⟨raft.newMemoryStorage, []⟩ := ⟨raft.log_new, rfl⟩

/-- **A step** does not panic and keeps the mirror. -/
theorem Sound.act (h : Sound raft d) (hop : Proper d op) :
    ∃ d', d.act raft op = some d' ∧ Sound raft d' := by
  cases op with
  | append batch =>
    rcases batch with _ | ⟨e, batch⟩
    · exact ⟨d, rfl, h⟩
    · obtain ⟨s', happend, hs', -⟩ := h.storage.append hop
      exact ⟨{ d with storage := s' }, by rw [RaftDisk.act, happend]; rfl, hs', h.file⟩
  | setHardState st =>
    exact ⟨_, rfl, ⟨(raft.log_setHardState _ _).trans h.storage.log, h.storage.counts⟩, h.file⟩
  | persist result =>
    rw [RaftDisk.act]
    split
    · exact ⟨d, rfl, h⟩
    · refine ⟨_, rfl, h.storage, ?_⟩
      rintro state ⟨⟩
      exact ⟨d.storage, h.storage, rfl⟩
  | reload =>
    obtain ⟨s, hs, hload⟩ : ∃ s, Mirrors raft s ∧ newRaftPersistentStorage raft d.file = some s := by
      rcases hfile : d.file with _ | state
      · exact ⟨_, mirrors_new, rfl⟩
      · obtain ⟨s, hs, rfl⟩ := h.file state hfile
        obtain ⟨s', hload, hs', -⟩ := hs.reload
        exact ⟨s', hs', hload⟩
    exact ⟨{ d with storage := s }, by rw [RaftDisk.act, hload]; rfl, hs, h.file⟩

/-- The step replaces the file. -/
def StorageOp.replaces : StorageOp → Bool
  | .persist result => result ≠ .failed
  | _ => false

/-- Steps that do not replace the file leave it. -/
theorem file_of_not_replaces (hops : ∀ op ∈ ops, op.replaces = false)
    (hrun : runs (RaftDisk.act raft) d ops = some d') : d'.file = d.file := by
  induction ops generalizing d with
  | nil => rw [← Option.some.inj hrun]
  | cons op ops ih =>
    obtain ⟨d₁, hact, hrest⟩ := Option.bind_eq_some_iff.mp hrun
    rw [ih (fun op hop => hops op (List.mem_cons_of_mem _ hop)) hrest]
    cases op with
    | append batch =>
      obtain ⟨s', -, rfl⟩ := Option.map_eq_some_iff.mp hact
      rfl
    | setHardState st => rw [← Option.some.inj hact]
    | persist result =>
      have hfailed : result = .failed := by simpa [StorageOp.replaces] using hops _ List.mem_cons_self
      rw [RaftDisk.act, if_pos hfailed] at hact
      rw [← Option.some.inj hact]
    | reload =>
      obtain ⟨s', -, rfl⟩ := Option.map_eq_some_iff.mp hact
      rfl

/-- **The persisted raft log mirrors the storage it backs.** In every run
of batches that may come, nothing panics; the log is the one in raft's
storage, and its indexes count from 1; a batch that comes next is put
behind the entries below its first index; and a restart gives the hard
state and the entries as they were when the file was last replaced. -/
theorem mirrors_run (raft : MemoryStorage Memory)
    (hproper : Along (RaftDisk.act raft) Proper (RaftDisk.new raft) ops) :
    ∃ d, runs (RaftDisk.act raft) (RaftDisk.new raft) ops = some d ∧
      raft.log d.storage.memory = d.storage.entries ∧
      d.storage.entries.map RaftpbEntry.index = List.range' 1 d.storage.entries.length ∧
      (∀ e batch, Fits d.storage (e :: batch) →
        ∃ s', d.storage.append raft (e :: batch) = some s' ∧
          s'.entries = d.storage.entries.filter (fun old => old.index < e.index) ++ e :: batch) ∧
      ∀ pre result post d₁, ops = pre ++ .persist result :: post → result ≠ .failed →
        (∀ op ∈ post, op.replaces = false) →
        runs (RaftDisk.act raft) (RaftDisk.new raft) pre = some d₁ →
        ∃ s', newRaftPersistentStorage raft d.file = some s' ∧
          raft.initialState s'.memory = raft.initialState d₁.storage.memory ∧
          s'.entries = d₁.storage.entries := by
  have hnew : Sound raft (RaftDisk.new raft) := ⟨mirrors_new, fun _ hstate => by cases hstate⟩
  have hrun : ∀ {d ops}, Sound raft d → Along (RaftDisk.act raft) Proper d ops →
      ∃ d', runs (RaftDisk.act raft) d ops = some d' ∧ Sound raft d' := by
    intro d ops h hproper
    induction ops generalizing d with
    | nil => exact ⟨d, rfl, h⟩
    | cons op ops ih =>
      obtain ⟨d₁, hact, h₁⟩ := h.act (hproper [] op ops d rfl rfl)
      obtain ⟨d', hrest, h'⟩ := ih h₁ (hproper.tail hact)
      exact ⟨d', by rw [runs, hact]; exact hrest, h'⟩
  obtain ⟨d, hd, h⟩ := hrun hnew hproper
  refine ⟨d, hd, h.storage.log, h.storage.counts, fun e batch hfits => ?_, ?_⟩
  · obtain ⟨s', happend, -, hentries⟩ := h.storage.append hfits
    exact ⟨s', happend, hentries⟩
  · rintro pre result post d₁ rfl hresult hpost hpre
    have hproper₁ : Along (RaftDisk.act raft) Proper (RaftDisk.new raft) pre :=
      fun pre' op post' d₂ heq => hproper pre' op (post' ++ .persist result :: post) d₂
        (by rw [heq, List.append_assoc]; rfl)
    obtain ⟨d₁', hpre', h₁⟩ := hrun hnew hproper₁
    obtain rfl := Option.some.inj (hpre.symm.trans hpre')
    rw [runs_append, hpre, Option.bind_some, runs, RaftDisk.act, if_neg hresult,
      Option.bind_some] at hd
    rw [file_of_not_replaces hpost hd]
    obtain ⟨s', hload, -, hdisk⟩ := h₁.storage.reload
    exact ⟨s', hload, RaftDiskState.mk.inj hdisk⟩

/-- A storage of raft's that keeps a hard state and a list, and panics at a
gap. -/
def listStorage : MemoryStorage (HardState × List RaftpbEntry) where
  newMemoryStorage := (⟨0, 0, 0⟩, [])
  initialState := Prod.fst
  setHardState m st := (st, m.2)
  append m batch := match batch with
    | [] => some m
    | e :: _ => if e.index ≤ m.2.length + 1 then some (m.1, m.2.take (e.index - 1) ++ batch) else none
  log := Prod.snd
  initialState_new := rfl
  log_new := rfl
  initialState_setHardState _ _ := rfl
  log_setHardState _ _ := rfl
  append_log _ _ _ _ _ _ hle := ⟨_, if_pos hle, rfl, rfl⟩

/-- A batch that overwrites the end of the log, and a restart. -/
def overwrites : List StorageOp :=
  [.append [⟨1, 1, .normal, []⟩, ⟨1, 2, .normal, [1]⟩], .setHardState ⟨1, 1, 1⟩, .persist .ok,
    .append [⟨2, 2, .normal, [2]⟩], .persist .failed, .reload]

theorem mirrors_overwrites :
    ∃ d, runs (RaftDisk.act listStorage) (RaftDisk.new listStorage) overwrites = some d ∧
      listStorage.log d.storage.memory = d.storage.entries := by
  have hproper : check (RaftDisk.act listStorage) Proper (RaftDisk.new listStorage) overwrites =
      true := by decide +kernel
  obtain ⟨d, hrun, hmirror, -⟩ := mirrors_run listStorage (along_of_check hproper)
  exact ⟨d, hrun, hmirror⟩

/-- **A `Persist` that fails late** has replaced the file: a restart gives
the two entries that it was called with, and not the one at the last
`Persist` that succeeded. -/
theorem persist_failed_late :
    (runs (RaftDisk.act listStorage) (RaftDisk.new listStorage)
        [.append [⟨1, 1, .normal, []⟩], .persist .ok, .append [⟨1, 2, .normal, []⟩],
          .persist .failedLate, .reload]).map
      (fun d => d.storage.entries.map RaftpbEntry.index) = some [1, 2] := by
  decide +kernel

end LSMEngine.CommitLog
