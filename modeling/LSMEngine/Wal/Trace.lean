import LSMEngine.Wal.Faults
/-!
# WAL — the trace of a failed append

A synchronous log whose block writes may fail, each having written
nothing. A failed write leaves the record in the open block, where the
next append or `Close` finds it: if that one's write goes through, the
record is in the log although its append was refused
(`refused_append_delivered`).

As long as a write goes through only with an empty open block before the
step, a replay delivers exactly the entries whose append did not fail
with its write (`delivers_kept`).
-/

namespace LSMEngine.Wal

variable {e : Entry}

/-! ## Runs -/

/-- What a user of a log with failing writes does: an append, a close,
or `NewWAL` on the directory, after a close or a crash. -/
inductive FaultyOp
  | append (e : Entry)
  | close
  | reopen (opts : Options)
  deriving DecidableEq, Repr

/-- One operation: the answers to appends, and the log after it. -/
def faultyStep (s : World) : FaultyOp → Option (List (Entry × Option Err) × World)
  | .append e => some ([(e, (append e s).1)], (append e s).2)
  | .close => some ([], (close s).2)
  | .reopen opts => (openLog { opts with path := s.wal.path } s.disk).map fun s' => ([], s')

/-- The operations one after another. An open that fails ends the run. -/
def runFaulty : List FaultyOp → World → Option (List (Entry × Option Err) × World)
  | [], s => some ([], s)
  | op :: ops, s =>
    (faultyStep s op).bind fun r => (runFaulty ops r.2).map fun q => (r.1 ++ q.1, q.2)

/-- The error of a failed block write. -/
def writeError : Err := .io "write block"

/-- Whether the record of an append with this answer has been written: the
answer is nil, or the failure of something behind the write. -/
def isWritten : Option Err → Bool
  | none => true
  | some (.io ctx) => ctx ≠ "write block"
  | some _ => false

/-- The entries that were written, in the order of their appends. -/
def keptEntries (log : List (Entry × Option Err)) : List Entry :=
  (log.filter fun p => isWritten p.2).map Prod.fst

/-- Nothing of a failed append is written along: where the write of a
step goes through, the open block is empty before it. -/
def WritesAlone (s : World) : FaultyOp → Prop
  | .append e => validateEntry s.wal.blockSize s.wal.maxRecord e = none → WriteGoesThrough s →
    s.wal.blockLen = 0
  | .close => WriteGoesThrough s → s.wal.blockLen = 0
  | .reopen _ => True

/-- Every step of a run does so. -/
def AllAlone : List FaultyOp → World → Prop
  | [], _ => True
  | op :: ops, s => WritesAlone s op ∧ ∀ r, faultyStep s op = some r → AllAlone ops r.2

theorem keptEntries_append (log log' : List (Entry × Option Err)) :
    keptEntries (log ++ log') = keptEntries log ++ keptEntries log' := by
  rw [keptEntries, List.filter_append, List.map_append, ← keptEntries, ← keptEntries]

/-! ## The scripts only run out -/

/-- Outcomes that are still to come have been to come before, and the log
keeps its path. -/
structure Later (s s' : World) : Prop where
  path : s'.wal.path = s.wal.path
  io : s'.disk.ioFaults <:+ s.disk.ioFaults
  write : s'.disk.writeFaults <:+ s.disk.writeFaults

namespace Later

theorem refl (s : World) : Later s s := ⟨rfl, List.suffix_rfl, List.suffix_rfl⟩

theorem trans {s s' s'' : World} (h : Later s s') (h' : Later s' s'') : Later s s'' :=
  ⟨h'.path.trans h.path, h'.io.trans h.io, h'.write.trans h.write⟩

end Later

theorem stable_later (s₀ : World) : Stable (Later s₀) where
  rotate {s} h := by
    obtain ⟨f, id, size, hw⟩ := rotate_wal s
    have hdisk := Onward.rotate s
    refine h.trans ⟨?_, hdisk.io, hdisk.write⟩
    rw [hw]
  disk h hd := h.trans ⟨rfl, hd.io, hd.write⟩
  written h := h.trans ⟨rfl, List.suffix_rfl, List.suffix_rfl⟩
  push _ h := h.trans ⟨rfl, List.suffix_rfl, List.suffix_rfl⟩
  letGo h := h.trans ⟨rfl, List.suffix_rfl, List.suffix_rfl⟩

/-! ## What the directory holds -/

/-- The directory of a log whose files hold these entries and nothing
else: segments and an active file, or segments alone. -/
def Stored (base : String) (d : Disk) (held : List Entry) : Prop :=
  (∃ (k : ℕ) (segs : List Bytes) (ess : List (List Entry)) (cap : UInt32) (t : UInt64)
    (bs : List (Block cap)),
    Layout base d.files k segs
      (encodeSegmentHeader cap (UInt64.ofNat (segs.length + 1)) t ++ (blocksBytes bs ++ [])) ∧
    List.Forall₂ Holds segs ess ∧ held = ess.flatten ++ blocksEntries bs) ∨
  ∃ segs ess, Rotated base d.files segs ∧ List.Forall₂ Holds segs ess ∧ held = ess.flatten

variable {base : String} {s : World} {held pending : List Entry}

theorem Intact.stored (h : Intact base s held [] pending) : Stored base s.disk held := by
  obtain ⟨k, segs, ess, t, bs, hlay, hs, hheld, hid, -⟩ := h.files
  rw [hid] at hlay
  exact .inl ⟨k, segs, ess, _, t, bs, hlay, hs, hheld⟩

theorem Stalled.stored (h : Stalled base s held) : Stored base s.disk held := .inr h.files

/-- A replay delivers what is stored. -/
theorem Stored.replay {d : Disk} (h : Stored base d held) (repair : Bool) :
    replay collect base repair d [] = (.done, held, d) := by
  rcases h with ⟨k, segs, ess, cap, t, bs, hlay, hs, rfl⟩ | ⟨segs, ess, hrot, hs, rfl⟩
  · have hholds : Holds (encodeSegmentHeader cap (UInt64.ofNat (segs.length + 1)) t ++
        (blocksBytes bs ++ [])) (blocksEntries bs) :=
      ⟨_, _, _, bs, by rw [List.append_nil], rfl⟩
    rw [replay_layout accepting_collect repair hlay hs, readSegment_of_holds hholds, feed_collect]
    simp
  · rw [replay_rotated accepting_collect repair hrot hs, feed_collect, List.nil_append]

/-- **Opening takes over what is stored.** -/
theorem Stored.openLog {d : Disk} {opts : Options} (h : Stored base d held)
    (hio : d.ioFaults = []) (hpath : opts.path = base) (hopen : openLog opts d = some s) :
    s.disk.writeFaults = d.writeFaults ∧ Intact base s held [] [] := by
  rw [← hpath] at h ⊢
  rcases h with ⟨k, segs, ess, cap, t, bs, hlay, hs, rfl⟩ | ⟨segs, ess, hrot, hs, rfl⟩
  · obtain ⟨hw, -, hI⟩ := openLog_layout hio hs hlay hopen
    exact ⟨hw, hI⟩
  · unfold Wal.openLog at hopen
    split at hopen
    · cases hopen
    · next hnew =>
      cases hopen
      have hrot' : Rotated ({ opts with async := false } : Options).path d.files segs := hrot
      obtain ⟨ho, -, hI⟩ := newWAL_rotated hio hrot' hs hnew
      exact ⟨ho.writeFaults, hI⟩

/-- A log without a trace of failed appends: it is open, has lost its
file in a rotation, or is closed. -/
structure Traceless (base : String) (s : World) (held : List Entry) : Prop where
  path : s.wal.path = base
  io : s.disk.ioFaults = []
  write : ∀ o ∈ s.disk.writeFaults, o = none ∨ o = some 0
  log : (∃ pending, Intact base s held [] pending) ∨ Stalled base s held ∨
    (s.wal.f = none ∧ Stored base s.disk held)

theorem Traceless.stored (h : Traceless base s held) : Stored base s.disk held := by
  rcases h.log with ⟨_, hI⟩ | hS | ⟨-, hstored⟩
  · exact hI.stored
  · exact hS.stored
  · exact hstored

/-- The scripts stay as they have to be. -/
theorem Traceless.later {s' : World} {held' : List Entry} (h : Traceless base s held)
    (hlater : Later s s') (hlog : (∃ pending, Intact base s' held' [] pending) ∨
      Stalled base s' held' ∨ (s'.wal.f = none ∧ Stored base s'.disk held')) :
    Traceless base s' held' where
  path := hlater.path.trans h.path
  io := List.suffix_nil.mp (h.io ▸ hlater.io)
  write := fun o ho => h.write o (hlater.write.subset ho)
  log := hlog

/-! ## Writes that fail and writes that go through -/

/-- A write that fails has the error of a failed write, and writes
nothing. -/
theorem flushBlock_failed (h : Intact base s held [] pending) (hp : pending ≠ [])
    (hwrite : s.disk.writeFault.1 = some 0) :
    ∃ s', flushBlock s = (some writeError, s') ∧ Intact base s' held [] pending := by
  have hne := h.blockLen_ne_zero hp
  obtain ⟨k, hf⟩ := h.handle
  obtain ⟨-, hI⟩ := flushBlock_torn h hp hwrite
  rw [List.take_zero, List.append_nil] at hI
  refine ⟨_, Prod.ext ?_ rfl, hI⟩
  obtain ⟨o, d, hd⟩ : ∃ o d, s.disk.writeFault = (o, d) := ⟨_, _, rfl⟩
  rw [hd] at hwrite
  obtain rfl : o = some 0 := hwrite
  simp only [flushBlock, if_neg hne, hf, Disk.writeBlock, if_true, hd, writeError]

/-- No failure behind the write has that error. -/
theorem rotate_ne_writeError (s : World) : (rotate s).1 ≠ some writeError := by
  intro h
  unfold rotate at h
  dsimp only at h
  repeat' split at h
  all_goals simp [writeError] at h

theorem flushBlock_ne_writeError {k : ℕ} (hf : s.wal.f = some ⟨k, true⟩)
    (hwrite : s.disk.writeFault.1 = none) : (flushBlock s).1 ≠ some writeError := by
  obtain ⟨o, d, hd⟩ : ∃ o d, s.disk.writeFault = (o, d) := ⟨_, _, rfl⟩
  rw [hd] at hwrite
  obtain rfl : o = none := hwrite
  unfold flushBlock
  split
  · exact (Option.some_ne_none _).symm
  · simp only [hf, Disk.writeBlock, if_true, hd]
    split
    · exact rotate_ne_writeError _
    · exact (Option.some_ne_none _).symm

theorem isWritten_io {ctx : String} (h : some (Err.io ctx) ≠ some writeError) :
    isWritten (some (.io ctx)) = true := by
  refine decide_eq_true fun hctx => h ?_
  rw [hctx]
  rfl

/-- **A write that goes through** keeps the block, whatever fails behind
it. -/
theorem flushAndSync_written (h : Intact base s held [] pending) (hp : pending ≠ [])
    (hwrite : s.disk.writeFault.1 = none) (syncNow : Bool) :
    isWritten (flushAndSync syncNow s).1 = true ∧
      ((∃ pending', Intact base (flushAndSync syncNow s).2 (held ++ pending) [] pending') ∨
        Stalled base (flushAndSync syncNow s).2 (held ++ pending)) := by
  obtain ⟨k, hf⟩ := h.handle
  obtain ⟨-, ⟨hnone, hI⟩ | ⟨⟨ctx, ho⟩, hS⟩⟩ := flushAndSync_ok h hp hwrite syncNow
  · exact ⟨by rw [hnone]; rfl, .inl ⟨_, hI⟩⟩
  · refine ⟨?_, .inr hS⟩
    rw [ho]
    refine isWritten_io fun heq => ?_
    have hne := flushBlock_ne_writeError hf hwrite
    rw [heq] at ho
    unfold flushAndSync at ho
    split at ho
    · next err s' hflush =>
      rw [hflush] at hne
      exact hne ho
    · split at ho
      · unfold syncFile at ho
        split at ho
        · simp [writeError] at ho
        · split at ho <;> simp [writeError] at ho
      · simp [writeError] at ho

/-- A failure comes from the script. -/
theorem mem_of_writeFault {d : Disk} {n : ℕ} (h : d.writeFault.1 = some n) :
    some n ∈ d.writeFaults := by
  unfold Disk.writeFault at h
  split at h
  · cases h
  · next o os hos =>
    rw [hos, ← h]
    exact List.mem_cons_self

/-! ## One step -/

/-- What a step does: what is held grows by what the step has kept. -/
def StepKeeps (base : String) (held : List Entry) (r : List (Entry × Option Err) × World) : Prop :=
  Traceless base r.2 (held ++ keptEntries r.1)

theorem keptEntries_written {o : Option Err} (h : isWritten o = true) :
    keptEntries [(e, o)] = [e] := by
  rw [keptEntries, List.filter_cons_of_pos (by exact h)]
  rfl

theorem keptEntries_refused {o : Option Err} (h : isWritten o = false) :
    keptEntries [(e, o)] = [] := by
  rw [keptEntries, List.filter_cons_of_neg (by rw [h]; decide)]
  rfl

theorem isWritten_of_invalid {blockSize : UInt32} {maxRecord : UInt64} {err : Err}
    (h : validateEntry blockSize maxRecord e = some err) : isWritten (some err) = false := by
  simp only [validateEntry] at h
  repeat' split at h
  all_goals cases h
  all_goals rfl

section

variable (h : Traceless base s held)
include h

/-- An append that is refused and leaves no trace. -/
theorem stepKeeps_refused (hrefused : isWritten (append e s).1 = false)
    (hlog : (∃ pending, Intact base (append e s).2 held [] pending) ∨
      Stalled base (append e s).2 held ∨
      ((append e s).2.wal.f = none ∧ Stored base (append e s).2.disk held)) :
    StepKeeps base held ([(e, (append e s).1)], (append e s).2) := by
  rw [StepKeeps, keptEntries_refused hrefused, List.append_nil]
  exact h.later ((stable_later s).append e (.refl s)) hlog

theorem stepKeeps_append_intact (hI : Intact base s held [] pending)
    (halone : WritesAlone s (.append e)) :
    StepKeeps base held ([(e, (append e s).1)], (append e s).2) := by
  obtain ⟨k, hf⟩ := hI.handle
  have hf' := hI.f_ne_none
  cases hv : validateEntry s.wal.blockSize s.wal.maxRecord e with
  | some err =>
    have happend := append_invalid hf' hv
    refine stepKeeps_refused h ?_ (.inl ⟨pending, ?_⟩)
    · rw [happend]
      exact isWritten_of_invalid hv
    · rwa [happend]
  | none =>
    have hsize := recordSize_le_of_validateEntry hv
    have hroom : s.wal.blockLen = 0 ∨ s.wal.blockLen + recordSize e ≤ s.wal.blockSize.toNat →
        append e s = flushAndSync (s.push e).wal.sync (s.push e) ∧
          Intact base (s.push e) held [] (pending ++ [e]) := by
      intro hfit
      refine ⟨by simp only [append, appendLocked_fits hf' hv hfit], hI.push ?_⟩
      omega
    cases hfault : s.disk.writeFault.1 with
    | none =>
      -- the write goes through, so the open block was empty
      have h0 := halone hv ⟨⟨k, hf⟩, hfault⟩
      have hnil : pending = [] := by
        by_contra hne
        exact hI.blockLen_ne_zero hne h0
      subst hnil
      obtain ⟨happend, hpush⟩ := hroom (.inl h0)
      have hwrite : (s.push e).disk.writeFault.1 = none := hfault
      obtain ⟨hwritten, hlog⟩ := flushAndSync_written hpush (List.cons_ne_nil _ _) hwrite
        (s.push e).wal.sync
      rw [← happend] at hwritten hlog
      rw [StepKeeps, keptEntries_written hwritten]
      exact h.later ((stable_later s).append e (.refl s)) (hlog.imp id .inl)
    | some n =>
      have hzero : s.disk.writeFault.1 = some 0 := by
        rcases h.write _ (mem_of_writeFault hfault) with hnone | hn
        · cases hnone
        · rw [hfault, hn]
      by_cases hfit : s.wal.blockLen = 0 ∨ s.wal.blockLen + recordSize e ≤ s.wal.blockSize.toNat
      · obtain ⟨happend, hpush⟩ := hroom hfit
        have hwrite : (s.push e).disk.writeFault.1 = some 0 := hzero
        obtain ⟨s', hflush, hkept⟩ := flushBlock_failed hpush
          (List.append_ne_nil_of_right_ne_nil _ (List.cons_ne_nil _ _)) hwrite
        rw [flushAndSync, hflush] at happend
        refine stepKeeps_refused h ?_ (.inl ⟨pending ++ [e], ?_⟩)
        · rw [happend]
          rfl
        · rw [happend]
          exact hkept
      · rw [not_or] at hfit
        have hp : pending ≠ [] := by
          rintro rfl
          exact hfit.1 hI.blockLen
        obtain ⟨s', hflush, hkept⟩ := flushBlock_failed hI hp hzero
        have happend : append e s = (some writeError, s') := by
          rw [append, appendLocked_full hf' hv (by omega) (by omega), hflush]
        refine stepKeeps_refused h ?_ (.inl ⟨pending, ?_⟩)
        · rw [happend]
          rfl
        · rw [happend]
          exact hkept

/-- A log that has lost its file refuses every append. -/
theorem stepKeeps_append_stalled (hS : Stalled base s held) :
    StepKeeps base held ([(e, (append e s).1)], (append e s).2) := by
  obtain ⟨err, s', happend, hS', herr⟩ := append_stalled (e := e) hS
  refine stepKeeps_refused h ?_ (.inr (.inl ?_))
  · rw [happend]
    rcases herr with hv | rfl
    · exact isWritten_of_invalid hv
    · rfl
  · rw [happend]
    exact hS'

/-- So does a closed one. -/
theorem stepKeeps_append_closed (hf : s.wal.f = none) :
    StepKeeps base held ([(e, (append e s).1)], (append e s).2) := by
  have happend : append e s = (some .walClosed, s) := by
    simp only [append, appendLocked, hf]
  refine stepKeeps_refused h ?_ (.inr (.inr ?_))
  · rw [happend]
    rfl
  · rw [happend]
    exact ⟨hf, h.stored⟩

theorem stepKeeps_close (halone : WritesAlone s .close) :
    StepKeeps base held ([], (close s).2) := by
  rw [StepKeeps, show keptEntries [] = [] from rfl, List.append_nil]
  refine h.later ((stable_later s).close (.refl s)) ?_
  -- a flush with nothing to write leaves only the close
  have hempty : ∀ {hd : Handle}, s.wal.f = some hd → s.wal.blockLen = 0 →
      (close s).2.wal.f = none ∧ Stored base (close s).2.disk held := by
    intro hd hf h0
    have hflush : flushBlock s = (none, s) := by rw [flushBlock, if_pos h0]
    have hclose : (close s).2 = ⟨{ s.wal with f := none }, s.disk⟩ := by
      simp only [close, hf, hflush, closeFile, close_of_nil h.io]
    rw [hclose]
    exact ⟨rfl, h.stored⟩
  rcases h.log with ⟨pending, hI⟩ | hS | ⟨hf, hstored⟩
  · obtain ⟨k, hf⟩ := hI.handle
    by_cases h0 : s.wal.blockLen = 0
    · exact .inr (.inr (hempty hf h0))
    · have hp : pending ≠ [] := by
        rintro rfl
        exact h0 hI.blockLen
      have hzero : s.disk.writeFault.1 = some 0 := by
        cases hfault : s.disk.writeFault.1 with
        | none => exact absurd (halone ⟨⟨k, hf⟩, hfault⟩) h0
        | some n =>
          rcases h.write _ (mem_of_writeFault hfault) with hnone | hn
          · cases hnone
          · exact hn
      obtain ⟨s', hflush, hkept⟩ := flushBlock_failed hI hp hzero
      have hclose : close s = (some writeError, s') := by
        rw [close, hf, hflush]
      rw [hclose]
      exact .inl ⟨pending, hkept⟩
  · obtain ⟨hfiles, k, hf⟩ := hS
    by_cases h0 : s.wal.blockLen = 0
    · exact .inr (.inr (hempty hf h0))
    · have hclose : close s = (some writeError, s) := by
        rw [close, hf]
        simp only [flushBlock_stalled hf h0]
        rfl
      rw [hclose]
      exact .inr (.inl ⟨hfiles, k, hf⟩)
  · have hclose : close s = (none, s) := by rw [close, hf]
    rw [hclose]
    exact .inr (.inr ⟨hf, hstored⟩)

/-- **A step that writes alone** keeps the log without a trace. -/
theorem stepKeeps {op : FaultyOp} {r : List (Entry × Option Err) × World}
    (halone : WritesAlone s op) (hstep : faultyStep s op = some r) : StepKeeps base held r := by
  cases op with
  | append e =>
    obtain rfl := Option.some.inj hstep
    rcases h.log with ⟨pending, hI⟩ | hS | ⟨hf, -⟩
    · exact stepKeeps_append_intact h hI halone
    · exact stepKeeps_append_stalled h hS
    · exact stepKeeps_append_closed h hf
  | close =>
    obtain rfl := Option.some.inj hstep
    exact stepKeeps_close h halone
  | reopen opts =>
    obtain ⟨s', hopen, rfl⟩ := Option.map_eq_some_iff.mp hstep
    obtain ⟨hw, hI⟩ := h.stored.openLog h.io h.path hopen
    rw [StepKeeps, show keptEntries [] = [] from rfl, List.append_nil]
    exact ⟨hI.path, hI.noFault, fun o ho => h.write o (hw ▸ ho), .inl ⟨[], hI⟩⟩

/-! ## Runs -/

/-- **In a run whose writes are alone** the log holds what was kept. -/
theorem traceless_of_runFaulty {ops : List FaultyOp} {log : List (Entry × Option Err)} {s' : World}
    (halone : AllAlone ops s) (hrun : runFaulty ops s = some (log, s')) :
    Traceless base s' (held ++ keptEntries log) := by
  induction ops generalizing s held log with
  | nil =>
    cases hrun
    rw [show keptEntries [] = [] from rfl, List.append_nil]
    exact h
  | cons op ops ih =>
    obtain ⟨r, hstep, hrest⟩ := Option.bind_eq_some_iff.mp hrun
    obtain ⟨⟨log', s''⟩, hrun', heq⟩ := Option.map_eq_some_iff.mp hrest
    cases heq
    have hnext := ih (stepKeeps h halone.1 hstep) (halone.2 r hstep) hrun'
    rwa [List.append_assoc, ← keptEntries_append] at hnext

end

/-- An entry whose append failed with its write is not kept, unless it
was appended once more. -/
theorem not_mem_keptEntries {log : List (Entry × Option Err)} (hnodup : (log.map Prod.fst).Nodup)
    (he : (e, some writeError) ∈ log) : e ∉ keptEntries log := by
  intro hmem
  obtain ⟨⟨e', o⟩, hp, rfl⟩ := List.mem_map.mp hmem
  obtain ⟨hlog, hwritten⟩ := List.mem_filter.mp hp
  obtain ⟨-, rfl⟩ := Prod.mk.inj (List.inj_on_of_nodup_map hnodup he hlog rfl)
  cases hwritten

/-- **A failed append leaves no trace** where every write that goes
through finds the open block empty: a replay delivers exactly what was
written, in order, and none of the records whose write failed. -/
theorem delivers_kept {opts : Options} {d : Disk} {s s' : World} {ops : List FaultyOp}
    {log : List (Entry × Option Err)} (hfresh : Fresh opts.path d) (hio : d.ioFaults = [])
    (hwrite : ∀ o ∈ d.writeFaults, o = none ∨ o = some 0) (hopen : openLog opts d = some s)
    (halone : AllAlone ops s) (hrun : runFaulty ops s = some (log, s')) (repair : Bool) :
    replay collect opts.path repair s'.disk [] = (.done, keptEntries log, s'.disk) ∧
      ((log.map Prod.fst).Nodup → ∀ e, (e, some writeError) ∈ log →
        e ∉ (replay collect opts.path repair s'.disk []).2.1) := by
  obtain ⟨hw, hI⟩ := intact_of_openLog hfresh hio hopen
  have hstart : Traceless opts.path s [] :=
    ⟨hI.path, hI.noFault, fun o ho => hwrite o (hw ▸ ho), .inl ⟨[], hI⟩⟩
  have hend := (traceless_of_runFaulty hstart halone hrun).stored.replay repair
  rw [List.nil_append] at hend
  refine ⟨hend, fun hnodup e he => ?_⟩
  rw [hend]
  exact not_mem_keptEntries hnodup he

/-- A failed append, and a restart. -/
def failAndReopen : List FaultyOp :=
  [.append ⟨[1], [], true, 1⟩, .reopen smallLog, .append ⟨[2], [], true, 2⟩]

theorem delivers_kept_after_reopen :
    openLog smallLog (faultyDisk 0) = some (faultyLog 0) ∧ AllAlone failAndReopen (faultyLog 0) ∧
      ∃ log s', runFaulty failAndReopen (faultyLog 0) = some (log, s') ∧
        log.map Prod.snd = [some writeError, none] ∧
        replay collect smallLog.path false s'.disk [] = (.done, keptEntries log, s'.disk) ∧
        ((log.map Prod.fst).Nodup → ∀ e, (e, some writeError) ∈ log →
          e ∉ (replay collect smallLog.path false s'.disk []).2.1) := by
  have hopen : openLog smallLog (faultyDisk 0) = some (faultyLog 0) := by decide +kernel
  have hfresh : Fresh smallLog.path (faultyDisk 0) := fun f hf => absurd hf List.not_mem_nil
  have hwrite : ∀ o ∈ (faultyDisk 0).writeFaults, o = none ∨ o = some 0 := by decide
  have halone : AllAlone failAndReopen (faultyLog 0) := by
    refine ⟨fun _ hgo => absurd hgo.2 (by decide), fun r hr => ⟨trivial, fun r' hr' => ?_⟩⟩
    obtain rfl := Option.some.inj hr
    -- the new log starts with an empty block
    have hempty : ((faultyStep (append ⟨[1], [], true, 1⟩ (faultyLog 0)).2 (.reopen smallLog)).all
        fun r => r.2.wal.blockLen == 0) = true := by decide +kernel
    rw [hr'] at hempty
    exact ⟨fun _ _ => beq_iff_eq.mp hempty, fun _ _ => trivial⟩
  have hanswers : (runFaulty failAndReopen (faultyLog 0)).map (fun r => r.1.map Prod.snd) =
      some [some writeError, none] := by decide +kernel
  obtain ⟨⟨log, s'⟩, hrun, hlog⟩ := Option.map_eq_some_iff.mp hanswers
  exact ⟨hopen, halone, log, s', hrun, hlog,
    delivers_kept hfresh rfl hwrite hopen halone hrun false⟩

/-- **A refused append is delivered.** The write of the first append
fails, and its record goes into the log with the second one. -/
theorem refused_append_delivered :
    ¬ ∀ (opts : Options) (d : Disk) (s s' : World) (ops : List FaultyOp)
      (log : List (Entry × Option Err)), Fresh opts.path d → d.ioFaults = [] →
      (∀ o ∈ d.writeFaults, o = none ∨ o = some 0) → openLog opts d = some s →
      runFaulty ops s = some (log, s') → (log.map Prod.fst).Nodup →
      ∀ e, (e, some writeError) ∈ log →
        e ∉ (replay collect opts.path false s'.disk []).2.1 := by
  intro hall
  have hopen : openLog smallLog (faultyDisk 0) = some (faultyLog 0) := by decide +kernel
  have hfresh : Fresh smallLog.path (faultyDisk 0) := fun f hf => absurd hf List.not_mem_nil
  have hwrite : ∀ o ∈ (faultyDisk 0).writeFaults, o = none ∨ o = some 0 := by decide
  have hanswers : (runFaulty (twoAppends.map .append) (faultyLog 0)).map Prod.fst =
      some [(⟨[1], [], true, 1⟩, some writeError), (⟨[2], [], true, 2⟩, none)] := by
    decide +kernel
  have hdelivered : (runFaulty (twoAppends.map .append) (faultyLog 0)).map
      (fun r => (replay collect smallLog.path false r.2.disk []).2.1) = some twoAppends := by
    decide +kernel
  obtain ⟨⟨log, s'⟩, hrun, hlog⟩ := Option.map_eq_some_iff.mp hanswers
  rw [hrun] at hdelivered
  obtain rfl : log = _ := hlog
  refine hall smallLog (faultyDisk 0) (faultyLog 0) s' _ _ hfresh rfl hwrite hopen hrun (by decide)
    ⟨[1], [], true, 1⟩ List.mem_cons_self ?_
  have hboth : (replay collect smallLog.path false s'.disk []).2.1 = twoAppends :=
    Option.some.inj hdelivered
  rw [hboth]
  exact List.mem_cons_self

end LSMEngine.Wal
