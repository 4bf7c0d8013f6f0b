import LSMEngine.Wal.Log
/-!
# WAL — round trip

A log in synchronous mode, appended to and reopened any number of times
while no call fails: what its replay delivers is what was acknowledged,
in order and once each. One step is an append or a close followed by
`NewWAL`; every step keeps the log `Intact` with an empty open block, so
that at any time the files hold the acknowledged entries and nothing
else.
-/

namespace LSMEngine.Wal

variable {d : Disk} {opts : Options}

/-- What a user of a log does with it. -/
inductive LogOp
  | append (e : Entry)
  | reopen (opts : Options)
  deriving DecidableEq, Repr

/-- A log that `NewWAL` opens in synchronous mode. -/
def openLog (opts : Options) (d : Disk) : Option World :=
  match newWAL { opts with async := false } d with
  | (.error _, _) => none
  | (.ok w, d) => some ⟨w, d⟩

/-- Appends one after another, each with its answer. -/
def appendAll : List Entry → World → List (Entry × Option Err) × World
  | [], s => ([], s)
  | e :: es, s =>
    let r := appendAll es (append e s).2
    ((e, (append e s).1) :: r.1, r.2)

/-- The operations one after another: the answer to each append, and the
log in the end. A close or an open that fails ends the run; the log is
always reopened on its own path. -/
def runLog : List LogOp → World → Option (List (Entry × Option Err) × World)
  | [], s => some ([], s)
  | .append e :: ops, s =>
    (runLog ops (append e s).2).map fun r => ((e, (append e s).1) :: r.1, r.2)
  | .reopen opts :: ops, s =>
    match close s with
    | (some _, _) => none
    | (none, s') => (openLog { opts with path := s.wal.path } s'.disk).bind (runLog ops)

/-- A run from a directory. -/
def runLogFrom (opts : Options) (ops : List LogOp) (d : Disk) :
    Option (List (Entry × Option Err) × World) :=
  (openLog opts d).bind (runLog ops)

/-- The entries whose append was answered nil. -/
def acknowledged (log : List (Entry × Option Err)) : List Entry :=
  (log.filter fun p => p.2.isNone).map Prod.fst

/-- A directory in which no log has been under this name. -/
def Fresh (base : String) (d : Disk) : Prop :=
  ∀ f ∈ d.files, f.name ≠ some base ∧ ∀ name, f.name = some name → segmentNumber base name = none

theorem rotated_of_fresh {base : String} (h : Fresh base d) : Rotated base d.files [] := by
  have hnums : segmentNumbers base d.files = [] := by
    rw [segmentNumbers, List.filterMap_eq_nil_iff]
    intro f hf
    cases hname : f.name with
    | none => rfl
    | some name => exact (h f hf).2 name hname
  refine ⟨fun f hf => (h f hf).1, ?_, fun i hi => absurd hi (Nat.not_lt_zero i)⟩
  rw [hnums]
  exact List.Perm.nil

variable {σ : Type} {base : String} {s : World} {held : List Entry}

theorem newWAL_of_openLog (h : openLog opts d = some s) :
    newWAL { opts with async := false } d = (.ok s.wal, s.disk) := by
  unfold openLog at h
  split at h
  · cases h
  · next hnew =>
    cases h
    exact hnew

/-- A log opened in a fresh directory holds nothing. -/
theorem intact_of_openLog (hfresh : Fresh opts.path d) (hio : d.ioFaults = [])
    (hopen : openLog opts d = some s) :
    s.disk.writeFaults = d.writeFaults ∧ Intact opts.path s [] [] [] := by
  have hrot : Rotated ({ opts with async := false } : Options).path d.files [] :=
    rotated_of_fresh hfresh
  obtain ⟨ho, -, hI⟩ := newWAL_rotated hio hrot List.Forall₂.nil (newWAL_of_openLog hopen)
  exact ⟨ho.writeFaults, hI⟩

/-! ## One step -/

/-- An append to an intact log with an empty block, no write failing. -/
theorem append_ok {e : Entry} (h : Intact base s held [] []) (hw : s.disk.writeFaults = [])
    (hv : validateEntry s.wal.blockSize s.wal.maxRecord e = none) :
    (append e s).2.disk.writeFaults = [] ∧
    (((append e s).1 = none ∧ Intact base (append e s).2 (held ++ [e]) [] []) ∨
      ∃ ctx, (append e s).1 = some (.io ctx)) := by
  have h0 : s.wal.blockLen = 0 := h.blockLen
  have hsize := recordSize_le_of_validateEntry hv
  have hlocked := appendLocked_fits h.f_ne_none hv (.inl h0)
  have hpush : Intact base (s.push e) held [] ([] ++ [e]) := h.push (by rw [h0]; omega)
  have hwrite : (s.push e).disk.writeFault.1 = none := by
    simp only [World.push, Disk.writeFault, hw]
  have happend : append e s = flushAndSync (s.push e).wal.sync (s.push e) := by
    simp only [append, hlocked]
  rw [happend]
  obtain ⟨htail, hres⟩ := flushAndSync_ok hpush (by simp) hwrite (s.push e).wal.sync
  refine ⟨htail.trans (by simp only [World.push, hw, List.tail_nil]), ?_⟩
  rcases hres with hres | ⟨hres, -⟩
  · exact .inl hres
  · exact .inr hres

/-- An append that validation refuses: the error is returned, and
nothing else happens. -/
theorem append_invalid {e : Entry} {err : Err} (hf : s.wal.f ≠ none)
    (hv : validateEntry s.wal.blockSize s.wal.maxRecord e = some err) :
    append e s = (some err, s) := by
  simp only [append, appendLocked_invalid hf hv]

/-- Closing a log with an empty block leaves the files as they are. -/
theorem close_spec (h : Intact base s held [] []) :
    (close s).1 = none ∧ (close s).2.disk = s.disk := by
  obtain ⟨k, hf⟩ := h.handle
  simp only [close, closeFile, hf, flushBlock_empty h, close_of_nil h.noFault, if_true, and_self]

/-- **Opening takes a log over as it was left**, junk included. -/
theorem openLog_layout {k : ℕ} {segs : List Bytes} {ess : List (List Entry)} {cap : UInt32}
    {t : UInt64} {bs : List (Block cap)} {junk : Bytes} (hio : d.ioFaults = [])
    (hs : List.Forall₂ Holds segs ess)
    (hlay : Layout opts.path d.files k segs (encodeSegmentHeader cap (UInt64.ofNat (segs.length + 1)) t ++ (blocksBytes bs ++ junk)))
    (hopen : openLog opts d = some s) :
    s.disk.writeFaults = d.writeFaults ∧ s.wal.blockSize = cap ∧
    Intact opts.path s (ess.flatten ++ blocksEntries bs) junk [] := by
  have hlay' : Layout ({ opts with async := false } : Options).path d.files k segs _ := hlay
  have hinit := newWAL_layout hio hlay' (newWAL_of_openLog hopen)
  obtain ⟨ho, hcap, hI⟩ := initFile_header hio hs hinit hlay'
  exact ⟨ho.writeFaults, hcap, hI⟩

/-- An empty active file is started over. -/
theorem openLog_empty {k : ℕ} {segs : List Bytes} {ess : List (List Entry)} (hio : d.ioFaults = [])
    (hs : List.Forall₂ Holds segs ess) (hlay : Layout opts.path d.files k segs [])
    (hopen : openLog opts d = some s) :
    s.disk.writeFaults = d.writeFaults ∧ Intact opts.path s ess.flatten [] [] := by
  have hlay' : Layout ({ opts with async := false } : Options).path d.files k segs [] := hlay
  have hinit := newWAL_layout hio hlay' (newWAL_of_openLog hopen)
  obtain ⟨ho, -, hI⟩ := initFile_empty hio hs hinit hlay'
  exact ⟨ho.writeFaults, hI⟩

theorem openLog_intact {s' : World} (h : Intact base s held [] []) (hpath : opts.path = base)
    (hopen : openLog opts s.disk = some s') :
    s'.disk.writeFaults = s.disk.writeFaults ∧ Intact base s' held [] [] := by
  obtain ⟨k, segs, ess, t, bs, hlay, hs, hheld, hid, -⟩ := h.files
  rw [hid, ← hpath] at hlay
  rw [hheld, ← hpath]
  obtain ⟨hw, -, hI⟩ := openLog_layout h.noFault hs hlay hopen
  exact ⟨hw, hI⟩

/-! ## Runs -/

theorem acknowledged_cons (e : Entry) (o : Option Err) (log : List (Entry × Option Err)) :
    acknowledged ((e, o) :: log) = (if o = none then [e] else []) ++ acknowledged log := by
  cases o <;> rfl

/-- **The files hold what was acknowledged**, at any time of a run in
which no call fails. -/
theorem intact_of_runLog {ops : List LogOp} {log : List (Entry × Option Err)} {s' : World}
    (h : Intact base s held [] []) (hw : s.disk.writeFaults = [])
    (hrun : runLog ops s = some (log, s')) (hio : ∀ p ∈ log, ∀ ctx, p.2 ≠ some (.io ctx)) :
    Intact base s' (held ++ acknowledged log) [] [] ∧ s'.disk.writeFaults = [] := by
  induction ops generalizing s held log with
  | nil =>
    cases hrun
    rw [show acknowledged [] = [] from rfl, List.append_nil]
    exact ⟨h, hw⟩
  | cons op ops ih =>
    cases op with
    | append e =>
      obtain ⟨⟨log', s''⟩, hrun', heq⟩ := Option.map_eq_some_iff.mp hrun
      cases heq
      have hio' := fun p hp => hio p (List.mem_cons_of_mem _ hp)
      rw [acknowledged_cons]
      cases hv : validateEntry s.wal.blockSize s.wal.maxRecord e with
      | some err =>
        have happend := append_invalid h.f_ne_none hv
        rw [happend] at hrun' ⊢
        exact ih h hw hrun' hio'
      | none =>
        obtain ⟨hw', ⟨ho, hI⟩ | ⟨ctx, ho⟩⟩ := append_ok h hw hv
        · rw [if_pos ho, ← List.append_assoc]
          exact ih hI hw' hrun' hio'
        · exact absurd ho (hio _ List.mem_cons_self ctx)
    | reopen opts =>
      obtain ⟨hclose, hdisk⟩ := close_spec h
      obtain ⟨o, s₁, hs₁⟩ : ∃ o s₁, close s = (o, s₁) := ⟨_, _, rfl⟩
      rw [hs₁] at hclose hdisk
      obtain rfl : o = none := hclose
      obtain hdisk : s₁.disk = s.disk := hdisk
      simp only [runLog, hs₁, hdisk] at hrun
      obtain ⟨s₂, hopen, hrun⟩ := Option.bind_eq_some_iff.mp hrun
      obtain ⟨hw', hI⟩ := openLog_intact h h.path hopen
      exact ih hI (hw'.trans hw) hrun hio

/-- A replay of an intact log without junk delivers what it holds. -/
theorem replay_of_intact {fn : Callback σ Entry} (hfn : Accepting fn) {pending : List Entry}
    (h : Intact base s held [] pending) (repair : Bool) (st : σ) :
    replay fn base repair s.disk st = (.done, feed fn held st, s.disk) := by
  obtain ⟨k, segs, ess, t, bs, hlay, hs, hheld, -, -⟩ := h.files
  have hholds : Holds (encodeSegmentHeader s.wal.blockSize s.wal.segmentID t
      ++ (blocksBytes bs ++ [])) (blocksEntries bs) :=
    ⟨_, _, _, bs, by rw [List.append_nil], rfl⟩
  have hread := readSegment_of_holds hholds
  rw [replay_layout hfn repair hlay hs, hread, hheld]
  simp

theorem isFatalAppendError_of_validateEntry {blockSize : UInt32} {maxRecord : UInt64} {e : Entry}
    {err : Err} (h : validateEntry blockSize maxRecord e = some err) :
    isFatalAppendError err = false := by
  simp only [validateEntry] at h
  repeat' split at h
  all_goals cases h
  all_goals rfl

/-- What an append to an intact log answers: a validation error exactly
where validation says so. -/
theorem append_validation {e : Entry} (h : Intact base s held [] [])
    (hw : s.disk.writeFaults = []) :
    (∃ err, (append e s).1 = some err ∧ isFatalAppendError err = false) ↔
      ∃ err, validateEntry s.wal.blockSize s.wal.maxRecord e = some err := by
  constructor
  · rintro ⟨err, herr, hfatal⟩
    cases hv : validateEntry s.wal.blockSize s.wal.maxRecord e with
    | some err' => exact ⟨err', rfl⟩
    | none =>
      obtain ⟨-, ⟨ho, -⟩ | ⟨ctx, ho⟩⟩ := append_ok h hw hv
      · rw [herr] at ho
        cases ho
      · rw [herr] at ho
        cases ho
        cases hfatal
  · rintro ⟨err, hv⟩
    exact ⟨err, by rw [append_invalid h.f_ne_none hv], isFatalAppendError_of_validateEntry hv⟩

/-! ## The round trip -/

/-- **A replay delivers exactly what was acknowledged**, in append order
and once each, through `Replay` and through `ReplayViews`, whatever the
block sizes, the rotation threshold and the reopenings. An append is
refused by validation exactly for an empty key, an empty value without a
tombstone, or a record beyond the block size of the segment or the
record cap, and then leaves everything as it was. -/
theorem replay_eq_acknowledged {opts : Options} {d : Disk} {ops : List LogOp}
    {log : List (Entry × Option Err)} {s : World} (hfresh : Fresh opts.path d)
    (hwrite : d.writeFaults = []) (hio : d.ioFaults = [])
    (hrun : runLogFrom opts ops d = some (log, s))
    (hnofail : ∀ p ∈ log, ∀ ctx, p.2 ≠ some (.io ctx)) :
    (∀ (σ : Type) (fn : Callback σ Entry), Accepting fn → ∀ (repair : Bool) (st : σ),
      replay fn opts.path repair s.disk st = (.done, feed fn (acknowledged log) st, s.disk)) ∧
    (∀ (σ : Type) (fn : Callback σ EntryView), Accepting fn → ∀ (repair : Bool) (st : σ),
      replayViews fn opts.path repair s.disk st =
        (.done, feed fn ((acknowledged log).map Entry.view) st, s.disk)) ∧
    (∃ active hdr rest, s.disk.content opts.path = some active ∧
      readSegmentHeader active = .ok (hdr, rest) ∧ hdr.blockSize = s.wal.blockSize) ∧
    ∀ e, ((∃ err, (append e s).1 = some err ∧ isFatalAppendError err = false) ↔
        e.key = [] ∨ (e.value = [] ∧ e.tombstone = false) ∨
          s.wal.blockSize.toNat < (newRecordBufferOwned e).total ∨
          (0 < s.wal.maxRecord ∧ s.wal.maxRecord.toNat < (newRecordBufferOwned e).total)) ∧
      ((∃ err, (append e s).1 = some err ∧ isFatalAppendError err = false) →
        (append e s).2 = s) := by
  obtain ⟨s₀, hopen, hrun⟩ := Option.bind_eq_some_iff.mp hrun
  obtain ⟨hw, hI⟩ := intact_of_openLog hfresh hio hopen
  obtain ⟨hI, hw⟩ := intact_of_runLog hI (hw.trans hwrite) hrun hnofail
  rw [List.nil_append] at hI
  have hreplay : ∀ (σ : Type) (fn : Callback σ Entry), Accepting fn → ∀ (repair : Bool) (st : σ),
      replay fn opts.path repair s.disk st = (.done, feed fn (acknowledged log) st, s.disk) :=
    fun σ fn hfn repair st => replay_of_intact hfn hI repair st
  -- a replay of views is a replay of entries under the callback that takes their views
  have hviews : ∀ (σ : Type) (fn : Callback σ EntryView), Accepting fn →
      ∀ (repair : Bool) (st : σ), replayViews fn opts.path repair s.disk st =
        (.done, feed fn ((acknowledged log).map Entry.view) st, s.disk) := by
    intro σ fn hfn repair st
    have haccept : Accepting fun st (e : Entry) => fn st e.view := fun st e => hfn st e.view
    rw [replayViews_eq, hreplay σ _ haccept repair st]
    simp only [feed, List.foldl_map]
  refine ⟨hreplay, hviews, ?_, fun e => ⟨?_, ?_⟩⟩
  · obtain ⟨k, segs, ess, t, bs, hlay, -, -, -, -⟩ := hI.files
    exact ⟨_, _, _, hlay.content_active, readSegmentHeader_append _ _ _ _, rfl⟩
  · exact (append_validation hI hw).trans validateEntry_isSome_iff
  · intro herr
    obtain ⟨err, hv⟩ := (append_validation hI hw).mp herr
    rw [append_invalid hI.f_ne_none hv]

/-- Options of a small log: records of at most 64 bytes, and a new
segment as soon as there are 60 bytes in the file. -/
def smallLog : Options := ⟨"wal", true, 60, 0, 64, false, 0, false⟩

/-- A few operations on it: two segments are filled, one record is
refused. -/
def smallOps : List LogOp :=
  [.append ⟨[1], [7], false, 1⟩, .append ⟨[], [7], false, 2⟩, .reopen { smallLog with blockSize := 30 },
    .append ⟨[2], [], true, 3⟩]

theorem replay_smallLog :
    (runLogFrom smallLog smallOps ⟨[], [], [], 0⟩).map (fun r => acknowledged r.1) =
      some [⟨[1], [7], false, 1⟩, ⟨[2], [], true, 3⟩] ∧
    ∃ log s, runLogFrom smallLog smallOps ⟨[], [], [], 0⟩ = some (log, s) ∧
      replay collect "wal" false s.disk [] = (.done, acknowledged log, s.disk) := by
  refine ⟨by decide +kernel, ?_⟩
  have hsome : (runLogFrom smallLog smallOps ⟨[], [], [], 0⟩).isSome = true := by decide +kernel
  obtain ⟨r, hr⟩ := Option.isSome_iff_exists.mp hsome
  have hok : (runLogFrom smallLog smallOps ⟨[], [], [], 0⟩).map (fun r => r.1.map Prod.snd) =
      some [none, some .walEmptyKey, none] := by decide +kernel
  rw [hr, Option.map_some, Option.some.injEq] at hok
  have hnofail : ∀ p ∈ r.1, ∀ ctx, p.2 ≠ some (.io ctx) := by
    intro p hp ctx hctx
    have hmem : p.2 ∈ r.1.map Prod.snd := List.mem_map_of_mem hp
    rw [hok, hctx] at hmem
    simp at hmem
  have hfresh : Fresh smallLog.path ⟨[], [], [], 0⟩ := fun f hf => by cases hf
  obtain ⟨hreplay, -⟩ := replay_eq_acknowledged hfresh rfl rfl hr hnofail
  refine ⟨r.1, r.2, hr, ?_⟩
  have h := hreplay (List Entry) collect accepting_collect false []
  rwa [feed_collect, List.nil_append] at h

end LSMEngine.Wal
