import LSMEngine.Wal.RoundTrip
/-!
# WAL — appends after failed writes

A synchronous log whose block writes may fail, each after any number of
bytes. A failed write leaves its bytes in the file and its records in
the open block, and the next write that succeeds goes behind those
bytes. If they are part of a block, the reader takes the header of the
torn block at its word, swallows the beginning of the next one with it,
and loses an append that was answered nil (`torn_write_hides_append`).

As long as a write succeeds only behind whole blocks, every append
answered nil is delivered (`acknowledged_delivered`).
-/

namespace LSMEngine.Wal

/-- The next block write of the log goes through. -/
def WriteGoesThrough (s : World) : Prop :=
  (∃ k, s.wal.f = some ⟨k, true⟩) ∧ s.disk.writeFault.1 = none

/-- The active file is a header and whole blocks. -/
def WholeBlocks (s : World) : Prop :=
  ∃ bytes es, s.disk.content s.wal.path = some bytes ∧ Holds bytes es

/-- Whenever an entry is about to be written and the write goes through,
the active file is a header and whole blocks. -/
def Steady : List Entry → World → Prop
  | [], _ => True
  | e :: es, s =>
    (validateEntry s.wal.blockSize s.wal.maxRecord e = none → WriteGoesThrough s →
      WholeBlocks s) ∧ Steady es (append e s).2

variable {base : String} {s : World} {held pending : List Entry} {junk : Bytes}

/-! ## One append -/

/-- On a file of whole blocks there is no junk: what failed writes have
left counts as written. -/
theorem Intact.whole (h : Intact base s held junk pending) (hw : WholeBlocks s) :
    ∃ held', held ⊆ held' ∧ Intact base s held' [] pending := by
  obtain ⟨⟨k, segs, ess, t, bs, hlay, hs, hheld, hid, hf⟩, hpath, hbs, hrec, hlen, hfits, hio⟩ := h
  obtain ⟨bytes, es, hcontent, cap, id, t', bs', rfl, -⟩ := hw
  rw [hpath, hlay.content_active, Option.some.injEq] at hcontent
  -- both are the active file, so the headers and what follows them agree
  have hheader := congrArg readSegmentHeader hcontent
  rw [readSegmentHeader_append, readSegmentHeader_append] at hheader
  have hparts : (s.wal.blockSize = cap ∧ s.wal.segmentID = id ∧ t = t') ∧
      blocksBytes bs ++ junk = blocksBytes bs' := by
    simpa using hheader
  obtain ⟨⟨rfl, -, -⟩, hblocks⟩ := hparts
  have hentries : blocksEntries bs' =
      blocksEntries bs ++ (readBlocks s.wal.blockSize junk false).entries := by
    have hread := congrArg Reading.entries (readBlocks_blocks bs')
    rw [← hblocks, readBlocks_append] at hread
    exact hread.symm
  refine ⟨ess.flatten ++ blocksEntries bs', ?_, ⟨k, segs, ess, t, bs', ?_, hs, rfl, hid, hf⟩, hpath,
    hbs, hrec, hlen, hfits, hio⟩
  · rw [hheld, hentries, ← List.append_assoc]
    exact List.subset_append_left _ _
  · rw [List.append_nil, ← hblocks]
    exact hlay

/-- What the log has after an append: everything it held, and the entry
if the append was answered nil. -/
def Keeps (base : String) (held : List Entry) (e : Entry) (r : Option Err × World) : Prop :=
  ∃ held', held ⊆ held' ∧ (r.1 = none → e ∈ held') ∧
    ((∃ junk pending, Intact base r.2 held' junk pending) ∨ Stalled base r.2 held')

/-- An append that is not answered nil has only to keep what there was. -/
theorem Keeps.refused {e : Entry} {err : Err}
    (h : (∃ junk pending, Intact base s held junk pending) ∨ Stalled base s held) :
    Keeps base held e (some err, s) := by
  refine ⟨held, List.Subset.refl _, fun hnone => ?_, h⟩
  cases hnone

theorem Keeps.mono {held held' : List Entry} {e : Entry} {r : Option Err × World}
    (h : Keeps base held' e r) (hsub : held ⊆ held') : Keeps base held e r := by
  obtain ⟨held'', hsub', h⟩ := h
  exact ⟨held'', fun _ hx => hsub' (hsub hx), h⟩

/-- The flush that ends an append, with the entry in the open block. -/
theorem keeps_flushAndSync {e : Entry} (h : Intact base s held junk pending) (he : e ∈ pending)
    (hw : s.disk.writeFault.1 = none → junk = []) (syncNow : Bool) :
    Keeps base held e (flushAndSync syncNow s) := by
  have hp : pending ≠ [] := List.ne_nil_of_mem he
  cases hfault : s.disk.writeFault.1 with
  | some n =>
    obtain ⟨⟨ctx, ho⟩, hI⟩ := flushAndSync_torn h hp hfault syncNow
    rw [show flushAndSync syncNow s = (some (.io ctx), (flushAndSync syncNow s).2) from
      Prod.ext ho rfl]
    exact .refused (.inl ⟨_, _, hI⟩)
  | none =>
    obtain rfl := hw hfault
    obtain ⟨-, ⟨-, hI⟩ | ⟨-, hS⟩⟩ := flushAndSync_ok h hp hfault syncNow
    · exact ⟨_, List.subset_append_left _ _, fun _ => List.mem_append_right _ he, .inl ⟨_, _, hI⟩⟩
    · exact ⟨_, List.subset_append_left _ _, fun _ => List.mem_append_right _ he, .inr hS⟩

/-- **One append to an intact log** keeps what the log holds, and holds
the entry once it is answered nil. -/
theorem keeps_append {e : Entry} (h : Intact base s held junk pending)
    (hsteady : validateEntry s.wal.blockSize s.wal.maxRecord e = none → WriteGoesThrough s →
      WholeBlocks s) : Keeps base held e (append e s) := by
  obtain ⟨k, hf⟩ := h.handle
  have hf' := h.f_ne_none
  cases hv : validateEntry s.wal.blockSize s.wal.maxRecord e with
  | some err =>
    rw [append_invalid hf' hv]
    exact .refused (.inl ⟨_, _, h⟩)
  | none =>
    have hwhole : s.disk.writeFault.1 = none → WholeBlocks s :=
      fun hfault => hsteady hv ⟨⟨k, hf⟩, hfault⟩
    have hsize := recordSize_le_of_validateEntry hv
    by_cases hfit : s.wal.blockLen + recordSize e ≤ s.wal.blockSize.toNat
    · -- the record joins the block, and one write decides
      have happend : append e s = flushAndSync (s.push e).wal.sync (s.push e) := by
        simp only [append, appendLocked_fits hf' hv (.inr hfit)]
      rw [happend]
      have hmem : e ∈ pending ++ [e] := List.mem_append_right _ (List.mem_singleton_self e)
      cases hfault : s.disk.writeFault.1 with
      | some n =>
        refine keeps_flushAndSync (h.push hfit) hmem (fun hnone => ?_) _
        change s.disk.writeFault.1 = none at hnone
        rw [hfault] at hnone
        cases hnone
      | none =>
        obtain ⟨held', hsub, hI⟩ := h.whole (hwhole hfault)
        exact (keeps_flushAndSync (hI.push hfit) hmem (fun _ => rfl) _).mono hsub
    · -- the block is written first, to make room
      have hpos : 0 < s.wal.blockLen := by omega
      have hp : pending ≠ [] := by
        rintro rfl
        have := h.blockLen
        simp at this
        omega
      have hlocked := appendLocked_full hf' hv hpos (Nat.not_le.mp hfit)
      obtain ⟨o, s₁, hflush⟩ : ∃ o s₁, flushBlock s = (o, s₁) := ⟨_, _, rfl⟩
      cases hfault : s.disk.writeFault.1 with
      | some n =>
        obtain ⟨⟨ctx, ho⟩, hI⟩ := flushBlock_torn h hp hfault
        rw [hflush] at ho hI hlocked
        obtain rfl : o = some (.io ctx) := ho
        simp only [append, hlocked]
        exact .refused (.inl ⟨_, _, hI⟩)
      | none =>
        obtain ⟨held', hsub, hI⟩ := h.whole (hwhole hfault)
        have hconf := (stable_sameConfig s).flushBlock (.refl s)
        obtain ⟨-, ⟨ho, hI'⟩ | ⟨⟨ctx, ho⟩, hS⟩⟩ := flushBlock_ok hI hp hfault
        · rw [hflush] at ho hI' hlocked hconf
          obtain rfl : o = none := ho
          simp only [append, hlocked]
          have h0 : s₁.wal.blockLen = 0 := hI'.blockLen
          have hroom : s₁.wal.blockLen + recordSize e ≤ s₁.wal.blockSize.toNat := by
            rw [h0, hconf.blockSize]
            omega
          refine (keeps_flushAndSync (hI'.push hroom) ?_ (fun _ => rfl) _).mono
            (List.subset_append_of_subset_left _ hsub)
          exact List.mem_singleton_self e
        · rw [hflush] at ho hS hlocked
          obtain rfl : o = some (.io ctx) := ho
          simp only [append, hlocked]
          exact (Keeps.refused (.inr hS)).mono (List.subset_append_of_subset_left _ hsub)

theorem flushBlock_stalled {k : ℕ} (hf : s.wal.f = some ⟨k, false⟩) (hne : s.wal.blockLen ≠ 0) :
    flushBlock s = (some (.io "write block"), s) := by
  simp only [flushBlock, if_neg hne, hf, Disk.writeBlock, Bool.false_eq_true, if_false]

/-- A stalled log accepts nothing and keeps what it has. -/
theorem append_stalled {e : Entry} (h : Stalled base s held) :
    ∃ err s', append e s = (some err, s') ∧ Stalled base s' held ∧
      (validateEntry s.wal.blockSize s.wal.maxRecord e = some err ∨ err = .io "write block") := by
  obtain ⟨hfiles, k, hf⟩ := h
  have hf' : s.wal.f ≠ none := by rw [hf]; exact Option.some_ne_none _
  cases hv : validateEntry s.wal.blockSize s.wal.maxRecord e with
  | some err => exact ⟨err, s, append_invalid hf' hv, ⟨hfiles, k, hf⟩, .inl rfl⟩
  | none =>
    by_cases hfit : s.wal.blockLen = 0 ∨ s.wal.blockLen + recordSize e ≤ s.wal.blockSize.toNat
    · have hne : (s.push e).wal.blockLen ≠ 0 := by
        have := recordSize_pos e
        change s.wal.blockLen + recordSize e ≠ 0
        omega
      have hflush : flushBlock (s.push e) = (some (.io "write block"), s.push e) :=
        flushBlock_stalled hf hne
      refine ⟨_, s.push e, ?_, ⟨hfiles, k, hf⟩, .inr rfl⟩
      simp only [append, appendLocked_fits hf' hv hfit, flushAndSync, hflush]
    · rw [not_or] at hfit
      have hflush := flushBlock_stalled hf hfit.1
      refine ⟨_, s, ?_, ⟨hfiles, k, hf⟩, .inr rfl⟩
      simp only [append, appendLocked_full hf' hv (by omega) (by omega), hflush]

/-! ## Any number of appends -/

/-- **A run of appends** holds everything it has acknowledged. -/
theorem keeps_appendAll {es : List Entry} (hsteady : Steady es s)
    (h : (∃ junk pending, Intact base s held junk pending) ∨ Stalled base s held) :
    ∃ held', held ⊆ held' ∧ acknowledged (appendAll es s).1 ⊆ held' ∧
      ((∃ junk pending, Intact base (appendAll es s).2 held' junk pending) ∨
        Stalled base (appendAll es s).2 held') := by
  induction es generalizing s held with
  | nil => exact ⟨held, List.Subset.refl _, List.nil_subset _, h⟩
  | cons e es ih =>
    obtain ⟨hstep, hrest⟩ := hsteady
    have hkeeps : Keeps base held e (append e s) := by
      rcases h with ⟨junk, pending, hI⟩ | hS
      · exact keeps_append hI hstep
      · obtain ⟨err, s', happend, hS', -⟩ := append_stalled (e := e) hS
        rw [happend]
        exact .refused (.inr hS')
    obtain ⟨held₁, hsub₁, hack, h₁⟩ := hkeeps
    obtain ⟨held₂, hsub₂, hacks, h₂⟩ := ih hrest h₁
    refine ⟨held₂, fun _ hx => hsub₂ (hsub₁ hx), ?_, h₂⟩
    intro x hx
    simp only [appendAll, acknowledged_cons, List.mem_append] at hx
    rcases hx with hx | hx
    · split at hx
      · next hnone =>
        rw [List.mem_singleton.mp hx]
        exact hsub₂ (hack hnone)
      · cases hx
    · exact hacks hx

/-- A replay delivers what the whole blocks of the files hold, whatever
junk is behind them. -/
theorem mem_replay (h : (∃ junk pending, Intact base s held junk pending) ∨ Stalled base s held)
    (repair : Bool) : held ⊆ (replay collect base repair s.disk []).2.1 := by
  rcases h with ⟨junk, pending, hI⟩ | ⟨⟨segs, ess, hrot, hs, hheld⟩, -⟩
  · obtain ⟨k, segs, ess, t, bs, hlay, hs, hheld, -, -⟩ := hI.files
    rw [replay_layout accepting_collect repair hlay hs, feed_collect, List.nil_append,
      readSegment_header, readBlocks_append, Reading.prepend, hheld, ← List.append_assoc]
    exact List.subset_append_left _ _
  · rw [replay_rotated accepting_collect repair hrot hs, feed_collect, List.nil_append, hheld]
    exact List.Subset.refl _

/-- **Every append answered nil is delivered**, as long as a block is
only ever written behind whole blocks. -/
theorem acknowledged_delivered {opts : Options} {d : Disk} {s : World} {es : List Entry}
    (hfresh : Fresh opts.path d) (hio : d.ioFaults = []) (hopen : openLog opts d = some s)
    (hsteady : Steady es s) (repair : Bool) :
    ∀ e ∈ acknowledged (appendAll es s).1,
      e ∈ (replay collect opts.path repair (appendAll es s).2.disk []).2.1 := by
  obtain ⟨-, hI⟩ := intact_of_openLog hfresh hio hopen
  obtain ⟨held, -, hack, h⟩ := keeps_appendAll hsteady (.inl ⟨_, _, hI⟩)
  exact fun e he => mem_replay h repair (hack he)

/-- A fresh directory in which the first block write fails after `n`
bytes. -/
def faultyDisk (n : ℕ) : Disk := ⟨[], [some n], [], 0⟩

/-- The log `NewWAL` opens there. -/
def faultyLog (n : ℕ) : World where
  wal := ⟨some ⟨0, true⟩, "wal", true, 60, 29, 0, 64, 1, [], 0, false, 0, false⟩
  disk := ⟨[⟨some "wal", encodeSegmentHeader 64 1 0, 0⟩], [some n], [], 1⟩

/-- Two appends to it. -/
def twoAppends : List Entry := [⟨[1], [], true, 1⟩, ⟨[2], [], true, 2⟩]

theorem faultyLog_delivers :
    openLog smallLog (faultyDisk 0) = some (faultyLog 0) ∧ Steady twoAppends (faultyLog 0) ∧
      ⟨[2], [], true, 2⟩ ∈ acknowledged (appendAll twoAppends (faultyLog 0)).1 ∧
      ⟨[2], [], true, 2⟩ ∈
        (replay collect smallLog.path false (appendAll twoAppends (faultyLog 0)).2.disk []).2.1 := by
  have hopen : openLog smallLog (faultyDisk 0) = some (faultyLog 0) := by decide +kernel
  have hfresh : Fresh smallLog.path (faultyDisk 0) := fun f hf => by cases hf
  have hsteady : Steady twoAppends (faultyLog 0) := by
    refine ⟨fun _ hgo => ?_, fun _ _ => ?_, trivial⟩
    · exact absurd hgo.2 (by decide)
    · -- the failed write has left the header alone
      exact ⟨encodeSegmentHeader 64 1 0, [], by decide +kernel, 64, 1, 0, [], rfl, rfl⟩
  have hack : ⟨[2], [], true, 2⟩ ∈ acknowledged (appendAll twoAppends (faultyLog 0)).1 := by
    decide +kernel
  exact ⟨hopen, hsteady, hack, acknowledged_delivered hfresh rfl hopen hsteady false _ hack⟩

/-- **A torn write hides a later append.** The first write stops after
one byte, the second goes through and is acknowledged, and the replay
does not deliver it. -/
theorem torn_write_hides_append :
    ¬ ∀ (opts : Options) (d : Disk) (s : World) (es : List Entry), Fresh opts.path d →
      d.ioFaults = [] → openLog opts d = some s → ∀ e ∈ acknowledged (appendAll es s).1,
        e ∈ (replay collect opts.path false (appendAll es s).2.disk []).2.1 := by
  intro hall
  have hopen : openLog smallLog (faultyDisk 1) = some (faultyLog 1) := by decide +kernel
  have hfresh : Fresh smallLog.path (faultyDisk 1) := fun f hf => by cases hf
  have hack : ⟨[2], [], true, 2⟩ ∈ acknowledged (appendAll twoAppends (faultyLog 1)).1 := by
    decide +kernel
  have hlost : ⟨[2], [], true, 2⟩ ∉
      (replay collect smallLog.path false (appendAll twoAppends (faultyLog 1)).2.disk []).2.1 := by
    decide +kernel
  exact hlost (hall smallLog (faultyDisk 1) (faultyLog 1) twoAppends hfresh rfl hopen _ hack)

end LSMEngine.Wal
