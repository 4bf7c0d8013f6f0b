import LSMEngine.Wal.RoundTrip
/-!
# WAL — durability of answered appends

With `Sync` on, an append is to be answered nil only once the block with
its record is in the durable part of the file it was written to. Two
ways around the sync break that. A write that fills the segment rotates
it before the sync, which then acts on the new file and leaves the block
in the old one unsynced; and the batches `drainAndClose` finds in the
queue are answered before the one sync it does.

An action that takes neither way answers nil only for what is durable
(`answers_durable`), in every run of the writer, whatever fails.
-/

namespace LSMEngine.Wal

variable {d : Disk} {e : Entry} {bs : List (List Entry)} {es : List Entry}

/-! ## Runs of the writer -/

/-- What the writer of a log does: one synchronous append, one batch of
the writer goroutine, or the close that finds these requests queued. -/
inductive WriterAction
  | append (e : Entry)
  | batch (es : List Entry)
  | close (queued : List Entry)
  deriving DecidableEq, Repr

/-- One action: the answers it gives, and the log after it. -/
def writerStep (s : World) : WriterAction → List BatchAnswer × World
  | .append e => ([⟨[e], [(append e s).1], (append e s).2.disk⟩], (append e s).2)
  | .batch es =>
    let r := processBatch es s.wal.sync s
    ([r.1], r.2.2)
  | .close queued =>
    let r := drainAndClose [] queued s
    (r.1, r.2.2)

/-- The log after some actions. -/
def runWriter (s : World) (acts : List WriterAction) : World :=
  acts.foldl (fun s act => (writerStep s act).2) s

/-! ## What has to be durable -/

/-- A block in a file. -/
structure Placed where
  file : ℕ
  start : ℕ
  entries : List Entry

/-- Its bytes. -/
def Placed.bytes (p : Placed) : Bytes := encodeBlock (p.entries.map newRecordBufferOwned)

/-- Where it ends. -/
def Placed.stop (p : Placed) : ℕ := p.start + p.bytes.length

/-- The block has been written since `d₀`, and is durable. -/
structure Placed.DurableSince (d₀ d : Disk) (p : Placed) : Prop where
  fresh : (d₀.bytesOf p.file).length ≤ p.start
  written : ((d.bytesOf p.file).drop p.start).take p.bytes.length = p.bytes
  durable : ∃ f, d.files[p.file]? = some f ∧ p.stop ≤ f.durable

/-- The requests a batch was answered nil for. -/
def BatchAnswer.accepted (a : BatchAnswer) : List Entry := acknowledged (a.reqs.zip a.errs)

/-- **Durably answered**: the requests answered nil are found, in order
and each in its own place, in blocks written since `d₀` that were durable
when the answer was given. -/
def DurablyAnswered (d₀ : Disk) (a : BatchAnswer) : Prop :=
  ∃ ps : List Placed, (∀ p ∈ ps, p.DurableSince d₀ a.disk) ∧
    ps.Pairwise (fun p q => p.file = q.file → p.stop ≤ q.start) ∧
    a.accepted.Sublist (ps.flatMap Placed.entries)

/-! ## Actions that leave the file alone -/

/-- The next flush would fill the segment, and rotate it. -/
def FlushRotates (s : World) : Prop :=
  s.wal.blockLen ≠ 0 ∧ 0 < s.wal.maxBytes ∧
    s.wal.maxBytes ≤ s.wal.sizeBytes + UInt64.ofNat (encodeBlock s.wal.records).length

/-- The block has no room for the record and is flushed first. -/
def Crowds (e : Entry) (s : World) : Prop :=
  0 < s.wal.blockLen ∧ s.wal.blockSize.toNat < s.wal.blockLen + (newRecordBufferOwned e).total

/-- No flush of the batch rotates the segment. -/
def StaysInFile : List Entry → World → Prop
  | [], s => ¬FlushRotates s
  | e :: es, s => (Crowds e s → ¬FlushRotates s) ∧ StaysInFile es (appendLocked e s).2

instance (s : World) : Decidable (FlushRotates s) := inferInstanceAs (Decidable (_ ∧ _ ∧ _))

instance (e : Entry) (s : World) : Decidable (Crowds e s) := inferInstanceAs (Decidable (_ ∧ _))

instance decidableStaysInFile : (es : List Entry) → (s : World) → Decidable (StaysInFile es s)
  | [], s => inferInstanceAs (Decidable (¬FlushRotates s))
  | e :: es, s =>
    haveI := decidableStaysInFile es (appendLocked e s).2
    inferInstanceAs (Decidable ((Crowds e s → ¬FlushRotates s) ∧ StaysInFile es _))

/-- The action neither rotates the segment nor drains requests while
closing. -/
def Undisturbed (s : World) : WriterAction → Prop
  | .append e => StaysInFile [e] s
  | .batch es => StaysInFile es s
  | .close queued => queued = []

/-! ## Every state of the writer -/

/-- What holds of a log whatever has failed: the open block is made of
entries, and the handle is on a file. -/
structure Tracked (s : World) (pending : List Entry) : Prop where
  sync : s.wal.sync = true
  records : s.wal.records = pending.map newRecordBufferOwned
  blockLen : s.wal.blockLen = (pending.map recordSize).sum
  handle : ∀ h, s.wal.f = some h → h.file < s.disk.files.length

/-- An opened file is in the directory. -/
theorem openFile_lt {d' : Disk} {name : String} {trunc : Bool} {i : ℕ}
    (h : d.openFile name trunc = (some i, d')) : i < d'.files.length := by
  unfold Disk.openFile at h
  split at h
  · cases h
  · split at h
    · next hfind =>
      have hlt := (List.findIdx?_eq_some_iff_findIdx_eq.mp hfind).1
      split at h
      · cases h
        rw [List.length_modify]
        exact hlt
      · cases h
        exact hlt
    · split at h
      · cases h
        rw [List.length_append, List.length_singleton]
        omega
      · cases h

variable {s : World} {pending : List Entry}

/-- A rotation leaves the handle on a file. -/
theorem handle_rotate (hh : ∀ h, s.wal.f = some h → h.file < s.disk.files.length) :
    ∀ h, (rotate s).2.wal.f = some h → h.file < (rotate s).2.disk.files.length := by
  have hfiles := (Onward.rotate s).files
  unfold Wal.rotate at hfiles ⊢
  split at hfiles
  · exact hh
  next hd hf =>
  -- a rotation that fails leaves the handle on the file it was on
  have hold : ∀ {d : Disk}, s.disk.files.length ≤ d.files.length →
      ∀ h', some { hd with isOpen := false } = some h' → h'.file < d.files.length := by
    intro d hle h' heq
    cases heq
    exact Nat.lt_of_lt_of_le (hh hd hf) hle
  dsimp only at hfiles ⊢
  split at hfiles
  · exact hold hfiles
  split at hfiles
  · exact hold hfiles
  split at hfiles
  · exact hold hfiles
  next i d ho =>
  have hheader := (Onward.writeHeader d ⟨i, true⟩ (encodeSegmentHeader s.wal.blockSize
    (s.wal.segmentID + 1) (UInt64.ofNat d.clock))).files
  split at hfiles
  · exact hold hfiles
  · next hw =>
    rw [writeSegmentHeader] at hw
    rw [hw] at hheader
    intro h' heq
    cases heq
    exact Nat.lt_of_lt_of_le (openFile_lt ho) hheader

theorem Tracked.rotate (h : Tracked s pending) : Tracked (rotate s).2 pending := by
  obtain ⟨f, id, size, hw⟩ := rotate_wal s
  refine ⟨?_, ?_, ?_, handle_rotate h.handle⟩
  · rw [hw]
    exact h.sync
  · rw [hw]
    exact h.records
  · rw [hw]
    exact h.blockLen

theorem Tracked.disk (h : Tracked s pending) (hd : Onward s.disk d) :
    Tracked { s with disk := d } pending :=
  ⟨h.sync, h.records, h.blockLen, fun h' hh' => (h.handle h' hh').trans_le hd.files⟩

theorem Tracked.push (h : Tracked s pending) :
    Tracked (s.push e) (pending ++ [e]) where
  sync := h.sync
  records := by
    rw [List.map_append, ← h.records]
    rfl
  blockLen := by
    rw [List.map_append, List.sum_append, ← h.blockLen]
    rfl
  handle := h.handle

theorem stable_tracked : Stable fun s => ∃ pending, Tracked s pending where
  rotate := by
    rintro s ⟨pending, h⟩
    exact ⟨pending, h.rotate⟩
  disk := by
    rintro s d ⟨pending, h⟩ hd
    exact ⟨pending, h.disk hd⟩
  written := by
    rintro s ⟨pending, h⟩
    exact ⟨[], h.sync, rfl, rfl, h.handle⟩
  push := by
    rintro s e ⟨pending, h⟩
    exact ⟨_, h.push⟩
  letGo := by
    rintro s ⟨pending, h⟩
    exact ⟨pending, h.sync, h.records, h.blockLen, fun h' hh' => by cases hh'⟩

/-- **Every state of a run** has its open block made of entries and its
handle on a file. -/
theorem Tracked.runWriter (h : Tracked s pending) (acts : List WriterAction) :
    ∃ pending', Tracked (runWriter s acts) pending' := by
  induction acts generalizing s pending with
  | nil => exact ⟨pending, h⟩
  | cons act acts ih =>
    have hstep : ∃ pending', Tracked (writerStep s act).2 pending' := by
      cases act with
      | append e => exact stable_tracked.append e ⟨pending, h⟩
      | batch es => exact stable_tracked.processBatch es s.wal.sync ⟨pending, h⟩
      | close queued => exact stable_tracked.drainAndClose _ _ ⟨pending, h⟩
    obtain ⟨p, hstep⟩ := hstep
    exact ih hstep

/-! ## Blocks added to the file -/

/-- The bytes of the block of some entries. -/
def blockBytes (es : List Entry) : Bytes := encodeBlock (es.map newRecordBufferOwned)

/-- From `s₀` to `s` these blocks were added to the file, and nothing
else happened to it. -/
structure Added (s₀ s : World) (blocks : List (List Entry)) : Prop where
  handle : s.wal.f = s₀.wal.f
  bytes : ∀ h, s₀.wal.f = some h →
    s.disk.bytesOf h.file = s₀.disk.bytesOf h.file ++ blocks.flatMap blockBytes

theorem Added.refl (s : World) : Added s s [] :=
  ⟨rfl, fun _ _ => by rw [List.flatMap_nil, List.append_nil]⟩

theorem Added.trans {s₀ s₁ s₂ : World} {bs' : List (List Entry)} (h : Added s₀ s₁ bs)
    (h' : Added s₁ s₂ bs') : Added s₀ s₂ (bs ++ bs') := by
  refine ⟨h'.handle.trans h.handle, fun hd hf => ?_⟩
  rw [h'.bytes hd (h.handle.trans hf), h.bytes hd hf, List.flatMap_append, List.append_assoc]

theorem bytesOf_push {i : ℕ} (h : i < d.files.length) (bs : Bytes) :
    (d.push i bs).bytesOf i = d.bytesOf i ++ bs := by
  simp [Disk.bytesOf, Disk.push, h]

/-- **A flush that does not rotate** adds the open block to the file. -/
theorem flushBlock_added (h : Tracked s pending) (hstay : ¬FlushRotates s)
    (hok : (flushBlock s).1 = none) :
    ∃ blocks, Added s (flushBlock s).2 blocks ∧ blocks.flatten = pending ∧
      Tracked (flushBlock s).2 [] := by
  by_cases hzero : s.wal.blockLen = 0
  · have hnil : pending = [] := by
      cases pending with
      | nil => rfl
      | cons e es =>
        have hlen := h.blockLen
        have := recordSize_pos e
        rw [hzero, List.map_cons, List.sum_cons] at hlen
        omega
    rw [Wal.flushBlock, if_pos hzero]
    exact ⟨[], .refl s, hnil.symm, hnil ▸ h⟩
  · rw [Wal.flushBlock, if_neg hzero] at hok ⊢
    cases hf : s.wal.f with
    | none => simp only [hf] at hok; cases hok
    | some hd =>
      have hle := (Onward.writeBlock s.disk hd (encodeBlock s.wal.records)).files
      have hlt := h.handle hd hf
      obtain ⟨ok, d, hw⟩ : ∃ ok d, s.disk.writeBlock hd (encodeBlock s.wal.records) = (ok, d) :=
        ⟨_, _, rfl⟩
      simp only [hf, hw] at hok ⊢
      cases ok with
      | false => cases hok
      | true =>
        have hnorot : ¬(0 < (World.written { s with disk := d }).wal.maxBytes ∧
            (World.written { s with disk := d }).wal.maxBytes
              ≤ (World.written { s with disk := d }).wal.sizeBytes) :=
          fun hr => hstay ⟨hzero, hr.1, hr.2⟩
        dsimp only
        rw [if_neg hnorot]
        rw [hw] at hle
        refine ⟨[pending], ⟨rfl, fun h' hf' => ?_⟩, List.flatten_singleton, h.sync, rfl, rfl,
          fun h' hf' => (h.handle h' hf').trans_le hle⟩
        -- the write that succeeded has put the block at the end of the file
        obtain rfl : hd = h' := Option.some.inj (hf.symm.trans hf')
        have hfiles := writeFault_files s.disk
        unfold Disk.writeBlock at hw
        split at hw
        · split at hw
          · next d' hd' =>
            rw [hd'] at hfiles
            obtain hfiles : d'.files = s.disk.files := hfiles
            cases hw
            change (d'.push hd.file _).bytesOf hd.file = _
            rw [bytesOf_push (hfiles ▸ hlt), h.records]
            simp [Disk.bytesOf, hfiles, blockBytes]
          · cases hw
        · cases hw

theorem flushBlock_fatal {err : Err} (h : (flushBlock s).1 = some err) :
    isFatalAppendError err = true := by
  have hrot : ∀ s : World, (rotate s).1 = some err → isFatalAppendError err = true := by
    intro s hr
    unfold Wal.rotate at hr
    dsimp only at hr
    repeat' split at hr
    all_goals cases hr
    all_goals rfl
  unfold Wal.flushBlock at h
  dsimp only at h
  split at h
  · cases h
  split at h
  · cases h; rfl
  split at h
  · cases h; rfl
  split at h
  · exact hrot _ h
  · cases h

/-- **A record that is let in** is in the open block or in one that was
added to the file. -/
theorem appendLocked_added (h : Tracked s pending) (hstay : Crowds e s → ¬FlushRotates s)
    (hok : (appendLocked e s).1 = none) :
    ∃ blocks pending', Added s (appendLocked e s).2 blocks ∧
      blocks.flatten ++ pending' = pending ++ [e] ∧ Tracked (appendLocked e s).2 pending' := by
  unfold Wal.appendLocked at hok ⊢
  split at hok
  · cases hok
  split at hok
  · cases hok
  · split at hok
    · next hcrowd =>
      rw [if_pos hcrowd]
      obtain ⟨o, s', hs⟩ : ∃ o s', flushBlock s = (o, s') := ⟨_, _, rfl⟩
      rw [hs] at hok
      cases o with
      | some err => cases hok
      | none =>
        obtain ⟨blocks, hadd, hflat, ht⟩ := flushBlock_added h (hstay hcrowd) (by rw [hs])
        rw [hs] at hadd ht
        rw [hs]
        exact ⟨blocks, [] ++ [e], ⟨hadd.handle, hadd.bytes⟩, by rw [hflat]; rfl, ht.push⟩
    · next hcrowd =>
      rw [if_neg hcrowd]
      exact ⟨[], pending ++ [e], ⟨(Added.refl s).handle, (Added.refl s).bytes⟩, rfl, h.push⟩

/-- A request that is refused without a fatal error changes nothing. -/
theorem appendLocked_refused {err : Err} (h : (appendLocked e s).1 = some err)
    (hfatal : isFatalAppendError err = false) : (appendLocked e s).2 = s := by
  cases hf : s.wal.f with
  | none => simp only [Wal.appendLocked, hf]
  | some hd =>
    cases hv : validateEntry s.wal.blockSize s.wal.maxRecord e with
    | some err' => simp only [Wal.appendLocked, hf, hv]
    | none =>
      by_cases hcrowd : Crowds e s
      · obtain ⟨o, s', hs⟩ : ∃ o s', flushBlock s = (o, s') := ⟨_, _, rfl⟩
        simp only [Wal.appendLocked, hf, hv, if_pos (show _ ∧ _ from hcrowd), hs] at h
        cases o with
        | none => cases h
        | some err' =>
          cases h
          have hflush := flushBlock_fatal (by rw [hs])
          rw [hfatal] at hflush
          cases hflush
      · simp only [Wal.appendLocked, hf, hv, if_neg (show ¬(_ ∧ _) from hcrowd)] at h
        cases h

/-- **The loop over a batch**, when nothing fatal happens: the requests
that were let in are in the blocks added to the file, or still open. -/
theorem appendBatch_added (h : Tracked s pending) (hstay : StaysInFile es s)
    (hok : (appendBatch es s).2.1 = none) :
    ∃ blocks pending', Added s (appendBatch es s).2.2 blocks ∧
      blocks.flatten ++ pending' = pending ++ acknowledged (es.zip (appendBatch es s).1) ∧
      Tracked (appendBatch es s).2.2 pending' ∧ ¬FlushRotates (appendBatch es s).2.2 := by
  induction es generalizing s pending with
  | nil => exact ⟨[], pending, .refl s, by simp [acknowledged], h, hstay⟩
  | cons e es ih =>
    obtain ⟨hcrowd, hrest⟩ := hstay
    obtain ⟨o, s', hs⟩ : ∃ o s', appendLocked e s = (o, s') := ⟨_, _, rfl⟩
    cases o with
    | none =>
      obtain ⟨bs, p, hadd, hflat, ht⟩ := appendLocked_added h hcrowd (by rw [hs])
      rw [hs] at hadd ht hrest
      simp only [Wal.appendBatch, hs] at hok ⊢
      obtain ⟨bs', p', hadd', hflat', ht', hstay'⟩ := ih ht hrest hok
      refine ⟨bs ++ bs', p', hadd.trans hadd', ?_, ht', hstay'⟩
      rw [List.zip_cons_cons, acknowledged_cons, if_pos rfl, List.flatten_append,
        List.append_assoc, hflat', ← List.append_assoc, hflat, List.append_assoc]
    | some err =>
      cases hfatal : isFatalAppendError err with
      | true =>
        simp only [Wal.appendBatch, hs, hfatal, if_true] at hok
        cases hok
      | false =>
        have hsame := appendLocked_refused (by rw [hs]) hfatal
        rw [hs] at hsame hrest
        obtain rfl : s' = s := hsame
        simp only [Wal.appendBatch, hs, hfatal, Bool.false_eq_true, if_false] at hok ⊢
        obtain ⟨bs, p, hadd, hflat, ht, hstay'⟩ := ih h hrest hok
        refine ⟨bs, p, hadd, ?_, ht, hstay'⟩
        rw [List.zip_cons_cons, acknowledged_cons, if_neg (Option.some_ne_none err)]
        exact hflat

/-! ## Blocks under the sync -/

/-- The places of blocks written one behind the other. -/
def placeFrom (file : ℕ) : ℕ → List (List Entry) → List Placed
  | _, [] => []
  | start, es :: bs => ⟨file, start, es⟩ :: placeFrom file (start + (blockBytes es).length) bs

theorem flatMap_placeFrom (file start : ℕ) (bs : List (List Entry)) :
    (placeFrom file start bs).flatMap Placed.entries = bs.flatten := by
  induction bs generalizing start with
  | nil => rfl
  | cons es bs ih => rw [placeFrom, List.flatMap_cons, ih, List.flatten_cons]

/-- Each place holds its block. -/
theorem slice_placeFrom {file : ℕ} (pre : Bytes) :
    ∀ p ∈ placeFrom file pre.length bs, p.file = file ∧ pre.length ≤ p.start ∧
      p.stop ≤ (pre ++ bs.flatMap blockBytes).length ∧
      ((pre ++ bs.flatMap blockBytes).drop p.start).take p.bytes.length = p.bytes := by
  induction bs generalizing pre with
  | nil => intro p hp; cases hp
  | cons es bs ih =>
    have happ : pre ++ (es :: bs).flatMap blockBytes
        = (pre ++ blockBytes es) ++ bs.flatMap blockBytes := by
      rw [List.flatMap_cons, List.append_assoc]
    intro p hp
    rw [placeFrom, ← List.length_append] at hp
    rcases List.mem_cons.mp hp with rfl | hp
    · refine ⟨rfl, Nat.le_refl _, ?_, ?_⟩
      · rw [happ, List.length_append, List.length_append]
        exact Nat.le_add_right _ _
      · rw [List.flatMap_cons, List.drop_left]
        exact List.take_left
    · obtain ⟨hfile, hstart, hstop, hslice⟩ := ih (pre ++ blockBytes es) p hp
      rw [happ]
      refine ⟨hfile, Nat.le_trans ?_ hstart, hstop, hslice⟩
      rw [List.length_append]
      exact Nat.le_add_right _ _

theorem start_le_of_placeFrom {file start : ℕ} :
    ∀ p ∈ placeFrom file start bs, start ≤ p.start := by
  induction bs generalizing start with
  | nil => intro p hp; cases hp
  | cons es bs ih =>
    intro p hp
    rcases List.mem_cons.mp hp with rfl | hp
    · exact Nat.le_refl _
    · exact Nat.le_trans (Nat.le_add_right _ _) (ih p hp)

theorem pairwise_placeFrom {file start : ℕ} :
    (placeFrom file start bs).Pairwise fun p q => p.file = q.file → p.stop ≤ q.start := by
  induction bs generalizing start with
  | nil => exact List.Pairwise.nil
  | cons es bs ih => exact List.Pairwise.cons (fun q hq _ => start_le_of_placeFrom q hq) ih

/-- A sync that succeeds makes all of the file durable. -/
theorem syncFile_durable (h : Tracked s pending) (hok : (syncFile s).1 = none) :
    ∃ hd f, s.wal.f = some hd ∧ (syncFile s).2.disk.files[hd.file]? = some f ∧
      f.durable = f.bytes.length ∧
      (syncFile s).2.disk.bytesOf hd.file = s.disk.bytesOf hd.file := by
  have hfiles : s.disk.ioFault.2.files = s.disk.files := by
    unfold Disk.ioFault
    split <;> rfl
  cases hf : s.wal.f with
  | none => simp only [Wal.syncFile, hf] at hok; cases hok
  | some hd =>
    have hlt := h.handle hd hf
    obtain ⟨ok, d, hs⟩ : ∃ ok d, s.disk.sync hd = (ok, d) := ⟨_, _, rfl⟩
    cases ok with
    | false => simp only [Wal.syncFile, hf, hs] at hok; cases hok
    | true =>
      simp only [Wal.syncFile, hf, hs]
      unfold Disk.sync at hs
      split at hs
      · split at hs
        · next d' hd' =>
          rw [hd'] at hfiles
          obtain hfiles : d'.files = s.disk.files := hfiles
          cases hs
          refine ⟨hd, { s.disk.files[hd.file] with durable := s.disk.files[hd.file].bytes.length },
            rfl, ?_, rfl, ?_⟩
          · simp [hfiles, hlt]
          · simp [Disk.bytesOf, hfiles, hlt]
        · cases hs
      · cases hs

/-- **What is flushed and synced in one file is durable.** -/
theorem durable_of_flushAndSync {s₀ : World} {blocks : List (List Entry)}
    (hadd : Added s₀ s blocks) (h : Tracked s pending) (hstay : ¬FlushRotates s)
    (hok : (flushAndSync true s).1 = none) :
    ∃ ps : List Placed, (∀ p ∈ ps, p.DurableSince s₀.disk (flushAndSync true s).2.disk) ∧
      ps.Pairwise (fun p q => p.file = q.file → p.stop ≤ q.start) ∧
      ps.flatMap Placed.entries = blocks.flatten ++ pending := by
  obtain ⟨o, s', hs⟩ : ∃ o s', flushBlock s = (o, s') := ⟨_, _, rfl⟩
  cases o with
  | some err => simp only [Wal.flushAndSync, hs] at hok; cases hok
  | none =>
    obtain ⟨bs, hadd', hflat, ht⟩ := flushBlock_added h hstay (by rw [hs])
    rw [hs] at hadd' ht
    have hall := hadd.trans hadd'
    simp only [Wal.flushAndSync, hs, if_true] at hok ⊢
    obtain ⟨hd, f, hf, hget, hdur, hbytes⟩ := syncFile_durable ht hok
    have hf₀ : s₀.wal.f = some hd := hall.handle.symm.trans hf
    rw [hall.bytes hd hf₀] at hbytes
    refine ⟨placeFrom hd.file (s₀.disk.bytesOf hd.file).length (blocks ++ bs), fun p hp => ?_,
      pairwise_placeFrom, by rw [flatMap_placeFrom, List.flatten_append, hflat]⟩
    obtain ⟨hfile, hstart, hstop, hslice⟩ := slice_placeFrom (s₀.disk.bytesOf hd.file) p hp
    refine ⟨by rw [hfile]; exact hstart, by rw [hfile, hbytes]; exact hslice, f, ?_, ?_⟩
    · rw [hfile]; exact hget
    · have hbf : f.bytes = (syncFile s').2.disk.bytesOf hd.file := by
        simp [Disk.bytesOf, hget]
      rw [hdur, hbf, hbytes]
      exact hstop

/-! ## Answers -/

theorem tracked_of_finishOpen {opts : Options} {k : ℕ} {blockSize : UInt32} {id : UInt64}
    {d' : Disk} {w : WAL} (hsync : opts.sync = true) (hk : k < d.files.length)
    (h : finishOpen opts k blockSize id d = (.ok w, d')) : Tracked ⟨w, d'⟩ [] := by
  obtain ⟨rfl, -, rfl⟩ := finishOpen_ok h
  refine ⟨hsync, rfl, rfl, fun h' hf => ?_⟩
  cases hf
  exact hk

/-- A log just opened has an empty block and a handle on its file. -/
theorem tracked_of_newWAL {opts : Options} {d' : Disk} {w : WAL} (hsync : opts.sync = true)
    (h : newWAL opts d = (.ok w, d')) : Tracked ⟨w, d'⟩ [] := by
  unfold newWAL at h
  split at h
  · cases h
  split at h
  · cases h
  split at h
  · cases h
  split at h
  · cases h
  next i d₁ hopen =>
  have hstat := (Onward.ioFault d₁).files
  split at h
  · cases h
  next d₂ hd₂ =>
  rw [hd₂] at hstat
  have hi : i < d₂.files.length := (openFile_lt hopen).trans_le hstat
  unfold initFile at h
  dsimp only at h
  split at h
  · have hle := (Onward.writeHeader d₂ ⟨i, true⟩ (encodeSegmentHeader
      opts.blockSizeOrDefault (nextSegmentID d₂ opts.path) (UInt64.ofNat d₂.clock))).files
    split at h
    · cases h
    · next hw =>
      rw [writeSegmentHeader] at hw
      rw [hw] at hle
      exact tracked_of_finishOpen hsync (hi.trans_le hle) h
  · have hle := (Onward.ioFault d₂).files
    split at h
    · next hd₃ =>
      rw [hd₃] at hle
      exact tracked_of_finishOpen hsync (hi.trans_le hle) h
    · next d₃ hd₃ =>
      rw [hd₃] at hle
      have hclose := (Onward.close d₃).files
      split at h
      · cases h
      · next hc =>
        rw [hc] at hclose
        exact tracked_of_finishOpen hsync (hi.trans_le (hle.trans hclose)) h

theorem durablyAnswered_of_refused {d₀ : Disk} {a : BatchAnswer} (h : a.accepted = []) :
    DurablyAnswered d₀ a := by
  refine ⟨[], fun p hp => ?_, List.Pairwise.nil, ?_⟩
  · cases hp
  · rw [h]
    exact List.nil_sublist _

theorem acknowledged_zip_some {os : List (Option Err)} (h : ∀ o ∈ os, o ≠ none) :
    acknowledged (es.zip os) = [] := by
  induction es generalizing os with
  | nil => rfl
  | cons e es ih =>
    cases os with
    | nil => rfl
    | cons o os =>
      rw [List.zip_cons_cons, acknowledged_cons, if_neg (h o List.mem_cons_self),
        ih fun o' ho' => h o' (List.mem_cons_of_mem _ ho')]
      rfl

/-- One synchronous append that stays in its file. -/
theorem append_durable (h : Tracked s pending) (hstay : StaysInFile [e] s) :
    DurablyAnswered s.disk ⟨[e], [(append e s).1], (append e s).2.disk⟩ := by
  cases hr : (append e s).1 with
  | some err => exact durablyAnswered_of_refused rfl
  | none =>
    obtain ⟨o, s', hs⟩ : ∃ o s', appendLocked e s = (o, s') := ⟨_, _, rfl⟩
    cases o with
    | some err => simp only [append, hs] at hr; cases hr
    | none =>
      obtain ⟨hcrowd, hrest⟩ := hstay
      obtain ⟨bs, p, hadd, hflat, ht⟩ := appendLocked_added h hcrowd (by rw [hs])
      rw [hs] at hadd ht hrest
      have happend : append e s = flushAndSync true s' := by
        have hsync : s'.wal.sync = true := ht.sync
        simp only [append, hs, hsync]
      rw [happend] at hr ⊢
      obtain ⟨ps, hps, hpair, hentries⟩ := durable_of_flushAndSync hadd ht hrest hr
      refine ⟨ps, hps, hpair, ?_⟩
      rw [hentries, hflat]
      exact List.sublist_append_right _ _

/-- One batch that stays in its file. -/
theorem processBatch_durable (h : Tracked s pending) (hstay : StaysInFile es s) :
    DurablyAnswered s.disk (processBatch es true s).1 := by
  obtain ⟨os, fatal, s', hs⟩ : ∃ os fatal s', appendBatch es s = (os, fatal, s') :=
    ⟨_, _, _, rfl⟩
  have hmap : ∀ (err : Err) (l : List (Option Err)),
      ∀ o ∈ l.map (fun told : Option Err => if told.isNone then some err else told), o ≠ none := by
    intro err l o ho
    obtain ⟨told, -, rfl⟩ := List.mem_map.mp ho
    cases told <;> simp
  cases fatal with
  | some err =>
    simp only [Wal.processBatch, hs]
    exact durablyAnswered_of_refused (acknowledged_zip_some (hmap err os))
  | none =>
    obtain ⟨bs, p, hadd, hflat, ht, hrest⟩ := appendBatch_added h hstay (by rw [hs])
    rw [hs] at hadd hflat ht hrest
    obtain ⟨o, s'', hflush⟩ : ∃ o s'', flushAndSync true s' = (o, s'') := ⟨_, _, rfl⟩
    simp only [Wal.processBatch, hs, hflush]
    cases o with
    | some err => exact durablyAnswered_of_refused (acknowledged_zip_some (hmap err os))
    | none =>
      obtain ⟨ps, hps, hpair, hentries⟩ := durable_of_flushAndSync hadd ht hrest (by rw [hflush])
      rw [hflush] at hps
      refine ⟨ps, hps, hpair, ?_⟩
      have hid : os.map (fun told : Option Err => if told.isNone then none else told) = os := by
        refine (List.map_congr_left fun told _ => ?_).trans (List.map_id os)
        cases told <;> rfl
      rw [hentries, hflat, BatchAnswer.accepted, hid]
      exact List.sublist_append_right _ _

/-- **Synced appends are durable.** With `Sync` on, in every run of the
writer and whatever fails in it, an action that does not rotate the
segment and drains nothing while closing answers nil only for what is
durable by then. -/
theorem answers_durable {opts : Options} {d d' : Disk} {w : WAL} (hsync : opts.sync = true)
    (hopen : newWAL opts d = (.ok w, d')) (acts : List WriterAction) (act : WriterAction)
    (hcalm : Undisturbed (runWriter ⟨w, d'⟩ acts) act) :
    ∀ a ∈ (writerStep (runWriter ⟨w, d'⟩ acts) act).1,
      DurablyAnswered (runWriter ⟨w, d'⟩ acts).disk a := by
  obtain ⟨pending, h⟩ := (tracked_of_newWAL hsync hopen).runWriter acts
  intro a ha
  cases act with
  | append e =>
    rw [List.mem_singleton.mp ha]
    exact append_durable h hcalm
  | batch es =>
    rw [List.mem_singleton.mp ha, h.sync]
    exact processBatch_durable h hcalm
  | close queued =>
    obtain rfl : queued = [] := hcalm
    simp [writerStep, drainAndClose] at ha

/-- The log `NewWAL` opens in an empty directory, with room for
`maxSegment` bytes in a segment. -/
def openedWAL (maxSegment : UInt64) : WAL :=
  ⟨some ⟨0, true⟩, "wal", true, maxSegment, 29, 0, 64, 1, [], 0, false, 0, false⟩

/-- Its directory. -/
def openedDisk : Disk := ⟨[⟨some "wal", encodeSegmentHeader 64 1 0, 0⟩], [], [], 1⟩

theorem append_durable_of_no_limit :
    newWAL { smallLog with maxSegment := 0 } ⟨[], [], [], 0⟩ = (.ok (openedWAL 0), openedDisk) ∧
      (append ⟨[1], [], true, 1⟩ ⟨openedWAL 0, openedDisk⟩).1 = none ∧
      ∀ a ∈ (writerStep ⟨openedWAL 0, openedDisk⟩ (.append ⟨[1], [], true, 1⟩)).1,
        DurablyAnswered openedDisk a := by
  have hopen : newWAL { smallLog with maxSegment := 0 } ⟨[], [], [], 0⟩
      = (.ok (openedWAL 0), openedDisk) := by decide +kernel
  have hcalm : Undisturbed ⟨openedWAL 0, openedDisk⟩ (.append ⟨[1], [], true, 1⟩) := by
    unfold Undisturbed
    decide +kernel
  exact ⟨hopen, by decide +kernel, answers_durable rfl hopen [] _ hcalm⟩

/-- A block is at least as long as its header and one of its records. -/
theorem length_blockBytes_ge (he : e ∈ es) : 12 + recordSize e ≤ (blockBytes es).length := by
  rw [blockBytes, encodeBlock_eq_frameBlock (List.ne_nil_of_mem he), length_frameBlock,
    length_payloadOf]
  obtain ⟨as, bs, rfl⟩ := List.append_of_mem he
  simp only [List.map_append, List.map_cons, List.sum_append, List.sum_cons]
  omega

/-- **An append that fills the segment is answered before it is
durable.** Its block is in the file that was rotated away, and the sync
went to the new one. -/
theorem rotation_escapes_sync :
    ¬ ∀ (opts : Options) (d d' : Disk) (w : WAL) (acts : List WriterAction) (act : WriterAction),
      opts.sync = true → newWAL opts d = (.ok w, d') →
      ∀ a ∈ (writerStep (runWriter ⟨w, d'⟩ acts) act).1,
        DurablyAnswered (runWriter ⟨w, d'⟩ acts).disk a := by
  intro hall
  have hopen : newWAL smallLog ⟨[], [], [], 0⟩ = (.ok (openedWAL 60), openedDisk) := by
    decide +kernel
  have hclaim := hall smallLog _ _ _ [] (.append ⟨[1], [], true, 1⟩) rfl hopen
    _ (List.mem_singleton_self _)
  rw [show runWriter ⟨openedWAL 60, openedDisk⟩ [] = ⟨openedWAL 60, openedDisk⟩ from rfl] at hclaim
  obtain ⟨ps, hps, -, hsub⟩ := hclaim
  have hacc : BatchAnswer.accepted ⟨[⟨[1], [], true, 1⟩],
      [(append ⟨[1], [], true, 1⟩ ⟨openedWAL 60, openedDisk⟩).1],
      (append ⟨[1], [], true, 1⟩ ⟨openedWAL 60, openedDisk⟩).2.disk⟩ = [⟨[1], [], true, 1⟩] := by
    decide +kernel
  have hdur : (append ⟨[1], [], true, 1⟩ ⟨openedWAL 60, openedDisk⟩).2.disk.files.map File.durable
      = [0, 29] := by decide +kernel
  rw [hacc] at hsub
  obtain ⟨p, hp, he⟩ := List.mem_flatMap.mp (hsub.subset (List.mem_singleton_self _))
  obtain ⟨-, -, f, hf, hstop⟩ := hps p hp
  -- the block is longer than either durable part
  have hlen : 34 ≤ p.bytes.length := length_blockBytes_ge he
  have hmem : f.durable ∈ [0, 29] := hdur ▸ List.mem_map_of_mem (List.mem_of_getElem? hf)
  rw [Placed.stop] at hstop
  simp at hmem
  omega

end LSMEngine.Wal
