import LSMEngine.Wal.Calls
import LSMEngine.Wal.Files
import LSMEngine.Wal.Replay
/-!
# WAL — the log over its files

The two sides of a log meet in the bytes of its files. `Intact` says what
a log that is open for writing has on disk: rotated segments and an
active file of whole blocks, possibly with junk behind them that failed
writes have left. A replay delivers what such a log holds
(`replay_of_intact`), and the block writes of the append path keep the
log intact while they add to what it holds (`flushBlock_ok`,
`flushBlock_torn`).

A rotation that finds no room for another file leaves the log without an
active file and with a closed handle (`Stalled`): it accepts nothing
more, and a replay still delivers what it holds.
-/

namespace LSMEngine.Wal

variable {σ : Type} {base : String}
variable {fn : Callback σ Entry} {d : Disk} {segs : List Bytes} {ess : List (List Entry)}
  {s : World} {held pending : List Entry} {junk : Bytes} {blockSize : UInt32} {e : Entry}

/-! ## Segments of whole blocks -/

/-- A file of a segment header and whole blocks, with the entries of the
blocks. -/
def Holds (bytes : Bytes) (es : List Entry) : Prop :=
  ∃ (cap : UInt32) (id t : UInt64) (bs : List (Block cap)),
    bytes = encodeSegmentHeader cap id t ++ blocksBytes bs ∧ blocksEntries bs = es

/-- The reading of a file with a good header is that of its blocks. -/
theorem readSegment_header (cap : UInt32) (id t : UInt64) (r : Bytes) :
    readSegment (some (encodeSegmentHeader cap id t ++ r)) =
      { readBlocks cap r false with
        left := 29 + r.length - (readBlocks cap r false).left } := by
  simp only [readSegment, readSegmentHeader_append, List.length_append,
    length_encodeSegmentHeader]

theorem readSegment_of_holds {bytes : Bytes} {es : List Entry} (h : Holds bytes es) :
    readSegment (some bytes) = ⟨.done, es, bytes.length⟩ := by
  obtain ⟨cap, id, t, bs, rfl, rfl⟩ := h
  rw [readSegment_header, readBlocks_blocks, List.length_append, length_encodeSegmentHeader]
  rfl

theorem replayRotated_eq (hfn : Accepting fn) (hs : List.Forall₂ Holds segs ess) (k : ℕ)
    (hd : ∀ i (h : i < segs.length), d.content (segmentName base (i + k : ℕ)) = some segs[i])
    (st : σ) :
    replayRotated decodeRecords fn d ((numbersFrom k segs.length).map (segmentName base)) false st
      = (.done, feed fn ess.flatten st, false) := by
  induction hs generalizing k st with
  | nil => rfl
  | @cons seg es segs ess hseg _ ih =>
    have h0 : d.content (segmentName base k) = some seg := by
      rw [← Nat.zero_add k]
      exact hd 0 (Nat.zero_lt_succ _)
    have hrest : ∀ i (h : i < segs.length),
        d.content (segmentName base (i + (k + 1) : ℕ)) = some segs[i] := by
      intro i hi
      rw [← Nat.add_assoc, Nat.add_right_comm]
      exact hd (i + 1) (Nat.succ_lt_succ hi)
    have ih := ih (k + 1) hrest
    rw [Int.natCast_add] at ih
    simp only [List.length_cons, numbersFrom, List.map_cons, replayRotated, h0,
      replaySegment_eq hfn, readSegment_of_holds hseg, List.flatten_cons, feed_append]
    exact ih _

/-- **A replay reads the segments in order, then the active file**, and
the active file alone decides how it ends. -/
theorem replay_layout (hfn : Accepting fn) {k : ℕ} {active : Bytes} (repair : Bool)
    (h : Layout base d.files k segs active) (hs : List.Forall₂ Holds segs ess) (st : σ) :
    replay fn base repair d st =
      ((readSegment (some active)).outcome,
        feed fn (ess.flatten ++ (readSegment (some active)).entries) st,
        if (readSegment (some active)).outcome = .err .walCorruptSegment ∧ repair ∧
          0 < (readSegment (some active)).left
        then d.truncate base (readSegment (some active)).left else d) := by
  have hrot := replayRotated_eq hfn hs 1 (fun _ hi => h.content_segment hi) st
  rw [Int.natCast_one] at hrot
  simp only [replay, replayWith, listSegments_eq h.numbers, hrot, h.content_active,
    replaySegment_eq hfn, feed_append]
  cases ho : (readSegment (some active)).outcome with
  | done => simp [replayEnd]
  | panic => simp
  | err e => cases e <;> simp [replayEnd]

/-- Without an active file a replay reads the segments alone. -/
theorem replay_rotated (hfn : Accepting fn) (repair : Bool) (h : Rotated base d.files segs)
    (hs : List.Forall₂ Holds segs ess) (st : σ) :
    replay fn base repair d st = (.done, feed fn ess.flatten st, d) := by
  have hactive : d.content base = none := by
    rw [Disk.content, Option.map_eq_none_iff, List.find?_eq_none]
    intro f hf
    simpa using h.noActive f hf
  have hrot := replayRotated_eq hfn hs 1 h.content st
  rw [Int.natCast_one] at hrot
  simp only [replay, replayWith, listSegments_eq h.numbers, hrot, hactive, replaySegment_eq hfn,
    readSegment, feed_nil, replayEnd, Bool.false_eq_true, if_false]

/-! ## A log open for writing -/

/-- **What an open log has on disk.** `held` is what the whole blocks of
its files hold, `junk` what failed writes have left behind the last of
them, and `pending` the records in the open block. -/
structure Intact (base : String) (s : World) (held : List Entry) (junk : Bytes)
    (pending : List Entry) : Prop where
  files : ∃ (k : ℕ) (segs : List Bytes) (ess : List (List Entry)) (t : UInt64)
    (bs : List (Block s.wal.blockSize)),
    Layout base s.disk.files k segs
      (encodeSegmentHeader s.wal.blockSize s.wal.segmentID t ++ (blocksBytes bs ++ junk)) ∧
    List.Forall₂ Holds segs ess ∧ held = ess.flatten ++ blocksEntries bs ∧
    s.wal.segmentID = UInt64.ofNat (segs.length + 1) ∧ s.wal.f = some ⟨k, true⟩
  path : s.wal.path = base
  blockSize : minBlockSize ≤ s.wal.blockSize.toNat
  records : s.wal.records = pending.map newRecordBufferOwned
  blockLen : s.wal.blockLen = (pending.map recordSize).sum
  fits : s.wal.blockLen ≤ s.wal.blockSize.toNat
  noFault : s.disk.ioFaults = []

/-- A log that has lost its file in a rotation. -/
structure Stalled (base : String) (s : World) (held : List Entry) : Prop where
  files : ∃ segs ess, Rotated base s.disk.files segs ∧ List.Forall₂ Holds segs ess ∧
    held = ess.flatten
  handle : ∃ k, s.wal.f = some ⟨k, false⟩

/-- Its file is open. -/
theorem Intact.handle (h : Intact base s held junk pending) : ∃ k, s.wal.f = some ⟨k, true⟩ := by
  obtain ⟨k, -, -, -, -, -, -, -, -, hf⟩ := h.files
  exact ⟨k, hf⟩

theorem Intact.f_ne_none (h : Intact base s held junk pending) : s.wal.f ≠ none := by
  obtain ⟨k, hf⟩ := h.handle
  rw [hf]
  exact Option.some_ne_none _

theorem forall₂_concat {α β : Type} {R : α → β → Prop} {as : List α} {bs : List β} {a : α} {b : β}
    (h : List.Forall₂ R as bs) (hab : R a b) : List.Forall₂ R (as ++ [a]) (bs ++ [b]) := by
  induction h with
  | nil => exact .cons hab .nil
  | cons h₁ _ ih => exact .cons h₁ ih

/-- The block of the pending records. -/
theorem Intact.block (h : Intact base s held junk pending) (hp : pending ≠ []) :
    ∃ b : Block s.wal.blockSize, encodeBlock s.wal.records = b.bytes ∧ b.entries = pending := by
  have hlen : (payloadOf pending).length ≤ s.wal.blockSize.toNat := by
    rw [length_payloadOf, ← h.blockLen]
    exact h.fits
  have hlt : (payloadOf pending).length < 2 ^ 32 :=
    Nat.lt_of_le_of_lt hlen s.wal.blockSize.toNat_lt
  refine ⟨⟨payloadOf pending, pending, decodeRecords_payloadOf pending hlt, hlt, fun _ => hlen⟩,
    ?_, rfl⟩
  rw [h.records, encodeBlock_eq_frameBlock hp, Block.bytes]

theorem recordSize_pos (e : Entry) : 0 < recordSize e := by
  rw [recordSize_eq]
  omega

theorem Intact.blockLen_ne_zero (h : Intact base s held junk pending) (hp : pending ≠ []) :
    s.wal.blockLen ≠ 0 := by
  rw [h.blockLen]
  cases pending with
  | nil => exact absurd rfl hp
  | cons e es =>
    have := recordSize_pos e
    rw [List.map_cons, List.sum_cons]
    omega

/-! ## Calls that do not fail -/

section NoFault

variable (h : d.ioFaults = [])
include h

theorem ioFault_of_nil : d.ioFault = (none, d) := by
  simp only [Disk.ioFault, h]

theorem close_of_nil : d.close = (true, d) := by
  simp only [Disk.close, ioFault_of_nil h]

theorem writeHeader_of_nil (hd : Handle) (bs : Bytes) :
    d.writeHeader hd bs = (true, { d.push hd.file bs with clock := d.clock + 1 }) := by
  simp only [Disk.writeHeader, ioFault_of_nil h]

theorem sync_of_nil (k : ℕ) :
    d.sync ⟨k, true⟩ = (true, { d with
      files := d.files.modify k fun f => { f with durable := f.bytes.length } }) := by
  simp only [Disk.sync, ioFault_of_nil h, if_true]

end NoFault

/-- **A rotation keeps what the log holds**, whether or not there is room
for the new file. -/
theorem rotate_spec (h : Intact base s held [] []) :
    (rotate s).2.disk.writeFaults = s.disk.writeFaults ∧
    (((rotate s).1 = none ∧ Intact base (rotate s).2 held [] []) ∨
      ((∃ ctx, (rotate s).1 = some (.io ctx)) ∧ Stalled base (rotate s).2 held)) := by
  obtain ⟨⟨k, segs, ess, t, bs, hlay, hs, hheld, hid, hf⟩, hpath, hbs, hrec, hlen, hfits, hio⟩ := h
  have hlt := hlay.length_lt
  have hidNat : (s.wal.segmentID.toNat : ℤ) = ((segs.length + 1 : ℕ) : ℤ) := by
    rw [hid, UInt64.toNat_ofNat_of_lt']
    show segs.length + 1 < 2 ^ 64
    omega
  -- the old file, under its new name
  have hren := hlay.rename
  have hholds : Holds (encodeSegmentHeader s.wal.blockSize s.wal.segmentID t
      ++ (blocksBytes bs ++ [])) (blocksEntries bs) :=
    ⟨_, _, _, bs, by rw [List.append_nil], rfl⟩
  have hs' := forall₂_concat hs hholds
  have hheld' : held = (ess ++ [blocksEntries bs]).flatten := by
    rw [hheld, List.flatten_append, List.flatten_singleton]
  obtain ⟨renamed, hrenamed⟩ : ∃ renamed, renamed = s.disk.files.map fun f =>
      if f.name = some (segmentName base (segs.length + 1 : ℕ)) then { f with name := none }
      else if f.name = some base then
        { f with name := some (segmentName base (segs.length + 1 : ℕ)) } else f := ⟨_, rfl⟩
  rw [← hrenamed] at hren
  have hrename : s.disk.rename base (segmentName base (segs.length + 1 : ℕ))
      = (true, { s.disk with files := renamed }) := by
    simp only [Disk.rename, ioFault_of_nil hio, hrenamed]
  have hio' : ({ s.disk with files := renamed } : Disk).ioFaults = [] := hio
  have hfind : ({ s.disk with files := renamed } : Disk).find base = none := hren.find_active
  by_cases hroom : renamed.length < maxEntries
  · -- the new file, with its header
    have hnew := (hren.layout hroom).push
      (d := { s.disk with files := renamed ++ [⟨some base, [], 0⟩] })
      (encodeSegmentHeader s.wal.blockSize (s.wal.segmentID + 1) (UInt64.ofNat s.disk.clock))
    have hid' : s.wal.segmentID + 1 = UInt64.ofNat ((segs ++ [encodeSegmentHeader s.wal.blockSize
        s.wal.segmentID t ++ (blocksBytes bs ++ [])]).length + 1) := by
      rw [hid, List.length_append, List.length_singleton]
      exact (UInt64.ofNat_add _ _).symm
    have hrot : rotate s = (none, ⟨{ s.wal with
          f := some ⟨renamed.length, true⟩
          segmentID := s.wal.segmentID + 1
          sizeBytes := UInt64.ofNat segmentHeaderSize },
        { ({ s.disk with files := renamed ++ [⟨some base, [], 0⟩] } : Disk).push renamed.length
          (encodeSegmentHeader s.wal.blockSize (s.wal.segmentID + 1) (UInt64.ofNat s.disk.clock))
          with clock := s.disk.clock + 1 }⟩) := by
      simp only [rotate, hf, close_of_nil hio, hpath, hidNat, hrename, Disk.openFile,
        ioFault_of_nil hio', hfind, if_pos hroom, writeSegmentHeader,
        writeHeader_of_nil (d := { s.disk with files := renamed ++ [⟨some base, [], 0⟩] }) hio]
    rw [hrot]
    refine ⟨rfl, .inl ⟨rfl, ⟨?_, hpath, hbs, hrec, hlen, hfits, hio⟩⟩⟩
    refine ⟨renamed.length, _, _, UInt64.ofNat s.disk.clock, [], ?_, hs', ?_, hid', rfl⟩
    · simpa using hnew
    · rw [hheld', blocksEntries_nil, List.append_nil]
  · have hrot : rotate s = (some (.io "open new wal"), ⟨{ s.wal with
          f := some ⟨k, false⟩
          segmentID := s.wal.segmentID + 1 }, { s.disk with files := renamed }⟩) := by
      simp only [rotate, hf, close_of_nil hio, hpath, hidNat, hrename, Disk.openFile,
        ioFault_of_nil hio', hfind, if_neg hroom]
    rw [hrot]
    exact ⟨rfl, .inr ⟨⟨_, rfl⟩, ⟨_, _, hren, hs', hheld'⟩, k, rfl⟩⟩

/-! ## Block writes -/

section Flush

theorem flushBlock_empty (h : Intact base s held junk []) : flushBlock s = (none, s) := by
  have h0 : s.wal.blockLen = 0 := h.blockLen
  rw [flushBlock, if_pos h0]

theorem writeFault_writeFaults (d : Disk) : d.writeFault.2.writeFaults = d.writeFaults.tail := by
  unfold Disk.writeFault
  split
  · next hd => rw [hd]; rfl
  · next hd => rw [hd]; rfl

theorem writeFault_files (d : Disk) : d.writeFault.2.files = d.files := by
  unfold Disk.writeFault
  split <;> rfl

theorem writeFault_ioFaults (d : Disk) : d.writeFault.2.ioFaults = d.ioFaults := by
  unfold Disk.writeFault
  split <;> rfl

theorem writeBlock_open (d : Disk) (k : ℕ) (bs : Bytes) : d.writeBlock ⟨k, true⟩ bs =
    (d.writeFault.1.isNone, d.writeFault.2.push k (d.writeFault.1.elim bs bs.take)) := by
  rw [Disk.writeBlock, if_pos rfl]
  rcases d.writeFault with ⟨_ | n, d⟩ <;> rfl

/-- **A block that is written whole joins what the log holds.** -/
theorem flushBlock_ok (h : Intact base s held [] pending) (hp : pending ≠ [])
    (hw : s.disk.writeFault.1 = none) :
    (flushBlock s).2.disk.writeFaults = s.disk.writeFaults.tail ∧
    (((flushBlock s).1 = none ∧ Intact base (flushBlock s).2 (held ++ pending) [] []) ∨
      ((∃ ctx, (flushBlock s).1 = some (.io ctx)) ∧
        Stalled base (flushBlock s).2 (held ++ pending))) := by
  obtain ⟨b, hb, hbe⟩ := h.block hp
  have hne := h.blockLen_ne_zero hp
  obtain ⟨⟨k, segs, ess, t, bs, hlay, hs, hheld, hid, hf⟩, hpath, hbs, -, -, -, hio⟩ := h
  -- the world once the block is in the file
  obtain ⟨s', hs'⟩ : ∃ s', s' = World.written { s with
      disk := s.disk.writeFault.2.push k b.bytes } := ⟨_, rfl⟩
  have hwrite : s.disk.writeBlock ⟨k, true⟩ (encodeBlock s.wal.records)
      = (true, s.disk.writeFault.2.push k b.bytes) := by
    rw [writeBlock_open, hw, hb]
    rfl
  have hlay' : Layout base s'.disk.files k segs (encodeSegmentHeader s.wal.blockSize
      s.wal.segmentID t ++ (blocksBytes (bs ++ [b]) ++ [])) := by
    rw [← writeFault_files s.disk] at hlay
    have hpush := hlay.push b.bytes
    rw [hs']
    simpa [World.written, blocksBytes_append, blocksBytes] using hpush
  have hheld' : held ++ pending = ess.flatten ++ blocksEntries (bs ++ [b]) := by
    rw [hheld, blocksEntries_append, List.append_assoc, ← hbe]
    simp [blocksEntries]
  have hI : Intact base s' (held ++ pending) [] [] := by
    subst hs'
    exact ⟨⟨k, segs, ess, t, bs ++ [b], hlay', hs, hheld', hid, hf⟩, hpath, hbs, rfl, rfl,
      Nat.zero_le _, (writeFault_ioFaults s.disk).trans hio⟩
  have htail : s'.disk.writeFaults = s.disk.writeFaults.tail := by
    subst hs'
    exact writeFault_writeFaults s.disk
  have hflush : flushBlock s =
      if 0 < s'.wal.maxBytes ∧ s'.wal.maxBytes ≤ s'.wal.sizeBytes then rotate s' else (none, s') := by
    rw [flushBlock, if_neg hne]
    simp only [hf, hwrite, hs']
  rw [hflush]
  split
  · obtain ⟨hwf, hr⟩ := rotate_spec hI
    exact ⟨hwf.trans htail, hr⟩
  · exact ⟨htail, .inl ⟨rfl, hI⟩⟩

/-- **A failed write leaves junk behind the blocks**, and the records
where they were. -/
theorem flushBlock_torn {n : ℕ} (h : Intact base s held junk pending) (hp : pending ≠ [])
    (hw : s.disk.writeFault.1 = some n) :
    (∃ ctx, (flushBlock s).1 = some (.io ctx)) ∧
    Intact base (flushBlock s).2 held (junk ++ (encodeBlock s.wal.records).take n) pending := by
  have hne := h.blockLen_ne_zero hp
  obtain ⟨⟨k, segs, ess, t, bs, hlay, hs, hheld, hid, hf⟩, hpath, hbs, hrec, hlen, hfits, hio⟩ := h
  have hwrite : s.disk.writeBlock ⟨k, true⟩ (encodeBlock s.wal.records)
      = (false, s.disk.writeFault.2.push k ((encodeBlock s.wal.records).take n)) := by
    rw [writeBlock_open, hw]
    rfl
  have hflush : flushBlock s = (some (.io "write block"), { s with
      disk := s.disk.writeFault.2.push k ((encodeBlock s.wal.records).take n) }) := by
    rw [flushBlock, if_neg hne]
    simp only [hf, hwrite]
  rw [hflush]
  refine ⟨⟨_, rfl⟩, ⟨k, segs, ess, t, bs, ?_, hs, hheld, hid, hf⟩, hpath, hbs, hrec, hlen,
    hfits, (writeFault_ioFaults s.disk).trans hio⟩
  rw [← writeFault_files s.disk] at hlay
  have hpush := hlay.push ((encodeBlock s.wal.records).take n)
  simpa only [List.append_assoc] using hpush

/-- The sync of an open log: the files hold what they held. -/
theorem syncFile_spec (h : Intact base s held junk pending) :
    (syncFile s).1 = none ∧ (syncFile s).2.disk.writeFaults = s.disk.writeFaults ∧
    Intact base (syncFile s).2 held junk pending := by
  obtain ⟨⟨k, segs, ess, t, bs, hlay, hs, hheld, hid, hf⟩, hpath, hbs, hrec, hlen, hfits, hio⟩ := h
  have hsync : syncFile s = (none, { s with disk := { s.disk with
      files := s.disk.files.modify k fun f => { f with durable := f.bytes.length } } }) := by
    simp only [syncFile, hf, sync_of_nil hio]
  rw [hsync]
  exact ⟨rfl, rfl, ⟨k, segs, ess, t, bs, hlay.modify fun _ => ⟨_, rfl⟩, hs, hheld, hid, hf⟩,
    hpath, hbs, hrec, hlen, hfits, hio⟩

theorem flushAndSync_ok (h : Intact base s held [] pending) (hp : pending ≠ [])
    (hw : s.disk.writeFault.1 = none) (syncNow : Bool) :
    (flushAndSync syncNow s).2.disk.writeFaults = s.disk.writeFaults.tail ∧
    (((flushAndSync syncNow s).1 = none ∧
        Intact base (flushAndSync syncNow s).2 (held ++ pending) [] []) ∨
      ((∃ ctx, (flushAndSync syncNow s).1 = some (.io ctx)) ∧
        Stalled base (flushAndSync syncNow s).2 (held ++ pending))) := by
  obtain ⟨htail, hres⟩ := flushBlock_ok h hp hw
  unfold flushAndSync
  obtain ⟨o, s', hflush⟩ : ∃ o s', flushBlock s = (o, s') := ⟨_, _, rfl⟩
  rw [hflush] at htail hres ⊢
  rcases hres with ⟨ho, hI⟩ | ⟨⟨ctx, ho⟩, hS⟩
  · obtain rfl : o = none := ho
    cases syncNow with
    | false => exact ⟨htail, .inl ⟨rfl, hI⟩⟩
    | true =>
      obtain ⟨h₁, h₂, h₃⟩ := syncFile_spec hI
      exact ⟨h₂.trans htail, .inl ⟨h₁, h₃⟩⟩
  · obtain rfl : o = some (.io ctx) := ho
    exact ⟨htail, .inr ⟨⟨ctx, rfl⟩, hS⟩⟩

theorem flushAndSync_torn {n : ℕ} (h : Intact base s held junk pending) (hp : pending ≠ [])
    (hw : s.disk.writeFault.1 = some n) (syncNow : Bool) :
    (∃ ctx, (flushAndSync syncNow s).1 = some (.io ctx)) ∧
    Intact base (flushAndSync syncNow s).2 held (junk ++ (encodeBlock s.wal.records).take n)
      pending := by
  obtain ⟨⟨ctx, ho⟩, hI⟩ := flushBlock_torn h hp hw
  unfold flushAndSync
  obtain ⟨o, s', hflush⟩ : ∃ o s', flushBlock s = (o, s') := ⟨_, _, rfl⟩
  rw [hflush] at ho hI ⊢
  obtain rfl : o = some (.io ctx) := ho
  exact ⟨⟨ctx, rfl⟩, hI⟩

end Flush

/-! ## Records joining the block -/

/-- **The four reasons to refuse an entry.** -/
theorem validateEntry_isSome_iff {maxRecord : UInt64} :
    (∃ err, validateEntry blockSize maxRecord e = some err) ↔
      e.key = [] ∨ (e.value = [] ∧ e.tombstone = false) ∨ blockSize.toNat < recordSize e ∨
        (0 < maxRecord ∧ maxRecord.toNat < recordSize e) := by
  have htotal : (newRecordBufferOwned e).total = recordSize e := rfl
  simp only [validateEntry, List.length_eq_zero_iff, htotal]
  by_cases h₁ : e.key = []
  · simp [h₁]
  by_cases h₂ : e.value = [] ∧ e.tombstone = false
  · simp [h₁, h₂]
  by_cases h₃ : blockSize.toNat < recordSize e
  · simp [h₁, h₂, h₃]
  by_cases h₄ : 0 < maxRecord ∧ maxRecord.toNat < recordSize e
  · simp [h₁, h₂, h₃, h₄]
  · simp only [h₁, h₂, h₃, h₄, if_false, or_self, iff_false]
    rintro ⟨_, h⟩
    cases h

theorem recordSize_le_of_validateEntry {maxRecord : UInt64}
    (h : validateEntry blockSize maxRecord e = none) : recordSize e ≤ blockSize.toNat := by
  refine Nat.not_lt.mp fun hlt => ?_
  have herr : ∃ err, validateEntry blockSize maxRecord e = some err :=
    validateEntry_isSome_iff.mpr (.inr (.inr (.inl hlt)))
  obtain ⟨err, herr⟩ := herr
  rw [h] at herr
  cases herr

theorem Intact.push (h : Intact base s held junk pending)
    (hfit : s.wal.blockLen + recordSize e ≤ s.wal.blockSize.toNat) :
    Intact base (s.push e) held junk (pending ++ [e]) where
  files := h.files
  path := h.path
  blockSize := h.blockSize
  records := by
    rw [List.map_append, ← h.records]
    rfl
  blockLen := by
    rw [List.map_append, List.sum_append, ← h.blockLen]
    rfl
  fits := hfit
  noFault := h.noFault

/-- A refused entry changes nothing. -/
theorem appendLocked_invalid {err : Err} (hf : s.wal.f ≠ none)
    (h : validateEntry s.wal.blockSize s.wal.maxRecord e = some err) :
    appendLocked e s = (some err, s) := by
  unfold appendLocked
  split
  · exact absurd (by assumption) hf
  · simp only [h]

/-- A record that fits joins the block. -/
theorem appendLocked_fits (hf : s.wal.f ≠ none)
    (hv : validateEntry s.wal.blockSize s.wal.maxRecord e = none)
    (hfit : s.wal.blockLen = 0 ∨ s.wal.blockLen + recordSize e ≤ s.wal.blockSize.toNat) :
    appendLocked e s = (none, s.push e) := by
  unfold appendLocked
  split
  · exact absurd (by assumption) hf
  · simp only [hv]
    rw [if_neg]
    rintro ⟨hpos, hlt⟩
    change s.wal.blockSize.toNat < s.wal.blockLen + recordSize e at hlt
    omega

/-- One that does not has the block written first. -/
theorem appendLocked_full (hf : s.wal.f ≠ none)
    (hv : validateEntry s.wal.blockSize s.wal.maxRecord e = none) (hpos : 0 < s.wal.blockLen)
    (hfull : s.wal.blockSize.toNat < s.wal.blockLen + recordSize e) :
    appendLocked e s = match flushBlock s with
      | (some err, s) => (some err, s)
      | (none, s) => (none, s.push e) := by
  unfold appendLocked
  split
  · exact absurd (by assumption) hf
  · simp only [hv]
    refine (if_pos ⟨hpos, hfull⟩).trans ?_
    rcases flushBlock s with ⟨_ | err, s'⟩ <;> rfl

/-! ## Opening a log -/

theorem finishOpen_ok {opts : Options} {k : ℕ} {id : UInt64} {d' : Disk} {w : WAL}
    (h : finishOpen opts k blockSize id d = (.ok w, d')) :
    d' = d ∧ minBlockSize ≤ blockSize.toNat ∧
    w = { f := some ⟨k, true⟩, path := opts.path, sync := opts.sync, maxBytes := opts.maxSegment
          sizeBytes := UInt64.ofNat (d.bytesOf k).length, maxRecord := opts.maxRecordBytes
          blockSize := blockSize, segmentID := id, records := [], blockLen := 0
          async := opts.async, batchMax := opts.batchMax
          repairOnReplay := opts.repairOnReplay } := by
  unfold finishOpen at h
  split at h
  · cases h
  · next hmin =>
    split at h
    · cases h
    · cases h
      exact ⟨rfl, Nat.not_lt.mp hmin, rfl⟩

/-- What opening leaves as the options say. -/
structure Opened (opts : Options) (d : Disk) (w : WAL) (d' : Disk) : Prop where
  sync : w.sync = opts.sync
  maxRecord : w.maxRecord = opts.maxRecordBytes
  async : w.async = opts.async
  writeFaults : d'.writeFaults = d.writeFaults

section Init

variable {opts : Options} {d' : Disk} {k : ℕ}
variable {w : WAL} (hio : d.ioFaults = [])
variable (hs : List.Forall₂ Holds segs ess) (hok : initFile opts k blockSize d = (.ok w, d'))
include hio hs hok

/-- **An empty file gets a header**, under the number behind the last
segment. -/
theorem initFile_empty (h : Layout opts.path d.files k segs []) :
    Opened opts d w d' ∧ w.blockSize = blockSize ∧
    Intact opts.path ⟨w, d'⟩ ess.flatten [] [] := by
  rw [initFile, if_pos h.bytesOf] at hok
  simp only [writeSegmentHeader, writeHeader_of_nil hio] at hok
  obtain ⟨rfl, hmin, rfl⟩ := finishOpen_ok hok
  refine ⟨⟨rfl, rfl, rfl, rfl⟩, rfl, ⟨k, segs, ess, UInt64.ofNat d.clock, [], ?_, hs, ?_, ?_, rfl⟩,
    rfl, hmin, rfl, rfl, Nat.zero_le _, hio⟩
  · simpa using h.push (encodeSegmentHeader blockSize (nextSegmentID d opts.path)
      (UInt64.ofNat d.clock))
  · rw [blocksEntries_nil, List.append_nil]
  · exact nextSegmentID_eq h.numbers

/-- **A file with a header is taken over as it is**, the block size it
was written with included. -/
theorem initFile_header {cap : UInt32} {t : UInt64} {bs : List (Block cap)}
    (h : Layout opts.path d.files k segs
      (encodeSegmentHeader cap (UInt64.ofNat (segs.length + 1)) t ++ (blocksBytes bs ++ junk))) :
    Opened opts d w d' ∧ w.blockSize = cap ∧
    Intact opts.path ⟨w, d'⟩ (ess.flatten ++ blocksEntries bs) junk [] := by
  have hne : d.bytesOf k ≠ [] := by
    rw [h.bytesOf, ← List.length_pos_iff, List.length_append, length_encodeSegmentHeader]
    omega
  rw [initFile, if_neg hne] at hok
  simp only [ioFault_of_nil hio, close_of_nil hio, adoptHeader, h.bytesOf,
    readSegmentHeader_append] at hok
  obtain ⟨rfl, hmin, rfl⟩ := finishOpen_ok hok
  exact ⟨⟨rfl, rfl, rfl, rfl⟩, rfl, ⟨k, segs, ess, t, bs, h, hs, rfl, rfl, rfl⟩, rfl, hmin, rfl,
    rfl, Nat.zero_le _, hio⟩

end Init

/-- `NewWAL` on the directory of a log with an active file. -/
theorem newWAL_layout {opts : Options} {d' : Disk} {k : ℕ} {active : Bytes} {w : WAL}
    (hio : d.ioFaults = []) (h : Layout opts.path d.files k segs active)
    (hok : newWAL opts d = (.ok w, d')) :
    initFile opts k opts.blockSizeOrDefault d = (.ok w, d') := by
  have hopen : d.openFile opts.path false = (some k, d) := by
    simp only [Disk.openFile, ioFault_of_nil hio, h.find_active, Bool.false_eq_true, if_false]
  unfold newWAL at hok
  simp only [ioFault_of_nil hio, hopen] at hok
  split at hok
  · cases hok
  · split at hok
    · cases hok
    · exact hok

/-- **`NewWAL` on a directory without an active file** starts one. -/
theorem newWAL_rotated {opts : Options} {d' : Disk} {w : WAL} (hio : d.ioFaults = [])
    (h : Rotated opts.path d.files segs) (hs : List.Forall₂ Holds segs ess)
    (hok : newWAL opts d = (.ok w, d')) :
    Opened opts d w d' ∧ w.blockSize = opts.blockSizeOrDefault ∧
      Intact opts.path ⟨w, d'⟩ ess.flatten [] [] := by
  unfold newWAL at hok
  simp only [ioFault_of_nil hio] at hok
  split at hok
  · cases hok
  split at hok
  · cases hok
  by_cases hroom : d.files.length < maxEntries
  · have hopen : d.openFile opts.path false
        = (some d.files.length, { d with files := d.files ++ [⟨some opts.path, [], 0⟩] }) := by
      simp only [Disk.openFile, ioFault_of_nil hio, h.find_active, if_pos hroom]
    have hio' : ({ d with files := d.files ++ [⟨some opts.path, [], 0⟩] } : Disk).ioFaults = [] :=
      hio
    simp only [hopen, ioFault_of_nil hio'] at hok
    obtain ⟨ho, hsize, hI⟩ := initFile_empty hio' hs hok (h.layout hroom)
    exact ⟨⟨ho.sync, ho.maxRecord, ho.async, ho.writeFaults⟩, hsize, hI⟩
  · have hopen : d.openFile opts.path false = (none, d) := by
      simp only [Disk.openFile, ioFault_of_nil hio, h.find_active, if_neg hroom]
    simp only [hopen] at hok
    cases hok

end LSMEngine.Wal
