import LSMEngine.Wal.RoundTrip
/-!
# WAL — recovery from a crash

A crash leaves a prefix of the active file. Recovery opens the log on
it, replays with `RepairOnReplay`, appends, and after another reopen
replays once more. Cut behind the segment header, the file is read up to
its last whole block, the rest is truncated away, and the log goes on
from there; an empty file is started over.

Cut inside the header, the file is neither repaired nor started over:
`NewWAL` passes over the header it cannot read and appends behind it, the
replay finds the header corrupt and gives up on the whole file, and what
was appended since is lost (`recovers_iff`).
-/

namespace LSMEngine.Wal

variable {d : Disk} {segs : List Bytes}

/-- The blocks that lie within the first `n` bytes. -/
def wholeBlocks {cap : UInt32} : ℕ → List (Block cap) → List (Block cap)
  | _, [] => []
  | n, b :: bs =>
    if b.bytes.length ≤ n then b :: wholeBlocks (n - b.bytes.length) bs else []

/-- Recovery: open with repair, replay, append, close, reopen, replay.
The answers to the appends and what the last replay delivers, unless one
of the calls that open and close the log is refused. -/
def recovery (base : String) (opts opts' : Options) (es : List Entry) (d : Disk) :
    Option (List (Entry × Option Err) × List Entry) :=
  match openLog { opts with path := base, repairOnReplay := true } d with
  | none => none
  | some s =>
    let repaired := (replay collect base true s.disk []).2.2
    let r := appendAll es { s with disk := repaired }
    match close r.2 with
    | (some _, _) => none
    | (none, s) =>
      (openLog { opts' with path := base } s.disk).map fun s =>
        (r.1, (replay collect base opts'.repairOnReplay s.disk []).2.1)

/-- Recovery keeps these entries, and loses nothing that is appended. -/
def Recovers (base : String) (d : Disk) (kept : List Entry) : Prop :=
  ∀ (opts opts' : Options) (es delivered : List Entry) (log : List (Entry × Option Err)),
    recovery base opts opts' es d = some (log, delivered) → (∀ p ∈ log, p.2 = none) →
      delivered = kept ++ es

variable {base : String} {cap : UInt32} {s : World} {held : List Entry}

/-! ## The blocks of a prefix -/

theorem length_block_pos (b : Block cap) : 0 < b.bytes.length := by
  rw [Block.bytes, length_frameBlock]
  omega

theorem wholeBlocks_zero (bs : List (Block cap)) : wholeBlocks 0 bs = [] := by
  cases bs with
  | nil => rfl
  | cons b bs => rw [wholeBlocks, if_neg (Nat.not_le.mpr (length_block_pos b))]

/-- A block that was cut short, or nothing. -/
def Torn (cap : UInt32) (torn : Bytes) : Prop :=
  torn = [] ∨ ∃ (b : Block cap) (j : ℕ), 0 < j ∧ j < b.bytes.length ∧ torn = b.bytes.take j

/-- **A prefix of blocks is its whole blocks and a torn one.** -/
theorem take_blocksBytes (n : ℕ) (bs : List (Block cap)) :
    ∃ torn, (blocksBytes bs).take n = blocksBytes (wholeBlocks n bs) ++ torn ∧ Torn cap torn := by
  induction bs generalizing n with
  | nil => exact ⟨[], by rw [blocksBytes_nil, List.take_nil]; rfl, .inl rfl⟩
  | cons b bs ih =>
    have hcons : blocksBytes (b :: bs) = b.bytes ++ blocksBytes bs := by
      simp only [blocksBytes, List.flatMap_cons]
    by_cases hn : b.bytes.length ≤ n
    · obtain ⟨torn, htake, htorn⟩ := ih (n - b.bytes.length)
      refine ⟨torn, ?_, htorn⟩
      have hwhole : blocksBytes (wholeBlocks n (b :: bs))
          = b.bytes ++ blocksBytes (wholeBlocks (n - b.bytes.length) bs) := by
        rw [wholeBlocks, if_pos hn]
        simp only [blocksBytes, List.flatMap_cons]
      rw [hcons, hwhole, List.take_append, List.take_of_length_le hn, htake, List.append_assoc]
    · refine ⟨b.bytes.take n, ?_, ?_⟩
      · rw [hcons, wholeBlocks, if_neg hn, List.take_append_of_le_length (by omega)]
        rfl
      · rcases Nat.eq_zero_or_pos n with rfl | hpos
        · exact .inl List.take_zero
        · exact .inr ⟨b, n, hpos, by omega, rfl⟩

theorem readBlocks_torn {torn : Bytes} (h : Torn cap torn) :
    readBlocks cap torn false =
      ⟨if torn = [] then .done else .err .walCorruptSegment, [], torn.length⟩ := by
  rcases h with rfl | ⟨b, j, hpos, hlt, rfl⟩
  · rw [readBlocks_nil]
    rfl
  · have hlen : (b.bytes.take j).length = j := by rw [List.length_take]; omega
    have hne : b.bytes.take j ≠ [] := by rw [← List.length_pos_iff, hlen]; exact hpos
    rw [readBlocks_take b false hpos hlt, if_neg hne, hlen]

/-! ## Repair -/

theorem truncate_ioFaults (d : Disk) (name : String) (n : ℕ) :
    (d.truncate name n).ioFaults = d.ioFaults := by
  unfold Disk.truncate
  split <;> rfl

theorem truncate_writeFaults (d : Disk) (name : String) (n : ℕ) :
    (d.truncate name n).writeFaults = d.writeFaults := by
  unfold Disk.truncate
  split <;> rfl

/-- **The repairing replay cuts the torn block off**, and nothing else. -/
theorem intact_of_repair {torn : Bytes} (h : Intact base s held torn [])
    (htorn : Torn s.wal.blockSize torn) :
    Intact base { s with disk := (replay collect base true s.disk []).2.2 } held [] [] ∧
      (replay collect base true s.disk []).2.2.writeFaults = s.disk.writeFaults := by
  obtain ⟨⟨k, segs, ess, t, bs, hlay, hs, hheld, hid, hf⟩, hpath, hbs, hrec, hlen, hfits, hio⟩ := h
  have hread := readSegment_header s.wal.blockSize s.wal.segmentID t (blocksBytes bs ++ torn)
  rw [readBlocks_append, readBlocks_torn htorn] at hread
  rw [replay_layout accepting_collect true hlay hs, hread]
  rcases List.eq_nil_or_concat torn with rfl | ⟨x, y, htorn'⟩
  · -- nothing torn, nothing done
    simp only [Reading.prepend, if_true, reduceCtorEq, false_and, if_false, and_true]
    exact ⟨⟨k, segs, ess, t, bs, hlay, hs, hheld, hid, hf⟩, hpath, hbs, hrec, hlen, hfits, hio⟩
  · have hne : torn ≠ [] := by rw [htorn']; simp
    have hleft : 29 + (blocksBytes bs ++ torn).length - torn.length
        = 29 + (blocksBytes bs).length := by
      rw [List.length_append]
      omega
    have hcut : (encodeSegmentHeader s.wal.blockSize s.wal.segmentID t ++
        (blocksBytes bs ++ torn)).take (29 + (blocksBytes bs).length)
        = encodeSegmentHeader s.wal.blockSize s.wal.segmentID t ++ (blocksBytes bs ++ []) := by
      rw [take_add_append (length_encodeSegmentHeader _ _ _), List.take_left, List.append_nil]
    simp only [Reading.prepend, if_neg hne, hleft, true_and]
    rw [if_pos (by omega)]
    refine ⟨⟨⟨k, segs, ess, t, bs, ?_, hs, hheld, hid, hf⟩, hpath, hbs, hrec, hlen, hfits, ?_⟩, ?_⟩
    · exact hcut ▸ hlay.truncate _
    · exact (truncate_ioFaults _ _ _).trans hio
    · exact truncate_writeFaults _ _ _

/-- Appends that all succeed are all held. -/
theorem intact_of_appendAll {es : List Entry} (h : Intact base s held [] [])
    (hw : s.disk.writeFaults = []) (hok : ∀ p ∈ (appendAll es s).1, p.2 = none) :
    Intact base (appendAll es s).2 (held ++ es) [] [] := by
  induction es generalizing s held with
  | nil => rwa [List.append_nil]
  | cons e es ih =>
    have hfirst : (append e s).1 = none := hok (e, (append e s).1) List.mem_cons_self
    have hrest : ∀ p ∈ (appendAll es (append e s).2).1, p.2 = none :=
      fun p hp => hok p (List.mem_cons_of_mem _ hp)
    cases hv : validateEntry s.wal.blockSize s.wal.maxRecord e with
    | some err =>
      rw [append_invalid h.f_ne_none hv] at hfirst
      cases hfirst
    | none =>
      obtain ⟨hw', ⟨-, hI⟩ | ⟨ctx, ho⟩⟩ := append_ok h hw hv
      · have := ih hI hw' hrest
        rwa [List.append_assoc, List.singleton_append] at this
      · rw [hfirst] at ho
        cases ho

/-- **From a repaired log on, nothing is lost.** -/
theorem recovers_of_intact {kept : List Entry} (hw : d.writeFaults = [])
    (h : ∀ (opts : Options) (s : World), opts.path = base → openLog opts d = some s →
      s.disk.writeFaults = d.writeFaults ∧
        ∃ torn, Torn s.wal.blockSize torn ∧ Intact base s kept torn []) :
    Recovers base d kept := by
  intro opts opts' es delivered log hrec hok
  unfold recovery at hrec
  split at hrec
  · cases hrec
  next s hopen =>
  obtain ⟨hws, torn, htorn, hI⟩ := h _ s rfl hopen
  obtain ⟨hI, hwr⟩ := intact_of_repair hI htorn
  dsimp only at hrec
  split at hrec
  · cases hrec
  next s' hclose =>
  obtain ⟨s'', hreopen, heq⟩ := Option.map_eq_some_iff.mp hrec
  cases heq
  have hI' := intact_of_appendAll hI (hwr.trans (hws.trans hw)) hok
  have hdisk := (close_spec hI').2
  rw [hclose] at hdisk
  simp only at hdisk
  rw [hdisk] at hreopen
  obtain ⟨-, hI''⟩ := openLog_intact hI' rfl hreopen
  rw [replay_of_intact accepting_collect hI'', feed_collect, List.nil_append]

/-! ## A header cut short -/

/-- Behind a header cut short, the magic of a block may be taken for the
rest of the header, but not for a small block size. -/
theorem minBlockSize_le_of_short {b : UInt32} {id t : UInt64} {n : ℕ} {x rest : Bytes}
    {hdr : SegmentHeader} (hb : minBlockSize ≤ b.toNat) (hpos : 0 < n)
    (h : readSegmentHeader ((encodeSegmentHeader b id t).take n ++ (blockMagic ++ x))
      = .ok (hdr, rest)) : minBlockSize ≤ hdr.blockSize.toNat := by
  obtain ⟨-, -, hmagic, hversion, hsize⟩ := eq_of_readSegmentHeader h
  rw [hsize]
  obtain ⟨b₀, b₁, b₂, b₃, hbs⟩ : ∃ b₀ b₁ b₂ b₃, leBytes 4 b.toNat = [b₀, b₁, b₂, b₃] :=
    ⟨_, _, _, _, rfl⟩
  obtain ⟨y, hy⟩ : ∃ y, encodeSegmentHeader b id t
      = 0x4C :: 0x53 :: 0x4D :: 0x57 :: 1 :: b₀ :: b₁ :: b₂ :: b₃ :: y := by
    refine ⟨leBytes 8 id.toNat ++ (leBytes 8 t.toNat ++
      leBytes 4 (crc32 (segmentFields b id t)).toNat), ?_⟩
    simp only [encodeSegmentHeader, segmentMagic, segmentFields, recordVersion, hbs,
      List.append_assoc, List.cons_append, List.nil_append]
  rw [hy] at hmagic hversion ⊢
  rcases Nat.lt_or_ge n 9 with hn | hn
  · -- the block size is made of bytes of the magic
    obtain rfl | rfl | rfl | rfl | rfl | rfl | rfl | rfl :
      n = 1 ∨ n = 2 ∨ n = 3 ∨ n = 4 ∨ n = 5 ∨ n = 6 ∨ n = 7 ∨ n = 8 := by omega
    all_goals simp [segmentMagic, blockMagic, recordVersion] at hmagic hversion ⊢
    all_goals simp only [leNat, minBlockSize, recordHeaderSize, recordCRCSize]
    all_goals simp
    all_goals omega
  · -- it is the one of the old header
    obtain ⟨m, rfl⟩ := Nat.exists_eq_add_of_le hn
    have hold : leNat [b₀, b₁, b₂, b₃] = b.toNat := by rw [← hbs, leNat_leBytes_uint32]
    rw [Nat.add_comm]
    simpa [hold] using hb

/-- Options without limits. -/
def plainOptions (base : String) (repair : Bool) : Options :=
  ⟨base, false, 0, 0, 0, false, 0, repair⟩

/-- The log they open on a file that is not empty. -/
def plainLog (base : String) (repair : Bool) (k : ℕ) (size : UInt64) (blockSize : UInt32)
    (id : UInt64) : WAL :=
  ⟨some ⟨k, true⟩, base, false, 0, size, 0, blockSize, id, [], 0, false, 0, repair⟩

/-- Opening a file that is not empty, whatever is in it. -/
theorem openLog_plain {k : ℕ} {active : Bytes} (repair : Bool) (hbase : base ≠ "")
    (hio : d.ioFaults = []) (hlay : Layout base d.files k segs active) (hne : active ≠ [])
    (hmin : minBlockSize ≤ (adoptHeader active (64 * 1024) (nextSegmentID d base)).1.toNat) :
    openLog (plainOptions base repair) d =
      some ⟨plainLog base repair k (UInt64.ofNat active.length)
        (adoptHeader active (64 * 1024) (nextSegmentID d base)).1
        (adoptHeader active (64 * 1024) (nextSegmentID d base)).2, d⟩ := by
  have hpath : (plainOptions base repair).path = base := rfl
  have hdefault : (plainOptions base repair).blockSizeOrDefault = 64 * 1024 := rfl
  have hdefault' : ¬(64 * 1024 : UInt32).toNat < minBlockSize := by decide
  have hfile : d.openFile base false = (some k, d) := by
    simp only [Disk.openFile, ioFault_of_nil hio, hlay.find_active, Bool.false_eq_true, if_false]
  have hcap : ¬(0 < (plainOptions base repair).maxRecordBytes ∧
      (adoptHeader active (64 * 1024) (nextSegmentID d base)).1.toNat
        < (plainOptions base repair).maxRecordBytes.toNat) := by
    rintro ⟨-, hlt⟩
    exact absurd hlt (Nat.not_lt_zero _)
  have hnew : newWAL (plainOptions base repair) d =
      (.ok (plainLog base repair k (UInt64.ofNat active.length)
        (adoptHeader active (64 * 1024) (nextSegmentID d base)).1
        (adoptHeader active (64 * 1024) (nextSegmentID d base)).2), d) := by
    simp only [newWAL, hdefault, hpath, if_neg hbase, if_neg hdefault', ioFault_of_nil hio, hfile,
      initFile, hlay.bytesOf, if_neg hne, close_of_nil hio, finishOpen,
      if_neg (Nat.not_lt.mpr hmin), if_neg hcap]
    rfl
  have hsame : ({ plainOptions base repair with async := false } : Options)
      = plainOptions base repair := rfl
  simp only [openLog, hsame, hnew]

/-- A small record. -/
def lostEntry : Entry := ⟨[0], [], true, 0⟩

/-- An append to a log without limits puts a block behind what there
is. -/
theorem append_plain {k : ℕ} {active : Bytes} (repair : Bool) (size id : UInt64) {cap : UInt32}
    (hio : d.ioFaults = []) (hw : d.writeFaults = []) (hlay : Layout base d.files k segs active)
    (hmin : minBlockSize ≤ cap.toNat) :
    ∃ d', (append lostEntry ⟨plainLog base repair k size cap id, d⟩).1 = none ∧
      (close (append lostEntry ⟨plainLog base repair k size cap id, d⟩).2).1 = none ∧
      (close (append lostEntry ⟨plainLog base repair k size cap id, d⟩).2).2.disk = d' ∧
      d'.ioFaults = [] ∧
      Layout base d'.files k segs (active ++ frameBlock (recordBytes lostEntry)) := by
  have hmin' : ¬cap.toNat < (newRecordBufferOwned lostEntry).total := by
    rw [show (newRecordBufferOwned lostEntry).total = minBlockSize from rfl]
    omega
  have hv : validateEntry cap 0 lostEntry = none := by
    simp only [validateEntry, if_neg hmin']
    rfl
  have henc : encodeBlock [newRecordBufferOwned lostEntry] = frameBlock (recordBytes lostEntry) := by
    have hblock := encodeBlock_eq_frameBlock (List.cons_ne_nil lostEntry [])
    simpa [payloadOf] using hblock
  have happend : append lostEntry ⟨plainLog base repair k size cap id, d⟩ = (none, World.written
      ⟨{ plainLog base repair k size cap id with
          records := [newRecordBufferOwned lostEntry]
          blockLen := (newRecordBufferOwned lostEntry).total },
        d.push k (frameBlock (recordBytes lostEntry))⟩) := by
    have hwf : d.writeFault = (none, d) := by simp only [Disk.writeFault, hw]
    have hlen : (newRecordBufferOwned lostEntry).total ≠ 0 := by decide
    simp only [append, appendLocked, plainLog, hv, World.push, List.nil_append, Nat.lt_irrefl,
      false_and, if_false, Nat.zero_add, flushAndSync, flushBlock, if_neg hlen, Disk.writeBlock,
      if_true, hwf, henc, Bool.false_eq_true]
    rfl
  rw [happend]
  have hio' : (d.push k (frameBlock (recordBytes lostEntry))).ioFaults = [] := hio
  refine ⟨d.push k (frameBlock (recordBytes lostEntry)), rfl, ?_, ?_, hio', hlay.push _⟩
  · simp only [close, World.written, plainLog, flushBlock, if_true, closeFile, close_of_nil hio']
  · simp only [close, World.written, plainLog, flushBlock, if_true, closeFile, close_of_nil hio']

theorem recordSize_le_of_readSegment {bytes : Bytes} {e : Entry}
    (h : e ∈ (readSegment (some bytes)).entries) : 41 + recordSize e ≤ bytes.length := by
  unfold readSegment at h
  cases hhdr : readSegmentHeader bytes with
  | error err =>
    simp only [hhdr] at h
    cases h
  | ok b =>
    obtain ⟨hlen, hrest, -⟩ := eq_of_readSegmentHeader hhdr
    simp only [hhdr, hrest] at h
    have := recordSize_le_of_readBlocks h
    rw [List.length_drop] at this
    omega

/-- **A header cut short is never repaired**: the next append goes behind
it, and is lost. -/
theorem not_recovers_of_short {k n : ℕ} {ess : List (List Entry)} {b : UInt32} {id t : UInt64}
    (hbase : base ≠ "") (hio : d.ioFaults = []) (hw : d.writeFaults = [])
    (hs : List.Forall₂ Holds segs ess) (hb : minBlockSize ≤ b.toNat) (hpos : 0 < n) (hn : n < 29)
    (hlay : Layout base d.files k segs ((encodeSegmentHeader b id t).take n)) :
    ¬Recovers base d ess.flatten := by
  intro hrec
  have hlen : ((encodeSegmentHeader b id t).take n).length = n := by
    rw [List.length_take, length_encodeSegmentHeader]
    omega
  have hne : (encodeSegmentHeader b id t).take n ≠ [] := by
    rw [← List.length_pos_iff, hlen]
    exact hpos
  obtain ⟨err, herr⟩ := readSegmentHeader_of_length_lt (hlen ▸ hn)
  -- the open passes over the header, the replay gives up on the file
  have hadopt : adoptHeader ((encodeSegmentHeader b id t).take n) (64 * 1024) (nextSegmentID d base)
      = (64 * 1024, nextSegmentID d base) := by
    simp only [adoptHeader, herr]
  have hbig : minBlockSize ≤ (64 * 1024 : UInt32).toNat := by decide
  have hopen := openLog_plain true hbase hio hlay hne (by rw [hadopt]; exact hbig)
  rw [hadopt] at hopen
  have hread : readSegment (some ((encodeSegmentHeader b id t).take n))
      = ⟨.err .walCorruptSegment, [], 0⟩ := by
    simp only [readSegment, herr]
  have hrepair : (replay collect base true d []).2.2 = d := by
    rw [replay_layout accepting_collect true hlay hs, hread]
    simp
  -- the append goes behind it
  obtain ⟨d', hok, hclose, hdisk, hio', hlay'⟩ := append_plain true
    (UInt64.ofNat ((encodeSegmentHeader b id t).take n).length) (nextSegmentID d base)
    hio hw hlay hbig
  have hne' : (encodeSegmentHeader b id t).take n ++ frameBlock (recordBytes lostEntry) ≠ [] := by
    intro h
    exact hne (List.append_eq_nil_iff.mp h).1
  have hmin : minBlockSize ≤ (adoptHeader ((encodeSegmentHeader b id t).take n ++
      frameBlock (recordBytes lostEntry)) (64 * 1024) (nextSegmentID d' base)).1.toNat := by
    unfold adoptHeader
    split
    · next hhdr => exact minBlockSize_le_of_short hb hpos hhdr
    · exact hbig
  have hreopen := openLog_plain false hbase hio' hlay' hne' hmin
  -- and the second replay does not deliver it
  have hlost : lostEntry ∉ (readSegment (some ((encodeSegmentHeader b id t).take n ++
      frameBlock (recordBytes lostEntry)))).entries := by
    intro hmem
    have hroom := recordSize_le_of_readSegment hmem
    rw [List.length_append, hlen, length_frameBlock, length_recordBytes] at hroom
    omega
  have hrecovery : recovery base (plainOptions base true) (plainOptions base false) [lostEntry] d =
      some ([(lostEntry, none)], ess.flatten ++ (readSegment (some
        ((encodeSegmentHeader b id t).take n ++ frameBlock (recordBytes lostEntry)))).entries) := by
    have hopts : ({ plainOptions base true with path := base, repairOnReplay := true } : Options)
        = plainOptions base true := rfl
    have hopts' : ({ plainOptions base false with path := base } : Options)
        = plainOptions base false := rfl
    obtain ⟨o, s', hs'⟩ : ∃ o s', close (append lostEntry ⟨plainLog base true k
        (UInt64.ofNat ((encodeSegmentHeader b id t).take n).length) (64 * 1024)
        (nextSegmentID d base), d⟩).2 = (o, s') := ⟨_, _, rfl⟩
    rw [hs'] at hclose hdisk
    obtain rfl : o = none := hclose
    obtain rfl : s'.disk = d' := hdisk
    simp only [recovery, hopts, hopen, hrepair, appendAll, hok, hs', hopts', hreopen,
      Option.map_some, replay_layout accepting_collect _ hlay' hs, feed_collect, List.nil_append]
  have heq := hrec _ _ _ _ _ hrecovery (by simp)
  exact hlost (by rw [List.append_cancel_left heq]; exact List.mem_singleton_self _)

/-! ## Recovery at every byte -/

theorem path_ne_of_openLog {opts : Options} (h : openLog opts d = some s) : opts.path ≠ "" := by
  intro hpath
  simp only [openLog, newWAL, hpath, if_true] at h
  cases h

/-- The active file of an intact log, as any division into blocks has
it. -/
theorem Intact.active {id t : UInt64} {bs : List (Block s.wal.blockSize)}
    (h : Intact base s held [] [])
    (hF : s.disk.content base = some (encodeSegmentHeader s.wal.blockSize id t ++ blocksBytes bs)) :
    ∃ (k : ℕ) (segs : List Bytes) (ess : List (List Entry)),
      Layout base s.disk.files k segs (encodeSegmentHeader s.wal.blockSize
        (UInt64.ofNat (segs.length + 1)) t ++ blocksBytes bs) ∧
      List.Forall₂ Holds segs ess ∧ held = ess.flatten ++ blocksEntries bs := by
  obtain ⟨k, segs, ess, t', bs', hlay, hs, hheld, hid, -⟩ := h.files
  rw [hlay.content_active, List.append_nil, Option.some.injEq] at hF
  have hheader := congrArg readSegmentHeader hF
  rw [readSegmentHeader_append, readSegmentHeader_append] at hheader
  have hparts : (s.wal.segmentID = id ∧ t' = t) ∧ blocksBytes bs' = blocksBytes bs := by
    simpa using hheader
  obtain ⟨⟨rfl, rfl⟩, hblocks⟩ := hparts
  have hentries := congrArg Reading.entries (readBlocks_blocks bs')
  rw [hblocks, readBlocks_blocks] at hentries
  refine ⟨k, segs, ess, ?_, hs, ?_⟩
  · rw [← hid, ← hblocks]
    rwa [List.append_nil] at hlay
  · rw [hheld]
    exact congrArg _ hentries.symm

/-- **Recovery at every byte.** A crash that leaves `n` bytes of the
active file of a log is recovered from, whatever the options and whatever
is appended then, exactly when it leaves nothing of the file or all of
its header. -/
theorem recovers_iff {opts : Options} {d : Disk} {ops : List LogOp}
    {log : List (Entry × Option Err)} {s : World} {id t : UInt64}
    {bs : List (Block s.wal.blockSize)} {rotated : List Entry} (hfresh : Fresh opts.path d)
    (hwrite : d.writeFaults = []) (hio : d.ioFaults = [])
    (hrun : runLogFrom opts ops d = some (log, s))
    (hnofail : ∀ p ∈ log, ∀ ctx, p.2 ≠ some (.io ctx))
    (hF : s.disk.content opts.path =
      some (encodeSegmentHeader s.wal.blockSize id t ++ blocksBytes bs))
    (hrot : acknowledged log = rotated ++ blocksEntries bs) (n : ℕ) :
    Recovers opts.path (s.disk.truncate opts.path n)
      (rotated ++ blocksEntries (wholeBlocks (n - 29) bs)) ↔ n = 0 ∨ 29 ≤ n := by
  obtain ⟨s₀, hopen, hrun⟩ := Option.bind_eq_some_iff.mp hrun
  have hbase := path_ne_of_openLog hopen
  obtain ⟨hw, hI⟩ := intact_of_openLog hfresh hio hopen
  obtain ⟨hI, hw⟩ := intact_of_runLog hI (hw.trans hwrite) hrun hnofail
  rw [List.nil_append] at hI
  obtain ⟨k, segs, ess, hlay, hs, hheld⟩ := hI.active hF
  obtain rfl : rotated = ess.flatten := by
    rw [hrot] at hheld
    exact List.append_cancel_right hheld
  have hlayn := hlay.truncate n
  have hion : (s.disk.truncate opts.path n).ioFaults = [] :=
    (truncate_ioFaults _ _ _).trans hI.noFault
  have hwn : (s.disk.truncate opts.path n).writeFaults = [] := (truncate_writeFaults _ _ _).trans hw
  constructor
  · -- a cut inside the header
    intro hrec
    refine Decidable.by_contra fun hn => ?_
    rw [show n - 29 = 0 by omega, wholeBlocks_zero, blocksEntries_nil, List.append_nil] at hrec
    rw [List.take_append_of_le_length (by rw [length_encodeSegmentHeader]; omega)] at hlayn
    exact not_recovers_of_short hbase hion hwn hs hI.blockSize (by omega) (by omega) hlayn hrec
  · rintro (rfl | hn)
    · rw [wholeBlocks_zero, blocksEntries_nil, List.append_nil]
      rw [List.take_zero] at hlayn
      refine recovers_of_intact hwn fun opts' s' hpath hopen' => ?_
      obtain ⟨hw', hI'⟩ := openLog_empty hion hs (by rw [hpath]; exact hlayn) hopen'
      rw [hpath] at hI'
      exact ⟨hw', [], .inl rfl, hI'⟩
    · obtain ⟨m, rfl⟩ := Nat.exists_eq_add_of_le hn
      obtain ⟨torn, htake, htorn⟩ := take_blocksBytes m bs
      rw [take_add_append (length_encodeSegmentHeader _ _ _), htake] at hlayn
      rw [Nat.add_sub_cancel_left]
      refine recovers_of_intact hwn fun opts' s' hpath hopen' => ?_
      obtain ⟨hw', hcap, hI'⟩ := openLog_layout hion hs (by rw [hpath]; exact hlayn) hopen'
      rw [hpath] at hI'
      exact ⟨hw', torn, hcap ▸ htorn, hI'⟩

/-- Three appends, the first two of which fill a segment. -/
def threeAppends : List LogOp :=
  [.append ⟨[1], [7], false, 1⟩, .append ⟨[2], [8], false, 2⟩, .append ⟨[3], [9], false, 3⟩]

/-- A cut inside the block of the third append leaves the two in the
rotated segment, whatever comes next, and a cut inside the header loses
what comes next. -/
theorem threeAppends_recovers_iff :
    ∃ log s, runLogFrom { smallLog with maxSegment := 80 } threeAppends ⟨[], [], [], 0⟩ =
        some (log, s) ∧
      (s.disk.content "wal").map List.length = some 64 ∧
      Recovers "wal" (s.disk.truncate "wal" 50) [⟨[1], [7], false, 1⟩, ⟨[2], [8], false, 2⟩] ∧
      ¬Recovers "wal" (s.disk.truncate "wal" 12) [⟨[1], [7], false, 1⟩, ⟨[2], [8], false, 2⟩] := by
  have h : (runLogFrom { smallLog with maxSegment := 80 } threeAppends ⟨[], [], [], 0⟩).map
      (fun r => (r.2.wal.blockSize, r.1, r.2.disk.content "wal")) =
      some (64, [(⟨[1], [7], false, 1⟩, none), (⟨[2], [8], false, 2⟩, none),
          (⟨[3], [9], false, 3⟩, none)],
        some (encodeSegmentHeader 64 2 1 ++ frameBlock (recordBytes ⟨[3], [9], false, 3⟩))) := by
    decide +kernel
  obtain ⟨⟨log, s⟩, hrun, hr⟩ := Option.map_eq_some_iff.mp h
  obtain ⟨hcap, hrest⟩ := Prod.mk.inj hr
  obtain ⟨rfl, hcontent⟩ := Prod.mk.inj hrest
  dsimp only at hcap hcontent
  have hadmits : Admits s.wal.blockSize (recordBytes ⟨[3], [9], false, 3⟩).length := by
    rw [hcap]
    exact ⟨by decide +kernel, fun _ => by decide +kernel⟩
  let third : Block s.wal.blockSize :=
    ⟨recordBytes ⟨[3], [9], false, 3⟩, [⟨[3], [9], false, 3⟩], by decide +kernel, hadmits⟩
  have hbytes : blocksBytes [third] = frameBlock (recordBytes ⟨[3], [9], false, 3⟩) :=
    List.append_nil _
  have hF : s.disk.content "wal" =
      some (encodeSegmentHeader s.wal.blockSize 2 1 ++ blocksBytes [third]) := by
    rw [hcontent, hbytes, hcap]
  have hiff := @recovers_iff _ _ _ _ _ _ _ _ [⟨[1], [7], false, 1⟩, ⟨[2], [8], false, 2⟩]
    (fun f hf => by cases hf) rfl rfl hrun (by simp) hF rfl
  have hlen : third.bytes.length = 35 :=
    show (frameBlock (recordBytes ⟨[3], [9], false, 3⟩)).length = 35 by decide +kernel
  have hcut : ∀ n, n - 29 < 35 → wholeBlocks (n - 29) [third] = [] := fun n hn =>
    if_neg (by rw [hlen]; omega)
  refine ⟨_, s, hrun, by rw [hcontent]; decide +kernel, ?_, fun hrec => ?_⟩
  · have hrec := (hiff 50).mpr (.inr (by decide))
    rwa [hcut 50 (by decide), blocksEntries_nil, List.append_nil] at hrec
  · have hn := (hiff 12).mp (by rwa [hcut 12 (by decide), blocksEntries_nil, List.append_nil])
    omega

/-- A log to which nothing has been appended yet. -/
def emptyLog : World where
  wal := ⟨some ⟨0, true⟩, "wal", true, 60, 29, 0, 64, 1, [], 0, false, 0, false⟩
  disk := ⟨[⟨some "wal", encodeSegmentHeader 64 1 0, 0⟩], [], [], 1⟩

/-- **Twelve bytes of a header lose the next append**, although it
succeeds: recovery delivers nothing. -/
theorem short_header_loses_append :
    ¬ ∀ (opts : Options) (d : Disk) (ops : List LogOp) (log : List (Entry × Option Err))
      (s : World) (id t : UInt64) (bs : List (Block s.wal.blockSize)) (rotated : List Entry),
      Fresh opts.path d → d.writeFaults = [] → d.ioFaults = [] →
      runLogFrom opts ops d = some (log, s) → (∀ p ∈ log, ∀ ctx, p.2 ≠ some (.io ctx)) →
      s.disk.content opts.path =
        some (encodeSegmentHeader s.wal.blockSize id t ++ blocksBytes bs) →
      acknowledged log = rotated ++ blocksEntries bs →
      ∀ n, Recovers opts.path (s.disk.truncate opts.path n)
        (rotated ++ blocksEntries (wholeBlocks (n - 29) bs)) := by
  intro hall
  have hrun : runLogFrom smallLog [] ⟨[], [], [], 0⟩ = some ([], emptyLog) := by decide +kernel
  have hfresh : Fresh smallLog.path ⟨[], [], [], 0⟩ := fun f hf => by cases hf
  have hF : emptyLog.disk.content smallLog.path =
      some (encodeSegmentHeader 64 1 0 ++ blocksBytes ([] : List (Block 64))) := by decide +kernel
  have hrec := hall smallLog _ [] [] emptyLog 1 0 [] [] hfresh rfl rfl hrun
    (fun p hp => by cases hp) hF rfl 12
  have hlost : recovery smallLog.path (plainOptions "wal" true) (plainOptions "wal" false) [lostEntry]
      (emptyLog.disk.truncate smallLog.path 12) = some ([(lostEntry, none)], []) := by
    decide +kernel
  have heq := hrec _ _ _ _ _ hlost (by simp)
  cases heq

end LSMEngine.Wal
