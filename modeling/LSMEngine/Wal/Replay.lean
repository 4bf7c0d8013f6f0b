import LSMEngine.Wal.Codec
import LSMEngine.Wal.Model.Replay
/-!
# WAL — what a replay reads

A replay is a reading of the files, handed to a callback. `readBlocks`
is the reading alone: the entries of the blocks in order, how it ends,
and how much of the file is left behind the last good block. A callback
that accepts everything sees exactly the entries of the reading
(`replaySegment_eq`), and `ReplayViews` sees their views
(`replayViews_eq`).

What a reading does with a file is then a matter of its blocks: whole
blocks are read off the front, whatever follows them
(`readBlocks_append`), and a block cut short at the end is reported and
otherwise ignored (`readBlocks_take`).
-/

namespace LSMEngine.Wal

variable {σ τ α : Type}
variable {r rest : Bytes} {es : List Entry} {c : Bool}

/-! ## Readings -/

/-- What reading a file comes to: how it ends, the entries read, and what
is left behind the last good block. -/
structure Reading where
  outcome : Outcome
  entries : List Entry
  left : ℕ
  deriving DecidableEq, Repr

/-- The same reading behind more entries. -/
def Reading.prepend (es : List Entry) (rd : Reading) : Reading :=
  { rd with entries := es ++ rd.entries }

/-- The search for the next block, without a callback. -/
def readResync (cap : UInt32) (r : Bytes) : Turn (List Entry) :=
  match findBlock cap r with
  | none => .stop (.err .walCorruptSegment) []
  | some (p, rest) =>
    match decodeRecords p with
    | .ok es => .again es rest true
    | .corrupt => .stop (.err .walCorrupt) []
    | .panic => .stop .panic []

/-- One turn of the loop, without a callback. -/
def readTurn (cap : UInt32) (r : Bytes) (corrupt : Bool) : Turn (List Entry) :=
  match decodeBlock r cap with
  | .eof => .stop (if corrupt then .err .walCorruptSegment else .done) []
  | .corrupt rest => readResync cap rest
  | .payload p rest =>
    match decodeRecords p with
    | .ok es => .again es rest corrupt
    | .corrupt => readResync cap rest
    | .panic => .stop .panic []

/-- A callback that answers no error. -/
def Accepting (fn : Callback σ α) : Prop := ∀ st a, (fn st a).1 = none

/-- The state of the callback once it has seen a list of entries. -/
def feed (fn : Callback σ α) (as : List α) (st : σ) : σ :=
  as.foldl (fun st a => (fn st a).2) st

@[simp] theorem feed_nil (fn : Callback σ α) (st : σ) : feed fn [] st = st := rfl

theorem feed_append (fn : Callback σ α) (as bs : List α) (st : σ) :
    feed fn (as ++ bs) st = feed fn bs (feed fn as st) := List.foldl_append

theorem deliver_eq {fn : Callback σ α} (hfn : Accepting fn) (as : List α) (st : σ) :
    deliver fn as st = (.done, feed fn as st) := by
  induction as generalizing st with
  | nil => rfl
  | cons a as ih =>
    obtain ⟨o, st', hst⟩ : ∃ o st', fn st a = (o, st') := ⟨_, _, rfl⟩
    have ho : o = none := by simpa only [hst] using hfn st a
    simp only [deliver, hst, ho, ih, feed, List.foldl_cons]

/-- What a turn comes to when the state is passed through `f`. -/
def Turn.map (f : σ → τ) : Turn σ → Turn τ
  | .stop o st => .stop o (f st)
  | .again st rest c => .again (f st) rest c

section Accepting

variable {fn : Callback σ Entry} (hfn : Accepting fn) (cap : UInt32)
include hfn

theorem applyPayload_eq (p : Bytes) (st : σ) :
    applyPayload decodeRecords fn p st =
      match decodeRecords p with
      | .ok es => (.done, feed fn es st)
      | .corrupt => (.err .walCorrupt, st)
      | .panic => (.panic, st) := by
  unfold applyPayload
  cases decodeRecords p with
  | ok es => exact deliver_eq hfn es st
  | corrupt => rfl
  | panic => rfl

theorem replayFromResync_eq (r : Bytes) (st : σ) :
    replayFromResync decodeRecords fn cap r st =
      (readResync cap r).map fun es => feed fn es st := by
  unfold replayFromResync readResync
  cases findBlock cap r with
  | none => rfl
  | some b =>
    simp only [applyPayload_eq hfn]
    cases decodeRecords b.1 <;> rfl

theorem replayTurn_eq (r : Bytes) (corrupt : Bool) (st : σ) :
    replayTurn decodeRecords fn cap r corrupt st =
      (readTurn cap r corrupt).map fun es => feed fn es st := by
  unfold replayTurn readTurn
  cases decodeBlock r cap with
  | eof => rfl
  | corrupt rest => exact replayFromResync_eq hfn cap rest st
  | payload p rest =>
    simp only [applyPayload_eq hfn]
    cases decodeRecords p with
    | ok es => rfl
    | corrupt => exact replayFromResync_eq hfn cap rest st
    | panic => rfl

end Accepting

/-- The callback that keeps everything it is given, in order. -/
def collect : Callback (List α) α := fun st a => (none, st ++ [a])

theorem accepting_collect : Accepting (collect : Callback (List α) α) := fun _ _ => rfl

theorem feed_collect (as st : List α) : feed collect as st = st ++ as := by
  induction as generalizing st with
  | nil => exact (List.append_nil st).symm
  | cons a as ih =>
    rw [feed, List.foldl_cons]
    exact (ih _).trans (by rw [collect, List.append_assoc, List.singleton_append])

/-- A turn that goes on has consumed something. -/
theorem length_readTurn_lt {cap : UInt32} {c' : Bool} (h : readTurn cap r c = .again es rest c') :
    rest.length < r.length := by
  have ht : replayTurn decodeRecords collect cap r c [] = .again es rest c' := by
    rw [replayTurn_eq accepting_collect, h, Turn.map, feed_collect, List.nil_append]
  exact length_replayTurn_lt ht

/-- The reading of what is left of a file. -/
def readBlocks (cap : UInt32) (r : Bytes) (corrupt : Bool) : Reading :=
  match _h : readTurn cap r corrupt with
  | .stop o es => ⟨o, es, r.length⟩
  | .again es rest corrupt => (readBlocks cap rest corrupt).prepend es
termination_by r.length
decreasing_by exact length_readTurn_lt _h

theorem readBlocks_stop {cap : UInt32} {o : Outcome} (h : readTurn cap r c = .stop o es) :
    readBlocks cap r c = ⟨o, es, r.length⟩ := by
  rw [readBlocks]
  split <;> simp_all

theorem readBlocks_again {cap : UInt32} {c' : Bool} (h : readTurn cap r c = .again es rest c') :
    readBlocks cap r c = (readBlocks cap rest c').prepend es := by
  rw [readBlocks]
  split <;> simp_all

/-- **The loop hands the callback what it reads.** -/
theorem replayBlocks_eq {fn : Callback σ Entry} (hfn : Accepting fn) (cap : UInt32) (r : Bytes)
    (corrupt : Bool) (st : σ) :
    replayBlocks decodeRecords fn cap r corrupt r.length st =
      ((readBlocks cap r corrupt).outcome, feed fn (readBlocks cap r corrupt).entries st,
        (readBlocks cap r corrupt).left) := by
  fun_induction readBlocks cap r corrupt generalizing st with
  | case1 r corrupt o es h =>
    rw [replayBlocks]
    have ht := replayTurn_eq hfn cap r corrupt st
    rw [h, Turn.map] at ht
    split <;> simp_all
  | case2 r corrupt es rest c h ih =>
    rw [replayBlocks]
    have ht := replayTurn_eq hfn cap r corrupt st
    rw [h, Turn.map] at ht
    split
    · simp_all
    · next h' =>
      rw [ht] at h'
      cases h'
      rw [ih, Reading.prepend, feed_append]

/-- The reading of a file, `left` counted from its start. -/
def readSegment (content : Option Bytes) : Reading :=
  match content with
  | none => ⟨.done, [], 0⟩
  | some bytes =>
    match readSegmentHeader bytes with
    | .error _ => ⟨.err .walCorruptSegment, [], 0⟩
    | .ok (hdr, r) =>
      { readBlocks hdr.blockSize r false with
        left := bytes.length - (readBlocks hdr.blockSize r false).left }

/-- **Replaying a segment is reading it.** -/
theorem replaySegment_eq {fn : Callback σ Entry} (hfn : Accepting fn) (content : Option Bytes)
    (st : σ) :
    replaySegment decodeRecords fn content st =
      ((readSegment content).outcome, feed fn (readSegment content).entries st,
        (readSegment content).left) := by
  unfold replaySegment readSegment
  cases content with
  | none => rfl
  | some bytes =>
    simp only
    cases readSegmentHeader bytes with
    | error e => rfl
    | ok b => simp only [replayBlocks_eq hfn]

/-! ## Views -/

theorem deliver_map (fn : Callback σ EntryView) (es : List Entry) (st : σ) :
    deliver fn (es.map Entry.view) st = deliver (fun st e => fn st e.view) es st := by
  induction es generalizing st with
  | nil => rfl
  | cons e es ih => simp only [List.map_cons, deliver, ih]

theorem applyPayload_views (fn : Callback σ EntryView) (p : Bytes) (st : σ) :
    applyPayload decodeRecordViews fn p st =
      applyPayload decodeRecords (fun st e => fn st e.view) p st := by
  rw [applyPayload, applyPayload, decodeRecordViews_eq]
  cases decodeRecords p with
  | ok es => exact deliver_map fn es st
  | corrupt => rfl
  | panic => rfl

theorem replayTurn_views (fn : Callback σ EntryView) (cap : UInt32) (r : Bytes) (c : Bool)
    (st : σ) :
    replayTurn decodeRecordViews fn cap r c st =
      replayTurn decodeRecords (fun st e => fn st e.view) cap r c st := by
  simp only [replayTurn, replayFromResync, applyPayload_views]

theorem replayBlocks_views (fn : Callback σ EntryView) (cap : UInt32) (r : Bytes) (c : Bool)
    (lastGood : ℕ) (st : σ) :
    replayBlocks decodeRecordViews fn cap r c lastGood st =
      replayBlocks decodeRecords (fun st e => fn st e.view) cap r c lastGood st := by
  fun_induction replayBlocks decodeRecordViews fn cap r c lastGood st with
  | case1 r c lastGood st o st' h =>
    rw [replayTurn_views] at h
    rw [replayBlocks]
    split <;> simp_all
  | case2 r c lastGood st st' rest c' h ih =>
    rw [replayTurn_views] at h
    rw [ih]
    conv_rhs => rw [replayBlocks]
    split <;> simp_all

/-- **`ReplayViews` is `Replay` under views**: whatever the callback
does, it is called on the views of the entries `Replay` would deliver. -/
theorem replayViews_eq (fn : Callback σ EntryView) (path : String) (repair : Bool) (d : Disk)
    (st : σ) :
    replayViews fn path repair d st = replay (fun st e => fn st e.view) path repair d st := by
  have hseg : ∀ content st, replaySegment decodeRecordViews fn content st =
      replaySegment decodeRecords (fun st e => fn st e.view) content st := by
    intro content st
    simp only [replaySegment, replayBlocks_views]
  have hrot : ∀ segs c st, replayRotated decodeRecordViews fn d segs c st =
      replayRotated decodeRecords (fun st e => fn st e.view) d segs c st := by
    intro segs
    induction segs with
    | nil => exact fun _ _ => rfl
    | cons seg segs ih => intro c st; simp only [replayRotated, hseg, ih]
  simp only [replayViews, replay, replayWith, hseg, hrot]

/-! ## Blocks -/

/-- A block as a reader with this cap accepts it. -/
structure Block (cap : UInt32) where
  payload : Bytes
  entries : List Entry
  decodes : decodeRecords payload = .ok entries
  admitted : Admits cap payload.length

/-- The bytes of a block. -/
def Block.bytes {cap : UInt32} (b : Block cap) : Bytes := frameBlock b.payload

variable {cap : UInt32}

/-- The bytes of blocks back to back. -/
def blocksBytes (bs : List (Block cap)) : Bytes := bs.flatMap Block.bytes

/-- Their entries. -/
def blocksEntries (bs : List (Block cap)) : List Entry := bs.flatMap Block.entries

@[simp] theorem blocksBytes_nil : blocksBytes ([] : List (Block cap)) = [] := rfl

@[simp] theorem blocksEntries_nil : blocksEntries ([] : List (Block cap)) = [] := rfl

theorem blocksBytes_append (bs bs' : List (Block cap)) :
    blocksBytes (bs ++ bs') = blocksBytes bs ++ blocksBytes bs' := List.flatMap_append

theorem blocksEntries_append (bs bs' : List (Block cap)) :
    blocksEntries (bs ++ bs') = blocksEntries bs ++ blocksEntries bs' := List.flatMap_append

@[simp] theorem Reading.prepend_nil (rd : Reading) : rd.prepend [] = rd := rfl

theorem Reading.prepend_prepend (es es' : List Entry) (rd : Reading) :
    (rd.prepend es').prepend es = rd.prepend (es ++ es') := by
  simp only [Reading.prepend, List.append_assoc]

theorem readTurn_block (b : Block cap) (r : Bytes) (c : Bool) :
    readTurn cap (b.bytes ++ r) c = .again b.entries r c := by
  simp only [readTurn, Block.bytes, decodeBlock_append b.admitted, b.decodes]

theorem readTurn_nil (c : Bool) :
    readTurn cap [] c = .stop (if c then .err .walCorruptSegment else .done) [] := by
  simp only [readTurn, decodeBlock_nil]

/-- **Whole blocks are read off the front**, whatever follows them. -/
theorem readBlocks_append (bs : List (Block cap)) (r : Bytes) (c : Bool) :
    readBlocks cap (blocksBytes bs ++ r) c = (readBlocks cap r c).prepend (blocksEntries bs) := by
  induction bs with
  | nil => rfl
  | cons b bs ih =>
    have hb : blocksBytes (b :: bs) ++ r = b.bytes ++ (blocksBytes bs ++ r) := by
      simp only [blocksBytes, List.flatMap_cons, List.append_assoc]
    have he : blocksEntries (b :: bs) = b.entries ++ blocksEntries bs := by
      simp only [blocksEntries, List.flatMap_cons]
    rw [hb, readBlocks_again (readTurn_block b _ c), ih, Reading.prepend_prepend, he]

theorem readBlocks_nil (c : Bool) :
    readBlocks cap [] c = ⟨if c then .err .walCorruptSegment else .done, [], 0⟩ :=
  readBlocks_stop (readTurn_nil c)

/-- A file of whole blocks is read without complaint. -/
theorem readBlocks_blocks (bs : List (Block cap)) :
    readBlocks cap (blocksBytes bs) false = ⟨.done, blocksEntries bs, 0⟩ := by
  have h := readBlocks_append bs [] false
  rw [List.append_nil] at h
  rw [h, readBlocks_nil, Reading.prepend]
  simp only [List.append_nil, Bool.false_eq_true, if_false]

theorem findBlock_nil (cap : UInt32) : findBlock cap [] = none := by
  rw [findBlock]
  rfl

theorem findBlock_of_resync {r₁ : Bytes} (hr : resyncBlock r = some r₁) :
    findBlock cap r =
      match decodeBlockAfterMagic r₁ cap with
      | (some p, rest) => some (p, rest)
      | (none, rest) => findBlock cap rest := by
  rw [findBlock]
  split
  · next h => rw [hr] at h; cases h
  · next r₂ h =>
    rw [hr] at h
    cases h
    split <;> simp_all

/-- **A block cut short at the end of a file is noted and skipped.** -/
theorem readBlocks_take (b : Block cap) (c : Bool) {k : ℕ} (hpos : 0 < k)
    (hk : k < b.bytes.length) :
    readBlocks cap (b.bytes.take k) c = ⟨.err .walCorruptSegment, [], k⟩ := by
  rw [Block.bytes, length_frameBlock] at hk
  have ht : readTurn cap (b.bytes.take k) c = .stop (.err .walCorruptSegment) [] := by
    simp only [readTurn, Block.bytes, decodeBlock_take b.admitted hpos hk, readResync,
      findBlock_nil]
  rw [readBlocks_stop ht, List.length_take, Block.bytes, length_frameBlock,
    Nat.min_eq_left (by omega)]

/-! ## What a reading can hold -/

theorem eq_of_findBlock {p : Bytes} (h : findBlock cap r = some (p, rest)) :
    ∃ pre, r = pre ++ (frameBlock p ++ rest) ∧ Admits cap p.length := by
  fun_induction findBlock cap r with
  | case1 => cases h
  | case2 r r₁ hr p' r₂ hd =>
    cases h
    obtain ⟨pre, hpre⟩ := eq_append_of_scan (by decide) hr
    obtain ⟨rfl, hadm⟩ := eq_of_decodeBlockAfterMagic hd
    refine ⟨pre, ?_, hadm⟩
    rw [List.nil_append] at hpre
    rw [hpre]
    simp only [frameBlock, List.append_assoc]
  | case3 r r₁ hr r₂ hd ih =>
    obtain ⟨pre, hpre, hadm⟩ := ih h
    obtain ⟨pre₁, hpre₁⟩ := eq_append_of_scan (by decide) hr
    rw [List.nil_append] at hpre₁
    -- what the failed decode leaves is an end of what it was given
    obtain ⟨pre₂, hpre₂⟩ : ∃ pre₂, r₁ = pre₂ ++ r₂ := by
      have hsuf := decodeBlockAfterMagic_suffix r₁ cap
      rw [hd] at hsuf
      obtain ⟨t, ht⟩ := hsuf
      exact ⟨t, ht.symm⟩
    refine ⟨pre₁ ++ (blockMagic ++ (pre₂ ++ pre)), ?_, hadm⟩
    rw [hpre₁, hpre₂, hpre]
    simp only [List.append_assoc]

theorem eq_of_readResync (h : readResync cap r = .again es rest c) :
    ∃ (pre : Bytes) (b : Block cap), r = pre ++ (b.bytes ++ rest) ∧ b.entries = es := by
  unfold readResync at h
  split at h
  · cases h
  · next hf =>
    obtain ⟨pre, rfl, hadm⟩ := eq_of_findBlock hf
    split at h
    · next hdec =>
      cases h
      exact ⟨pre, ⟨_, _, hdec, hadm⟩, rfl, rfl⟩
    · cases h
    · cases h

/-- **A turn reads one block**, somewhere in what it consumes. -/
theorem eq_of_readTurn {c' : Bool} (h : readTurn cap r c = .again es rest c') :
    ∃ (pre : Bytes) (b : Block cap), r = pre ++ (b.bytes ++ rest) ∧ b.entries = es := by
  have hrest : ∀ r₁, (∃ pre₁, r = pre₁ ++ r₁) → readResync cap r₁ = .again es rest c' →
      ∃ (pre : Bytes) (b : Block cap), r = pre ++ (b.bytes ++ rest) ∧ b.entries = es := by
    rintro r₁ ⟨pre₁, rfl⟩ h
    obtain ⟨pre, b, rfl, he⟩ := eq_of_readResync h
    exact ⟨pre₁ ++ pre, b, by rw [List.append_assoc], he⟩
  have hsuf := decodeBlock_suffix r cap
  unfold readTurn at h
  split at h
  · cases h
  · next r₁ hd =>
    rw [hd] at hsuf
    obtain ⟨t, ht⟩ := hsuf
    exact hrest r₁ ⟨t, ht.symm⟩ h
  · next p r₁ hd =>
    rw [hd] at hsuf
    obtain ⟨t, ht⟩ := hsuf
    split at h
    · next hdec =>
      cases h
      obtain ⟨rfl, hadm⟩ := eq_of_decodeBlock hd
      exact ⟨[], ⟨p, _, hdec, hadm⟩, rfl, rfl⟩
    · exact hrest r₁ ⟨t, ht.symm⟩ h
    · cases h

theorem readTurn_stop {o : Outcome} (h : readTurn cap r c = .stop o es) : es = [] := by
  unfold readTurn readResync at h
  repeat' split at h
  all_goals cases h
  all_goals rfl

/-- **An entry is read only where there is room for its block.** -/
theorem recordSize_le_of_readBlocks {e : Entry} (h : e ∈ (readBlocks cap r c).entries) :
    12 + recordSize e ≤ r.length := by
  fun_induction readBlocks cap r c with
  | case1 r c o es hstop =>
    rw [readTurn_stop hstop] at h
    cases h
  | case2 r c es rest c' hagain ih =>
    obtain ⟨pre, b, rfl, rfl⟩ := eq_of_readTurn hagain
    simp only [List.length_append, Block.bytes, length_frameBlock]
    rcases List.mem_append.mp h with h | h
    · have := recordSize_le_of_decodeRecords b.decodes h
      omega
    · have := ih h
      omega

end LSMEngine.Wal
