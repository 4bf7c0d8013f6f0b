import LSMEngine.Wal.Model.Log
/-!
# WAL — replay

`Replay` and `ReplayViews`: the rotated segments in numeric order, then
the active file. The two differ in how a record of a payload is built,
so both are one family over the payload decoder.

A block that does not decode sends the reader on to the next block
magic, from wherever the failed decode has left it. A block found that
way whose payload is not a list of records ends the replay: `applyPayload`'s
error is returned as it is, where the main loop would have looked for
another block.
-/

namespace LSMEngine.Wal

/-- How a call of the replay ends. -/
inductive Outcome
  | done
  | err (e : Err)
  | panic
  deriving DecidableEq, Repr

/-- The callback of a replay, over the state it closes over. -/
abbrev Callback (σ α : Type) := σ → α → Option Err × σ

variable {σ α : Type}

/-- The loop over the entries of a block: the first error ends it. -/
def deliver (fn : Callback σ α) : List α → σ → Outcome × σ
  | [], st => (.done, st)
  | a :: as, st =>
    match fn st a with
    | (some e, st) => (.err e, st)
    | (none, st) => deliver fn as st

/-- `applyPayload`. -/
def applyPayload (decode : Bytes → Records α) (fn : Callback σ α) (payload : Bytes) (st : σ) :
    Outcome × σ :=
  match decode payload with
  | .ok entries => deliver fn entries st
  | .corrupt => (.err .walCorrupt, st)
  | .panic => (.panic, st)

/-! ## Decoding consumes -/

/-- What a decode leaves is an end of the stream. -/
theorem decodeBlockAfterMagic_suffix (r : Bytes) (maxPayload : UInt32) :
    (decodeBlockAfterMagic r maxPayload).2 <:+ r := by
  unfold decodeBlockAfterMagic
  split
  · next h₁ =>
    obtain ⟨rfl, -⟩ := readFull_eq_ok h₁
    split
    · next h₂ =>
      obtain ⟨rfl, -⟩ := readFull_eq_ok h₂
      split
      · exact (List.suffix_append _ _).trans (List.suffix_append _ _)
      · split
        · next h₃ =>
          obtain ⟨rfl, -⟩ := readFull_eq_ok h₃
          split <;> exact ((List.suffix_append _ _).trans (List.suffix_append _ _)).trans
            (List.suffix_append _ _)
        · exact List.nil_suffix
    · exact List.nil_suffix
  · exact List.nil_suffix

theorem length_decodeBlockAfterMagic_le (r : Bytes) (maxPayload : UInt32) :
    (decodeBlockAfterMagic r maxPayload).2.length ≤ r.length :=
  (decodeBlockAfterMagic_suffix r maxPayload).length_le

/-- What `DecodeBlock` leaves of the stream. -/
def Frame.rest : Frame → Bytes
  | .eof => []
  | .corrupt rest => rest
  | .payload _ rest => rest

theorem decodeBlock_suffix (r : Bytes) (maxPayload : UInt32) :
    (decodeBlock r maxPayload).rest <:+ r := by
  unfold decodeBlock
  split
  · exact List.nil_suffix
  · exact List.nil_suffix
  · next magic r₁ h₁ =>
    obtain ⟨rfl, -⟩ := readFull_eq_ok h₁
    have hsuf := decodeBlockAfterMagic_suffix r₁ maxPayload
    split
    · exact List.suffix_append _ _
    · split <;> next hd => rw [hd] at hsuf; exact List.IsSuffix.trans hsuf (List.suffix_append _ _)

theorem length_decodeBlock_lt {r : Bytes} {maxPayload : UInt32}
    (h : decodeBlock r maxPayload ≠ .eof) :
    (decodeBlock r maxPayload).rest.length < r.length := by
  unfold decodeBlock at h ⊢
  split at h
  · exact absurd rfl h
  · next hr =>
    refine List.length_pos_iff.mpr ?_
    rintro rfl
    simp [readFull] at hr
  · next magic r₁ hr =>
    obtain ⟨rfl, hm⟩ := readFull_eq_ok hr
    have hle := length_decodeBlockAfterMagic_le r₁ maxPayload
    rw [List.length_append, hm]
    split
    · exact Nat.lt_add_of_pos_left (by decide)
    · split <;> next hd => rw [hd] at hle; exact Nat.lt_of_le_of_lt hle (by omega)

/-! ## Segments -/

/-- The search of `replayFromResync`: the payload of the next block that
decodes, and what is left behind it. -/
def findBlock (blockSize : UInt32) (r : Bytes) : Option (Bytes × Bytes) :=
  match _hr : resyncBlock r with
  | none => none
  | some r₁ =>
    match _hd : decodeBlockAfterMagic r₁ blockSize with
    | (some p, r₂) => some (p, r₂)
    | (none, r₂) => findBlock blockSize r₂
termination_by r.length
decreasing_by
  have h₁ : r₁.length + 4 ≤ r.length := length_add_le_of_scan (by decide) _hr
  have h₂ : r₂.length ≤ r₁.length := by
    simpa only [_hd] using length_decodeBlockAfterMagic_le r₁ blockSize
  omega

theorem length_findBlock_lt {blockSize : UInt32} {r p rest : Bytes}
    (h : findBlock blockSize r = some (p, rest)) : rest.length < r.length := by
  fun_induction findBlock blockSize r with
  | case1 => cases h
  | case2 r r₁ hr p' r₂ hd =>
    have h₁ : r₁.length + 4 ≤ r.length := length_add_le_of_scan (by decide) hr
    have h₂ : r₂.length ≤ r₁.length := by
      simpa only [hd] using length_decodeBlockAfterMagic_le r₁ blockSize
    cases h
    omega
  | case3 r r₁ hr r₂ hd ih =>
    have h₁ : r₁.length + 4 ≤ r.length := length_add_le_of_scan (by decide) hr
    have h₂ : r₂.length ≤ r₁.length := by
      simpa only [hd] using length_decodeBlockAfterMagic_le r₁ blockSize
    have h₃ := ih h
    omega

/-- One turn of `replaySegment`'s loop: it ends, or goes on with what is
left of the file. -/
inductive Turn (σ : Type)
  | stop (o : Outcome) (st : σ)
  | again (st : σ) (rest : Bytes) (corrupt : Bool)
  deriving DecidableEq, Repr

/-- `replayFromResync`, and what the loop makes of its answer. -/
def replayFromResync (decode : Bytes → Records α) (fn : Callback σ α) (blockSize : UInt32)
    (r : Bytes) (st : σ) : Turn σ :=
  match findBlock blockSize r with
  | none => .stop (.err .walCorruptSegment) st
  | some (p, rest) =>
    match applyPayload decode fn p st with
    | (.done, st) => .again st rest true
    | (o, st) => .stop o st

/-- The body of the loop. -/
def replayTurn (decode : Bytes → Records α) (fn : Callback σ α) (blockSize : UInt32)
    (r : Bytes) (corrupt : Bool) (st : σ) : Turn σ :=
  match decodeBlock r blockSize with
  | .eof => .stop (if corrupt then .err .walCorruptSegment else .done) st
  | .corrupt rest => replayFromResync decode fn blockSize rest st
  | .payload p rest =>
    match applyPayload decode fn p st with
    | (.done, st) => .again st rest corrupt
    | (.err .walCorrupt, st) => replayFromResync decode fn blockSize rest st
    | (o, st) => .stop o st

theorem length_replayFromResync_lt {decode : Bytes → Records α} {fn : Callback σ α}
    {blockSize : UInt32} {r rest : Bytes} {st st' : σ} {c : Bool}
    (h : replayFromResync decode fn blockSize r st = .again st' rest c) :
    rest.length < r.length := by
  unfold replayFromResync at h
  split at h
  · cases h
  · next hf =>
    split at h
    · cases h
      exact length_findBlock_lt hf
    · cases h

/-- A turn that goes on has consumed something. -/
theorem length_replayTurn_lt {decode : Bytes → Records α} {fn : Callback σ α}
    {blockSize : UInt32} {r rest : Bytes} {st st' : σ} {c c' : Bool}
    (h : replayTurn decode fn blockSize r c st = .again st' rest c') :
    rest.length < r.length := by
  have hlt := @length_decodeBlock_lt r blockSize
  unfold replayTurn at h
  split at h
  · cases h
  · next hd =>
    rw [hd] at hlt
    exact Nat.lt_trans (length_replayFromResync_lt h) (hlt (by simp))
  · next hd =>
    rw [hd] at hlt
    split at h
    · cases h
      exact hlt (by simp)
    · exact Nat.lt_trans (length_replayFromResync_lt h) (hlt (by simp))
    · cases h

/-- The loop of `replaySegment` on what is left of the file; `lastGood`
is what was left when the offset was last taken. -/
def replayBlocks (decode : Bytes → Records α) (fn : Callback σ α) (blockSize : UInt32)
    (r : Bytes) (corrupt : Bool) (lastGood : ℕ) (st : σ) : Outcome × σ × ℕ :=
  match _h : replayTurn decode fn blockSize r corrupt st with
  | .stop o st => (o, st, lastGood)
  | .again st rest corrupt => replayBlocks decode fn blockSize rest corrupt rest.length st
termination_by r.length
decreasing_by exact length_replayTurn_lt _h

/-- `replaySegment`: how it ends, the callback's state and the offset
behind the last good block. A file that is not there is empty. -/
def replaySegment (decode : Bytes → Records α) (fn : Callback σ α) (content : Option Bytes)
    (st : σ) : Outcome × σ × ℕ :=
  match content with
  | none => (.done, st, 0)
  | some bytes =>
    match readSegmentHeader bytes with
    | .error _ => (.err .walCorruptSegment, st, 0)
    | .ok (hdr, r) =>
      let o := replayBlocks decode fn hdr.blockSize r false r.length st
      (o.1, o.2.1, bytes.length - o.2.2)

/-! ## The log -/

/-- The loop of `Replay` over the rotated segments: a corrupt one is
noted, any other error ends it. -/
def replayRotated (decode : Bytes → Records α) (fn : Callback σ α) (d : Disk) :
    List String → Bool → σ → Outcome × σ × Bool
  | [], corrupt, st => (.done, st, corrupt)
  | seg :: segs, corrupt, st =>
    match replaySegment decode fn (d.content seg) st with
    | (.done, st, _) => replayRotated decode fn d segs corrupt st
    | (.err .walCorruptSegment, st, _) => replayRotated decode fn d segs true st
    | (o, st, _) => (o, st, corrupt)

/-- The verdict at the end of `Replay`. -/
def replayEnd (missing corrupt : Bool) : Outcome :=
  if missing then .err .walMissingSegment
  else if corrupt then .err .walCorruptSegment else .done

/-- The body `Replay` and `ReplayViews` share. -/
def replayWith (decode : Bytes → Records α) (fn : Callback σ α) (path : String)
    (repairOnReplay : Bool) (d : Disk) (st : σ) : Outcome × σ × Disk :=
  let segs := listSegments d path
  match replayRotated decode fn d segs.1 false st with
  | (.done, st, corrupt) =>
    match replaySegment decode fn (d.content path) st with
    | (.done, st, _) => (replayEnd segs.2 corrupt, st, d)
    | (.err .walCorruptSegment, st, lastGood) =>
      (replayEnd segs.2 true, st,
        if repairOnReplay ∧ 0 < lastGood then d.truncate path lastGood else d)
    | (o, st, _) => (o, st, d)
  | (o, st, _) => (o, st, d)

/-- `WAL.Replay`. -/
def replay (fn : Callback σ Entry) : String → Bool → Disk → σ → Outcome × σ × Disk :=
  replayWith decodeRecords fn

/-- `WAL.ReplayViews`. -/
def replayViews (fn : Callback σ EntryView) : String → Bool → Disk → σ → Outcome × σ × Disk :=
  replayWith decodeRecordViews fn

end LSMEngine.Wal
