import LSMEngine.Wal.Replay
/-!
# WAL — repairs

A replay that meets corruption in the active file cuts it behind the last
good block. Everything up to there is read again as it was the first time:
no decision of the reader that led it on to another block has looked at
the bytes behind the last one (`readTurn_strip`). So the repaired file has
the same entries, and a second repair cuts it where it ends
(`repair_lossless`).
-/

namespace LSMEngine.Wal

variable {σ : Type} {cap : UInt32} {w u z p : Bytes} {c c' : Bool} {es : List Entry} {d : Disk}
  {path : String} {fn : Callback σ Entry}

/-! ## What the reader has not looked at -/

theorem readFull_strip {n : ℕ} {x : Bytes} (h : readFull n (w ++ z) = .ok x (u ++ z)) :
    readFull n w = .ok x u := by
  obtain ⟨heq, hx⟩ := readFull_eq_ok h
  rw [← List.append_assoc, List.append_cancel_right_eq] at heq
  rw [heq, readFull_append hx]

theorem readSegmentHeader_strip {hdr : SegmentHeader}
    (h : readSegmentHeader (w ++ z) = .ok (hdr, u ++ z)) : readSegmentHeader w = .ok (hdr, u) := by
  unfold readSegmentHeader at h
  split at h
  · cases h
  · cases h
  · next buf rest hbuf =>
    repeat' split at h
    all_goals try cases h
    rw [readSegmentHeader, readFull_strip hbuf]
    simp_all

theorem length_scan_lt {pat window r rest : Bytes} (h : scan pat window r = some rest) :
    rest.length < r.length := by
  induction r generalizing window with
  | nil => cases h
  | cons b r ih =>
    rw [scan] at h
    split at h
    · rw [Option.some.inj h]
      exact Nat.lt_succ_self _
    · exact Nat.lt_succ_of_lt (ih h)

theorem scan_strip {pat window : Bytes} (h : scan pat window (w ++ z) = some (u ++ z)) :
    scan pat window w = some u := by
  induction w generalizing window with
  | nil =>
    have hlt := length_scan_lt h
    rw [List.nil_append, List.length_append] at hlt
    omega
  | cons b w ih =>
    rw [List.cons_append, scan] at h
    rw [scan]
    split at h
    · next hmatch =>
      rw [if_pos hmatch, List.append_cancel_right (Option.some.inj h)]
    · next hmatch =>
      rw [if_neg hmatch]
      exact ih h

theorem decodeBlockAfterMagic_strip {o : Option Bytes} (hz : z ≠ [])
    (h : decodeBlockAfterMagic (w ++ z) cap = (o, u ++ z)) :
    decodeBlockAfterMagic w cap = (o, u) := by
  have hne : u ++ z ≠ [] := fun hc => hz (List.append_eq_nil_iff.mp hc).2
  unfold decodeBlockAfterMagic at h
  split at h
  · next lenBuf r₁ h₁ =>
    split at h
    · next crcBuf r₂ h₂ =>
      obtain ⟨heq₁, hlen₁⟩ := readFull_eq_ok h₁
      obtain ⟨rfl, hlen₂⟩ := readFull_eq_ok h₂
      split at h
      · next hcap =>
        obtain ⟨rfl, rfl⟩ := Prod.mk.inj h
        have hw : w = lenBuf ++ (crcBuf ++ u) := by
          simpa only [← List.append_assoc, List.append_cancel_right_eq] using heq₁
        rw [hw, decodeBlockAfterMagic, readFull_append hlen₁]
        dsimp only
        rw [readFull_append hlen₂]
        dsimp only
        rw [if_pos hcap]
      · next hcap =>
        split at h
        · next payload r₃ h₃ =>
          obtain ⟨rfl, hlen₃⟩ := readFull_eq_ok h₃
          have hrest : r₃ = u ++ z := by
            split at h
            · exact (Prod.mk.inj h).2
            · exact (Prod.mk.inj h).2
          subst hrest
          have hw : w = lenBuf ++ (crcBuf ++ (payload ++ u)) := by
            simpa only [← List.append_assoc, List.append_cancel_right_eq] using heq₁
          rw [hw, decodeBlockAfterMagic, readFull_append hlen₁]
          dsimp only
          rw [readFull_append hlen₂]
          dsimp only
          rw [if_neg hcap, readFull_append hlen₃]
          dsimp only
          split at h
          · next hcrc => rw [if_pos hcrc, (Prod.mk.inj h).1]
          · next hcrc => rw [if_neg hcrc, (Prod.mk.inj h).1]
        · exact absurd (Prod.mk.inj h).2.symm hne
    · exact absurd (Prod.mk.inj h).2.symm hne
  · exact absurd (Prod.mk.inj h).2.symm hne

theorem decodeBlock_strip (hz : z ≠ []) :
    (decodeBlock (w ++ z) cap = .corrupt (u ++ z) → decodeBlock w cap = .corrupt u) ∧
      (decodeBlock (w ++ z) cap = .payload p (u ++ z) → decodeBlock w cap = .payload p u) := by
  -- the part behind the magic, where the decode has left the bytes at the end
  have hmagic : ∀ {magic r₁ : Bytes} {o : Option Bytes}, readFull 4 (w ++ z) = .ok magic r₁ →
      decodeBlockAfterMagic r₁ cap = (o, u ++ z) →
      ∃ r₂, readFull 4 w = .ok magic r₂ ∧ decodeBlockAfterMagic r₂ cap = (o, u) := by
    intro magic r₁ o h₁ hd
    obtain ⟨t, ht⟩ := decodeBlockAfterMagic_suffix r₁ cap
    rw [hd, ← List.append_assoc] at ht
    subst ht
    exact ⟨t ++ u, readFull_strip h₁, decodeBlockAfterMagic_strip hz hd⟩
  rw [decodeBlock]
  split
  · exact ⟨(fun h => by cases h), fun h => by cases h⟩
  · refine ⟨fun h => ?_, fun h => by cases h⟩
    exact absurd (List.append_eq_nil_iff.mp (Frame.corrupt.inj h).symm).2 hz
  · next magic r₁ h₁ =>
    split
    · next hne =>
      refine ⟨fun h => ?_, fun h => by cases h⟩
      rw [Frame.corrupt.inj h] at h₁
      rw [decodeBlock, readFull_strip h₁]
      exact if_pos hne
    · next heq =>
      split
      · next hd =>
        refine ⟨fun h => ?_, fun h => by cases h⟩
        rw [Frame.corrupt.inj h] at hd
        obtain ⟨r₂, hr₂, hd₂⟩ := hmagic h₁ hd
        rw [decodeBlock, hr₂]
        dsimp only
        rw [if_neg heq, hd₂]
      · next hd =>
        refine ⟨(fun h => by cases h), fun h => ?_⟩
        obtain ⟨rfl, hrest⟩ := Frame.payload.inj h
        rw [hrest] at hd
        obtain ⟨r₂, hr₂, hd₂⟩ := hmagic h₁ hd
        rw [decodeBlock, hr₂]
        dsimp only
        rw [if_neg heq, hd₂]

/-- **A search that finds a block** has not looked behind it. -/
theorem findBlock_strip (hz : z ≠ []) (h : findBlock cap (w ++ z) = some (p, u ++ z)) :
    findBlock cap w = some (p, u) := by
  generalize hr : w ++ z = r at h
  fun_induction findBlock cap r generalizing w with
  | case1 => cases h
  | case2 r r₁ hs p' r₂ hd =>
    obtain ⟨rfl, rfl⟩ := Prod.mk.inj (Option.some.inj h)
    subst hr
    obtain ⟨t, ht⟩ := decodeBlockAfterMagic_suffix r₁ cap
    rw [hd, ← List.append_assoc] at ht
    subst ht
    have hscan : resyncBlock w = some (t ++ u) := scan_strip hs
    rw [findBlock_of_resync hscan, decodeBlockAfterMagic_strip hz hd]
  | case3 r r₁ hs r₂ hd ih =>
    subst hr
    obtain ⟨pre, hpre, -⟩ := eq_of_findBlock h
    rw [← List.append_assoc, ← List.append_assoc] at hpre
    obtain ⟨t, ht⟩ := decodeBlockAfterMagic_suffix r₁ cap
    rw [hd, hpre, ← List.append_assoc] at ht
    subst ht
    rw [hpre] at hd
    have hscan : resyncBlock w = some (t ++ (pre ++ frameBlock p ++ u)) := scan_strip hs
    rw [findBlock_of_resync hscan, decodeBlockAfterMagic_strip hz hd]
    exact ih hpre.symm h

/-- **A turn that leads on to a block** has not looked behind it. -/
theorem readTurn_strip (h : readTurn cap (w ++ z) c = .again es (u ++ z) c') :
    readTurn cap w c = .again es u c' := by
  rcases eq_or_ne z [] with rfl | hz
  · simpa only [List.append_nil] using h
  -- the next block found in the longer file ends before the tail, so it is found without it
  have hresync : ∀ {r}, readResync cap r = .again es (u ++ z) c' →
      ∃ v, r = v ++ z ∧ readResync cap v = .again es u c' := by
    intro r h
    obtain ⟨pre, b, hr, -⟩ := eq_of_readResync h
    rw [← List.append_assoc, ← List.append_assoc] at hr
    refine ⟨pre ++ b.bytes ++ u, hr, ?_⟩
    unfold readResync at h
    split at h
    · cases h
    · next p rest hf =>
      split at h
      · next hp =>
        obtain ⟨rfl, rfl, rfl⟩ := Turn.again.inj h
        rw [hr] at hf
        rw [readResync, findBlock_strip hz hf]
        dsimp only
        rw [hp]
      · cases h
      · cases h
  unfold readTurn at h
  split at h
  · cases h
  · next hd =>
    obtain ⟨v, rfl, hv⟩ := hresync h
    rw [readTurn, (decodeBlock_strip (p := []) hz).1 hd]
    exact hv
  · next p rest hd =>
    split at h
    · next hp =>
      obtain ⟨rfl, rfl, rfl⟩ := Turn.again.inj h
      rw [readTurn, (decodeBlock_strip hz).2 hd]
      dsimp only
      rw [hp]
    · next hp =>
      obtain ⟨v, rfl, hv⟩ := hresync h
      rw [readTurn, (decodeBlock_strip hz).2 hd]
      dsimp only
      rw [hp]
      exact hv
    · cases h

/-! ## The repaired file -/

/-- **Up to the last good block the file reads as before.** -/
theorem readBlocks_strip (cap : UInt32) (r : Bytes) (c : Bool) :
    ∃ (w z : Bytes) (c' : Bool), r = w ++ z ∧ (readBlocks cap r c).left = z.length ∧
      readBlocks cap w c = ⟨if c' then .err .walCorruptSegment else .done,
        (readBlocks cap r c).entries, 0⟩ := by
  fun_induction readBlocks cap r c with
  | case1 r c o es hstop =>
    refine ⟨[], r, c, rfl, rfl, ?_⟩
    rw [readBlocks_nil, readTurn_stop hstop]
  | case2 r c es rest c' hagain ih =>
    obtain ⟨w, z, c'', rfl, hleft, hw⟩ := ih
    obtain ⟨pre, b, hr, -⟩ := eq_of_readTurn hagain
    rw [← List.append_assoc, ← List.append_assoc] at hr
    subst hr
    refine ⟨pre ++ b.bytes ++ w, z, c'', rfl, hleft, ?_⟩
    rw [readBlocks_again (readTurn_strip hagain), hw]
    rfl

/-- **A file cut where its reading says** has the same entries, and is good
to its end. -/
theorem readSegment_cut {bytes : Bytes} (hpos : 0 < (readSegment (some bytes)).left) :
    ∃ c' : Bool, readSegment (some (bytes.take (readSegment (some bytes)).left)) =
      ⟨if c' then .err .walCorruptSegment else .done, (readSegment (some bytes)).entries,
        (readSegment (some bytes)).left⟩ := by
  rcases hh : readSegmentHeader bytes with e | ⟨hdr, r⟩
  · rw [readSegment, hh] at hpos
    exact absurd hpos (Nat.lt_irrefl 0)
  obtain ⟨-, hr, -⟩ := eq_of_readSegmentHeader hh
  obtain ⟨w, z, c', rfl, hleft, hw⟩ := readBlocks_strip hdr.blockSize r false
  obtain ⟨head, rfl⟩ : ∃ head, bytes = (head ++ w) ++ z :=
    ⟨bytes.take 29, by rw [List.append_assoc, hr, List.take_append_drop]⟩
  have hread : readSegment (some (head ++ w ++ z)) =
      ⟨(readBlocks hdr.blockSize (w ++ z) false).outcome,
        (readBlocks hdr.blockSize (w ++ z) false).entries, (head ++ w).length⟩ := by
    have hlength : (head ++ w ++ z).length = (head ++ w).length + z.length := List.length_append
    rw [readSegment, hh]
    dsimp only
    rw [hleft, hlength, Nat.add_sub_cancel]
  refine ⟨c', ?_⟩
  rw [hread, List.take_left, readSegment, readSegmentHeader_strip hh]
  dsimp only
  rw [hw, Nat.sub_zero]

/-! ## The repaired log -/

/-- The files after a truncation. -/
def cut (name : String) (n : ℕ) : List File → List File
  | [] => []
  | f :: fs =>
    if f.name = some name then
      { f with bytes := f.bytes.take n, durable := min f.durable n } :: fs
    else f :: cut name n fs

theorem files_truncate (d : Disk) (name : String) (n : ℕ) :
    d.truncate name n = { d with files := cut name n d.files } := by
  have hcut : ∀ fs : List File, ((fs.findIdx? fun f => f.name = some name).elim fs fun i =>
      fs.modify i fun f => { f with bytes := f.bytes.take n, durable := min f.durable n }) =
        cut name n fs := by
    intro fs
    induction fs with
    | nil => rfl
    | cons f fs ih =>
      rw [List.findIdx?_cons, cut, ← ih]
      by_cases hf : f.name = some name
      · rw [if_pos hf, if_pos (decide_eq_true hf)]
        rfl
      · rw [if_neg hf, if_neg (by simpa using hf)]
        cases List.findIdx? (fun f : File => decide (f.name = some name)) fs <;> rfl
  rw [Disk.truncate, Disk.find, ← hcut]
  cases List.findIdx? (fun f : File => decide (f.name = some name)) d.files <;> rfl

theorem cut_cut (name : String) (n : ℕ) (fs : List File) :
    cut name n (cut name n fs) = cut name n fs := by
  induction fs with
  | nil => rfl
  | cons f fs ih =>
    rw [cut]
    split
    · next hf =>
      rw [cut, if_pos hf, List.take_take, min_self, min_assoc, min_self]
    · next hf => rw [cut, if_neg hf, ih]

theorem truncate_truncate (d : Disk) (name : String) (n : ℕ) :
    (d.truncate name n).truncate name n = d.truncate name n := by
  rw [files_truncate, files_truncate]
  exact congrArg (fun fs => { d with files := fs }) (cut_cut name n d.files)

theorem names_truncate (d : Disk) (name : String) (n : ℕ) :
    (d.truncate name n).names = d.names := by
  have hcut : ∀ fs : List File, (cut name n fs).filterMap File.name = fs.filterMap File.name := by
    intro fs
    induction fs with
    | nil => rfl
    | cons f fs ih =>
      rw [cut]
      split
      · rw [List.filterMap_cons, List.filterMap_cons]
      · rw [List.filterMap_cons, List.filterMap_cons, ih]
  rw [files_truncate]
  exact hcut d.files

/-- **A truncation changes one file.** -/
theorem content_truncate (d : Disk) (name name' : String) (n : ℕ) :
    (d.truncate name n).content name' =
      if name' = name then (d.content name).map (List.take n) else d.content name' := by
  rw [files_truncate, Disk.content, Disk.content, Disk.content]
  dsimp only
  induction d.files with
  | nil => simp [cut]
  | cons f fs ih =>
    rw [cut]
    by_cases hf : f.name = some name
    · rw [if_pos hf]
      by_cases hname : name' = name
      · simp [hf, hname]
      · simp [hf, hname, Ne.symm hname]
    · rw [if_neg hf, List.find?_cons, List.find?_cons, List.find?_cons]
      by_cases hf' : f.name = some name'
      · have hname : name' ≠ name := fun hc => hf (hc ▸ hf')
        simp [hf', hname]
      · simpa [hf, hf'] using ih

theorem replayRotated_congr {d' : Disk} {segs : List String}
    (h : ∀ seg ∈ segs, d'.content seg = d.content seg) (c : Bool) (st : σ) :
    replayRotated decodeRecords fn d' segs c st = replayRotated decodeRecords fn d segs c st := by
  induction segs generalizing c st with
  | nil => rfl
  | cons seg segs ih =>
    have ih := ih fun seg' hseg' => h seg' (List.mem_cons_of_mem _ hseg')
    rw [replayRotated, replayRotated, h seg List.mem_cons_self]
    simp only [ih]

/-- The rotated segments are not the active file. -/
theorem ne_of_mem_listSegments {seg : String} (h : seg ∈ (listSegments d path).1) : seg ≠ path := by
  obtain ⟨n, -, rfl⟩ := List.mem_map.mp h
  intro hc
  have hlen := congrArg String.length hc
  rw [segmentName, String.length_append, String.length_append] at hlen
  have hdot : ".".length = 1 := rfl
  omega

/-- What a replay that has repaired the log had found. -/
theorem repaired_of_ne (hfn : Accepting fn) {st : σ} (h : (replay fn path true d st).2.2 ≠ d) :
    ∃ st' c bytes, replayRotated decodeRecords fn d (listSegments d path).1 false st =
        (.done, st', c) ∧
      d.content path = some bytes ∧ 0 < (readSegment (some bytes)).left ∧
      (replay fn path true d st).2 = (feed fn (readSegment (some bytes)).entries st',
        d.truncate path (readSegment (some bytes)).left) := by
  obtain ⟨o, st', c, hrot⟩ : ∃ o st' c, replayRotated decodeRecords fn d
      (listSegments d path).1 false st = (o, st', c) := ⟨_, _, _, rfl⟩
  rw [replay, replayWith, hrot] at h ⊢
  cases o with
  | err e => exact absurd rfl h
  | panic => exact absurd rfl h
  | done =>
    dsimp only at h ⊢
    rw [replaySegment_eq hfn] at h ⊢
    rcases hcontent : d.content path with _ | bytes
    · rw [hcontent] at h
      exact absurd rfl h
    rw [hcontent] at h
    cases ho : (readSegment (some bytes)).outcome with
    | done => exact absurd (by rw [ho]) h
    | panic => exact absurd (by rw [ho]) h
    | err e =>
      cases e with
      | walCorruptSegment =>
        rw [ho] at h
        by_cases hpos : 0 < (readSegment (some bytes)).left
        · exact ⟨st', c, bytes, rfl, rfl, hpos, by dsimp only; rw [if_pos ⟨rfl, hpos⟩]⟩
        · exact absurd (if_neg fun hc => hpos hc.2) h
      | _ => exact absurd (by rw [ho]) h

/-- **A repair loses nothing, and leaves nothing to repair.** With a
callback that never fails, a replay of the repaired log delivers what the
first one did, and leaves the log as it is; and the active file is cut
behind what was read of it. -/
theorem repair_lossless (hfn : Accepting fn) (path : String) (d : Disk) (st : σ) :
    let once := replay fn path true d st
    (replay fn path true once.2.2 st).2 = once.2 ∧
      ∀ bytes, d.content path = some bytes → ∃ n, once.2.2.content path = some (bytes.take n) ∧
        (readSegment (some (bytes.take n))).entries = (readSegment (some bytes)).entries := by
  intro once
  by_cases hd : once.2.2 = d
  · rw [hd]
    refine ⟨Prod.ext rfl rfl, fun bytes hcontent => ⟨bytes.length, ?_, ?_⟩⟩
    · rw [hcontent, List.take_length]
    · rw [List.take_length]
  obtain ⟨st', c, bytes, hrot, hcontent, hpos, honce⟩ := repaired_of_ne hfn hd
  obtain ⟨c', hcut⟩ := readSegment_cut hpos
  have hactive : (d.truncate path (readSegment (some bytes)).left).content path =
      some (bytes.take (readSegment (some bytes)).left) := by
    rw [content_truncate, if_pos rfl, hcontent, Option.map_some]
  rw [show once.2 = _ from honce]
  refine ⟨?_, fun bytes' hcontent' => ?_⟩
  · have hsegs : listSegments (d.truncate path (readSegment (some bytes)).left) path =
        listSegments d path := by rw [listSegments, names_truncate, ← listSegments]
    have hrot' : replayRotated decodeRecords fn (d.truncate path (readSegment (some bytes)).left)
        (listSegments d path).1 false st = (.done, st', c) := by
      refine (replayRotated_congr (fun seg hseg => ?_) false st).trans hrot
      rw [content_truncate, if_neg (ne_of_mem_listSegments hseg)]
    rw [replay, replayWith, hsegs, hrot']
    dsimp only
    rw [replaySegment_eq hfn, hactive, hcut]
    cases c' with
    | false => rfl
    | true => exact Prod.ext rfl ((if_pos ⟨rfl, hpos⟩).trans (truncate_truncate d path _))
  · obtain rfl := Option.some.inj (hcontent'.symm.trans hcontent)
    exact ⟨_, hactive, by rw [hcut]⟩

/-- A directory with one segment: bytes of garbage, a block of a tombstone
and the start of another block. -/
def tornDisk : Disk where
  files := [⟨some "wal", encodeSegmentHeader 0 1 0 ++
    ([0, 0, 0, 0] ++ encodeBlock [newRecordBufferOwned ⟨[1], [], true, 7⟩] ++ blockMagic), 0⟩]
  writeFaults := []
  ioFaults := []
  clock := 0

/-- The start of the block is cut off, and the garbage stays. -/
theorem repair_lossless_torn :
    (replay collect "wal" true tornDisk []).2.2.content "wal" = some (encodeSegmentHeader 0 1 0 ++
        ([0, 0, 0, 0] ++ encodeBlock [newRecordBufferOwned ⟨[1], [], true, 7⟩])) ∧
      (replay collect "wal" true (replay collect "wal" true tornDisk []).2.2 []).2 =
        (replay collect "wal" true tornDisk []).2 :=
  ⟨by decide +kernel, (repair_lossless accepting_collect "wal" tornDisk []).1⟩

end LSMEngine.Wal
