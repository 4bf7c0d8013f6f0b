import LSMEngine.Wal.Model.Log
/-!
# WAL — what every call keeps

The calls of a log are made of a few steps: block writes and syncs, which
change the directory, rotations, records that join the open block, and
the file that is let go of. A property these keep is kept by every call,
whatever fails (`Stable`).
-/

namespace LSMEngine.Wal

/-! ## The directory -/

/-- **A directory after some calls**, whatever fails: no file is gone, and
outcomes that are still to come have been to come before. -/
structure Onward (d d' : Disk) : Prop where
  files : d.files.length ≤ d'.files.length
  io : d'.ioFaults <:+ d.ioFaults
  write : d'.writeFaults <:+ d.writeFaults

namespace Onward

theorem refl (d : Disk) : Onward d d := ⟨le_refl _, List.suffix_rfl, List.suffix_rfl⟩

theorem trans {d d' d'' : Disk} (h : Onward d d') (h' : Onward d' d'') : Onward d d'' :=
  ⟨h.files.trans h'.files, h'.io.trans h.io, h'.write.trans h.write⟩

theorem setFiles {d d' : Disk} (h : Onward d d') {fs : List File} {t : ℕ}
    (hfs : d'.files.length ≤ fs.length) : Onward d { d' with files := fs, clock := t } :=
  ⟨h.files.trans hfs, h.io, h.write⟩

variable (d : Disk)

theorem ioFault : Onward d d.ioFault.2 := by
  unfold Disk.ioFault
  split
  · exact refl d
  · next o os hos => exact ⟨le_refl _, hos ▸ List.suffix_cons o os, List.suffix_rfl⟩

theorem writeFault : Onward d d.writeFault.2 := by
  unfold Disk.writeFault
  split
  · exact refl d
  · next o os hos => exact ⟨le_refl _, List.suffix_rfl, hos ▸ List.suffix_cons o os⟩

theorem close : Onward d d.close.2 := by
  have hd := ioFault d
  unfold Disk.close
  split <;> next h => rw [h] at hd; exact hd

theorem rename (old new : String) : Onward d (d.rename old new).2 := by
  have hd := ioFault d
  unfold Disk.rename
  split
  · next h => rw [h] at hd; exact hd
  · next h => rw [h] at hd; exact hd.setFiles (List.length_map _).ge

theorem sync (h : Handle) : Onward d (d.sync h).2 := by
  have hd := ioFault d
  unfold Disk.sync
  split
  · split
    · next h => rw [h] at hd; exact hd.setFiles (List.length_modify _ _ _).ge
    · next h => rw [h] at hd; exact hd
  · exact refl d

theorem writeBlock (h : Handle) (bs : Bytes) : Onward d (d.writeBlock h bs).2 := by
  have hd := writeFault d
  unfold Disk.writeBlock
  split
  · split <;> next h => rw [h] at hd; exact hd.setFiles (List.length_modify _ _ _).ge
  · exact refl d

theorem writeHeader (h : Handle) (bs : Bytes) : Onward d (d.writeHeader h bs).2 := by
  have hd := ioFault d
  unfold Disk.writeHeader
  split <;> next h => rw [h] at hd; exact hd.setFiles (List.length_modify _ _ _).ge

theorem openFile (name : String) (trunc : Bool) : Onward d (d.openFile name trunc).2 := by
  have hd := ioFault d
  unfold Disk.openFile
  split
  · next h => rw [h] at hd; exact hd
  next h =>
  rw [h] at hd
  split
  · split
    · exact hd.setFiles (List.length_modify _ _ _).ge
    · exact hd
  · split
    · exact hd.setFiles (List.length_append ▸ Nat.le_add_right _ _)
    · exact hd

theorem rotate (s : World) : Onward s.disk (rotate s).2.disk := by
  unfold Wal.rotate
  dsimp only
  split
  · exact refl s.disk
  have hclose := close s.disk
  split
  · next h => rw [h] at hclose; exact hclose
  next d₁ h₁ =>
  rw [h₁] at hclose
  have hrename := hclose.trans (rename d₁ s.wal.path
    (segmentName s.wal.path s.wal.segmentID.toNat))
  split
  · next h => rw [h] at hrename; exact hrename
  next d₂ h₂ =>
  rw [h₂] at hrename
  have hopen := hrename.trans (openFile d₂ s.wal.path true)
  split
  · next h => rw [h] at hopen; exact hopen
  next file d₃ h₃ =>
  rw [h₃] at hopen
  have hheader := hopen.trans (writeHeader d₃ ⟨file, true⟩
    (encodeSegmentHeader s.wal.blockSize (s.wal.segmentID + 1) (UInt64.ofNat d₃.clock)))
  split
  · next d₄ h₄ =>
    rw [writeSegmentHeader] at h₄
    rw [h₄] at hheader
    exact hheader.trans (close d₄)
  · next d₄ h₄ =>
    rw [writeSegmentHeader] at h₄
    rw [h₄] at hheader
    exact hheader

end Onward

/-! ## The log -/

/-- A rotation changes the file, its number and its size. -/
theorem rotate_wal (s : World) : ∃ f id size,
    (rotate s).2.wal = { s.wal with f := f, segmentID := id, sizeBytes := size } := by
  unfold rotate
  dsimp only
  repeat' split
  all_goals exact ⟨_, _, _, rfl⟩

/-- **A property that the steps of a log keep.** -/
structure Stable (I : World → Prop) : Prop where
  rotate : ∀ {s}, I s → I (rotate s).2
  disk : ∀ {s d}, I s → Onward s.disk d → I { s with disk := d }
  written : ∀ {s}, I s → I s.written
  push : ∀ {s} (e : Entry), I s → I (s.push e)
  letGo : ∀ {s}, I s → I { s with wal := { s.wal with f := none } }

namespace Stable

variable {I : World → Prop} (hI : Stable I) {s : World}

include hI

theorem flushBlock (h : I s) : I (flushBlock s).2 := by
  unfold Wal.flushBlock
  split
  · exact h
  split
  · exact h
  next hd hf =>
  have hwrite := Onward.writeBlock s.disk hd (encodeBlock s.wal.records)
  split
  · next d hw =>
    rw [hw] at hwrite
    exact hI.disk h hwrite
  · next d hw =>
    rw [hw] at hwrite
    have hwritten := hI.written (hI.disk h hwrite)
    dsimp only
    split
    · exact hI.rotate hwritten
    · exact hwritten

theorem appendLocked (e : Entry) (h : I s) : I (appendLocked e s).2 := by
  have hflush := hI.flushBlock h
  unfold Wal.appendLocked
  split
  · exact h
  split
  · exact h
  split
  · split
    · next hs => rw [hs] at hflush; exact hflush
    · next hs => rw [hs] at hflush; exact hI.push e hflush
  · exact hI.push e h

theorem syncFile (h : I s) : I (syncFile s).2 := by
  unfold Wal.syncFile
  split
  · exact h
  next hd hf =>
  have hsync := Onward.sync s.disk hd
  split <;> next hs => rw [hs] at hsync; exact hI.disk h hsync

theorem flushAndSync (syncNow : Bool) (h : I s) : I (flushAndSync syncNow s).2 := by
  have hflush := hI.flushBlock h
  unfold Wal.flushAndSync
  split
  · next hs => rw [hs] at hflush; exact hflush
  · next hs =>
    rw [hs] at hflush
    split
    · exact hI.syncFile hflush
    · exact hflush

theorem append (e : Entry) (h : I s) : I (append e s).2 := by
  have hlocked := hI.appendLocked e h
  unfold Wal.append
  split
  · next hs => rw [hs] at hlocked; exact hlocked
  · next s' hs =>
    rw [hs] at hlocked
    exact hI.flushAndSync s'.wal.sync hlocked

theorem closeFile (h : I s) : I (closeFile s).2 := by
  have hclose := Onward.close s.disk
  unfold Wal.closeFile
  split
  · exact h
  split
  next hd =>
  rw [hd] at hclose
  exact hI.disk (hI.letGo h) hclose

theorem close (h : I s) : I (close s).2 := by
  have hflush := hI.flushBlock h
  unfold Wal.close
  split
  · exact h
  split
  · next hs => rw [hs] at hflush; exact hflush
  · next hs => rw [hs] at hflush; exact hI.closeFile hflush

theorem appendBatch (es : List Entry) (h : I s) : I (appendBatch es s).2.2 := by
  induction es generalizing s with
  | nil => exact h
  | cons e es ih =>
    have hlocked := hI.appendLocked e h
    unfold Wal.appendBatch
    split
    · next hs => rw [hs] at hlocked; exact ih hlocked
    · next hs =>
      rw [hs] at hlocked
      split
      · exact hlocked
      · exact ih hlocked

theorem processBatch (es : List Entry) (syncNow : Bool) (h : I s) :
    I (processBatch es syncNow s).2.2 := by
  have hbatch := hI.appendBatch es h
  unfold Wal.processBatch
  dsimp only
  split
  · exact hbatch
  · exact hI.flushAndSync syncNow hbatch

theorem finishClose (h : I s) : I (finishClose s).2 :=
  hI.closeFile (hI.flushAndSync s.wal.sync h)

theorem drainAndClose (more queued : List Entry) (h : I s) :
    I (drainAndClose more queued s).2.2 := by
  induction queued generalizing s more with
  | nil =>
    unfold Wal.drainAndClose
    split
    · exact hI.finishClose h
    · have hbatch := hI.processBatch more false h
      dsimp only
      split
      · exact hI.closeFile hbatch
      · exact hI.finishClose hbatch
  | cons req queued ih =>
    unfold Wal.drainAndClose
    split
    · have hbatch := hI.processBatch (more ++ [req]) false h
      dsimp only
      split
      · exact hI.closeFile hbatch
      · exact ih [] hbatch
    · exact ih (more ++ [req]) h

end Stable

/-- What a step of the log leaves as it was: the configuration. -/
structure SameConfig (s s' : World) : Prop where
  sync : s'.wal.sync = s.wal.sync
  maxRecord : s'.wal.maxRecord = s.wal.maxRecord
  blockSize : s'.wal.blockSize = s.wal.blockSize
  async : s'.wal.async = s.wal.async

theorem SameConfig.refl (s : World) : SameConfig s s := ⟨rfl, rfl, rfl, rfl⟩

theorem stable_sameConfig (s₀ : World) : Stable (SameConfig s₀) where
  rotate {s} h := by
    obtain ⟨f, id, size, hw⟩ := rotate_wal s
    constructor <;> rw [hw]
    exacts [h.sync, h.maxRecord, h.blockSize, h.async]
  disk h _ := ⟨h.sync, h.maxRecord, h.blockSize, h.async⟩
  written h := ⟨h.sync, h.maxRecord, h.blockSize, h.async⟩
  push _ h := ⟨h.sync, h.maxRecord, h.blockSize, h.async⟩
  letGo h := ⟨h.sync, h.maxRecord, h.blockSize, h.async⟩

end LSMEngine.Wal
