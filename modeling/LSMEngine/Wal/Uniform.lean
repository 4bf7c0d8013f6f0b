import LSMEngine.Wal.Bounds
/-!
# WAL — one class for all corruption

A block whose checksum is right and whose records do not decode is passed
over like any other corrupt block, if the reader comes to it where a block
may stand. If it has been found by a search, the error of its records ends
the replay: it is neither of the two errors that a caller knows, and the
blocks behind it are not delivered (`second_bad_block_ends_replay`).

`uniformBlocks` is the reader that passes over both. The replay of a log
reads as it does, and ends with one of the two errors or none, exactly if
no file lets its reader come upon such a block (`replay_uniform_iff`).
-/

namespace LSMEngine.Wal

variable {σ : Type} {cap : UInt32} {r rest rest' p : Bytes} {c c' : Bool} {es : List Entry}
  {d : Disk} {path : String} {fn : Callback σ Entry}

/-! ## The uniform reader -/

/-- The next block with the right checksum whose records decode. -/
def findRecords (cap : UInt32) (r : Bytes) : Option (List Entry × Bytes) :=
  match _hf : findBlock cap r with
  | none => none
  | some (p, rest) =>
    match decodeRecords p with
    | .ok es => some (es, rest)
    | _ => findRecords cap rest
termination_by r.length
decreasing_by exact length_findBlock_lt _hf

theorem findRecords_none (hf : findBlock cap r = none) : findRecords cap r = none := by
  rw [findRecords]
  split <;> simp_all

theorem findRecords_ok (hf : findBlock cap r = some (p, rest)) (hp : decodeRecords p = .ok es) :
    findRecords cap r = some (es, rest) := by
  rw [findRecords]
  split <;> simp_all

theorem findRecords_bad (hf : findBlock cap r = some (p, rest))
    (hp : ∀ es, decodeRecords p ≠ .ok es) : findRecords cap r = findRecords cap rest := by
  rw [findRecords]
  split
  · next h => cases hf.symm.trans h
  · next h =>
    cases hf.symm.trans h
    split
    · next h => exact absurd h (hp _)
    · rfl

theorem length_findRecords_lt (h : findRecords cap r = some (es, rest)) :
    rest.length < r.length := by
  fun_induction findRecords cap r with
  | case1 => cases h
  | case2 r p rest' hf es' hp =>
    cases h
    exact length_findBlock_lt hf
  | case3 r p rest' hf hp ih => exact Nat.lt_trans (ih h) (length_findBlock_lt hf)

/-- The search of the uniform reader. -/
def uniformResync (cap : UInt32) (r : Bytes) : Turn (List Entry) :=
  match findRecords cap r with
  | none => .stop (.err .walCorruptSegment) []
  | some (es, rest) => .again es rest true

/-- One turn of its loop. -/
def uniformTurn (cap : UInt32) (r : Bytes) (corrupt : Bool) : Turn (List Entry) :=
  match decodeBlock r cap with
  | .eof => .stop (if corrupt then .err .walCorruptSegment else .done) []
  | .corrupt rest => uniformResync cap rest
  | .payload p rest =>
    match decodeRecords p with
    | .ok es => .again es rest corrupt
    | _ => uniformResync cap rest

theorem length_uniformTurn_lt (h : uniformTurn cap r c = .again es rest c') :
    rest.length < r.length := by
  have hlt := @length_decodeBlock_lt r cap
  have hresync : ∀ {r'}, r'.length < r.length → uniformResync cap r' = .again es rest c' →
      rest.length < r.length := by
    intro r' hr' h
    unfold uniformResync at h
    split at h
    · cases h
    · next hf =>
      cases h
      exact Nat.lt_trans (length_findRecords_lt hf) hr'
  unfold uniformTurn at h
  split at h
  · cases h
  · next hd =>
    rw [hd] at hlt
    exact hresync (hlt nofun) h
  · next hd =>
    rw [hd] at hlt
    split at h
    · cases h
      exact hlt nofun
    · exact hresync (hlt nofun) h

/-- It stops at the end of the file, and nowhere else. -/
theorem uniformTurn_stop {o : Outcome} (h : uniformTurn cap r c = .stop o es) : o.Passed := by
  have hresync : ∀ {r'}, uniformResync cap r' = .stop o es → o.Passed := by
    intro r' h
    unfold uniformResync at h
    split at h
    · cases h
      exact Or.inr rfl
    · cases h
  unfold uniformTurn at h
  split at h
  · cases h
    cases c
    · exact Or.inl rfl
    · exact Or.inr rfl
  · exact hresync h
  · split at h
    · cases h
    · exact hresync h

/-- **The uniform reader** of what is left of a file. -/
def uniformBlocks (cap : UInt32) (r : Bytes) (corrupt : Bool) : Outcome × List Entry :=
  match _h : uniformTurn cap r corrupt with
  | .stop o es => (o, es)
  | .again es rest corrupt =>
    ((uniformBlocks cap rest corrupt).1, es ++ (uniformBlocks cap rest corrupt).2)
termination_by r.length
decreasing_by all_goals exact length_uniformTurn_lt _h

theorem uniformBlocks_stop {o : Outcome} (h : uniformTurn cap r c = .stop o es) :
    uniformBlocks cap r c = (o, es) := by
  rw [uniformBlocks]
  split <;> simp_all

theorem uniformBlocks_again (h : uniformTurn cap r c = .again es rest c') :
    uniformBlocks cap r c = ((uniformBlocks cap rest c').1, es ++ (uniformBlocks cap rest c').2) := by
  rw [uniformBlocks]
  split <;> simp_all

/-- Of a file. -/
def uniformSegment (content : Option Bytes) : Outcome × List Entry :=
  match content with
  | none => (.done, [])
  | some bytes =>
    match readSegmentHeader bytes with
    | .error _ => (.err .walCorruptSegment, [])
    | .ok (hdr, r) => uniformBlocks hdr.blockSize r false

/-- What the uniform reader delivers of a log. -/
def uniformEntries (d : Disk) (path : String) : List Entry :=
  (logFiles d path).flatMap fun seg => (uniformSegment (d.content seg)).2

/-- A block is found where it stands. -/
theorem findBlock_frame (hp : Admits cap p.length) (r : Bytes) :
    findBlock cap (frameBlock p ++ r) = some (p, r) := by
  have hsplit : frameBlock p ++ r = blockMagic ++
      (leBytes 4 p.length ++ (leBytes 4 (crc32 p).toNat ++ (p ++ r))) := by
    simp only [frameBlock, List.append_assoc]
  have hscan : resyncBlock (frameBlock p ++ r) =
      some (leBytes 4 p.length ++ (leBytes 4 (crc32 p).toNat ++ (p ++ r))) := by
    rw [hsplit]
    rfl
  rw [findBlock_of_resync hscan, decodeBlockAfterMagic_append hp]

/-- **It passes over a bad block**, and reads on with the one behind it. -/
theorem uniformBlocks_bad (hp : Admits cap p.length) (hbad : ∀ es, decodeRecords p ≠ .ok es)
    (b : Block cap) (r : Bytes) (c : Bool) :
    uniformBlocks cap (frameBlock p ++ (b.bytes ++ r)) c =
      ((uniformBlocks cap r true).1, b.entries ++ (uniformBlocks cap r true).2) := by
  refine uniformBlocks_again ?_
  have hfind : findRecords cap (b.bytes ++ r) = some (b.entries, r) :=
    findRecords_ok (findBlock_frame b.admitted r) b.decodes
  rw [uniformTurn, decodeBlock_append hp]
  dsimp only
  split
  · next h => exact absurd h (hbad _)
  · rw [uniformResync, hfind]

/-! ## Where the replay gives up -/

/-- The reader has to look for a block, from what is left. -/
def Searches (cap : UInt32) (r rest : Bytes) : Prop :=
  decodeBlock r cap = .corrupt rest ∨
    ∃ p, decodeBlock r cap = .payload p rest ∧ decodeRecords p = .corrupt

/-- **The reader comes upon a block that ends the replay**: one that it has
looked for and whose records do not decode, or any whose records panic. -/
inductive Stumbles (cap : UInt32) : Bytes → Prop
  | panics {r rest p : Bytes} (h : decodeBlock r cap = .payload p rest)
      (hp : decodeRecords p = .panic) : Stumbles cap r
  | found {r rest rest' p : Bytes} (h : Searches cap r rest)
      (hf : findBlock cap rest = some (p, rest')) (hp : ∀ es, decodeRecords p ≠ .ok es) :
      Stumbles cap r
  | block {r rest p : Bytes} {es : List Entry} (h : decodeBlock r cap = .payload p rest)
      (hp : decodeRecords p = .ok es) (hrest : Stumbles cap rest) : Stumbles cap r
  | behind {r rest rest' p : Bytes} {es : List Entry} (h : Searches cap r rest)
      (hf : findBlock cap rest = some (p, rest')) (hp : decodeRecords p = .ok es)
      (hrest : Stumbles cap rest') : Stumbles cap r

/-- In a file. -/
def SegmentStumbles (content : Option Bytes) : Prop :=
  ∃ bytes hdr r, content = some bytes ∧ readSegmentHeader bytes = .ok (hdr, r) ∧
    Stumbles hdr.blockSize r

theorem Searches.readTurn (h : Searches cap r rest) :
    readTurn cap r c = readResync cap rest := by
  rcases h with hd | ⟨p, hd, hp⟩
  · rw [Wal.readTurn, hd]
  · rw [Wal.readTurn, hd]
    dsimp only
    rw [hp]

theorem readTurn_payload (h : decodeBlock r cap = .payload p rest) (hp : decodeRecords p = .ok es) :
    readTurn cap r c = .again es rest c := by
  rw [readTurn, h]
  dsimp only
  rw [hp]

theorem readResync_found (hf : findBlock cap rest = some (p, rest'))
    (hp : decodeRecords p = .ok es) : readResync cap rest = .again es rest' true := by
  rw [readResync, hf]
  dsimp only
  rw [hp]

/-- **A file in which the reader stumbles is not passed.** -/
theorem Stumbles.not_passed (h : Stumbles cap r) :
    (readBlocks cap r c).outcome = .err .walCorrupt ∨ (readBlocks cap r c).outcome = .panic := by
  induction h generalizing c with
  | @panics r rest p h hp =>
    have hturn : readTurn cap r c = .stop .panic [] := by
      rw [readTurn, h]
      dsimp only
      rw [hp]
    rw [readBlocks_stop hturn]
    exact Or.inr rfl
  | @found r rest rest' p h hf hp =>
    have hturn : readTurn cap r c = .stop (.err .walCorrupt) [] ∨
        readTurn cap r c = .stop .panic [] := by
      rw [h.readTurn, readResync, hf]
      dsimp only
      cases hd : decodeRecords p with
      | ok es => exact absurd hd (hp es)
      | corrupt => exact Or.inl rfl
      | panic => exact Or.inr rfl
    refine hturn.imp (fun hturn => ?_) fun hturn => ?_
    · rw [readBlocks_stop hturn]
    · rw [readBlocks_stop hturn]
  | block h hp _ ih =>
    rw [readBlocks_again (readTurn_payload h hp)]
    exact ih
  | behind h hf hp _ ih =>
    rw [readBlocks_again (h.readTurn.trans (readResync_found hf hp))]
    exact ih

/-- A turn that does not stumble is one of the uniform reader. -/
theorem uniformTurn_eq (h : ¬Stumbles cap r) : uniformTurn cap r c = readTurn cap r c := by
  have hresync : ∀ {rest}, Searches cap r rest → uniformResync cap rest = readResync cap rest := by
    intro rest hs
    rw [uniformResync, readResync]
    rcases hf : findBlock cap rest with _ | ⟨p, rest'⟩
    · rw [findRecords_none hf]
    · rcases hp : decodeRecords p with es | _ | _
      · rw [findRecords_ok hf hp]
        dsimp only
        rw [hp]
      · exact absurd (.found hs hf (by simp [hp])) h
      · exact absurd (.found hs hf (by simp [hp])) h
  rw [uniformTurn, readTurn]
  rcases hd : decodeBlock r cap with _ | rest | ⟨p, rest⟩
  · rfl
  · exact hresync (Or.inl hd)
  · dsimp only
    rcases hp : decodeRecords p with es | _ | _
    · rfl
    · exact hresync (Or.inr ⟨p, hd, hp⟩)
    · exact absurd (.panics hd hp) h

/-- What a turn leaves is part of the file: who stumbles in it stumbles in
the file. -/
theorem Stumbles.of_again (hturn : readTurn cap r c = .again es rest c')
    (hrest : Stumbles cap rest) : Stumbles cap r := by
  have hresync : ∀ {r'}, Searches cap r r' → readResync cap r' = .again es rest c' →
      Stumbles cap r := by
    intro r' hs h
    unfold readResync at h
    split at h
    · cases h
    · next p rest' hf =>
      split at h
      · next hp =>
        cases h
        exact .behind hs hf hp hrest
      · cases h
      · cases h
  unfold readTurn at hturn
  split at hturn
  · cases hturn
  · next hd => exact hresync (Or.inl hd) hturn
  · next p _ hd =>
    split at hturn
    · next hp =>
      cases hturn
      exact .block hd hp hrest
    · next hp => exact hresync (Or.inr ⟨p, hd, hp⟩) hturn
    · cases hturn

/-- **A file in which the reader does not stumble** is read as by the
uniform reader. -/
theorem readBlocks_uniform (h : ¬Stumbles cap r) :
    ((readBlocks cap r c).outcome, (readBlocks cap r c).entries) = uniformBlocks cap r c ∧
      (readBlocks cap r c).outcome.Passed := by
  fun_induction readBlocks cap r c with
  | case1 r c o es hturn =>
    have hu : uniformTurn cap r c = readTurn cap r c := uniformTurn_eq h
    rw [hturn] at hu
    exact ⟨(uniformBlocks_stop hu).symm, uniformTurn_stop hu⟩
  | case2 r c es rest c' hturn ih =>
    have hu : uniformTurn cap r c = readTurn cap r c := uniformTurn_eq h
    rw [hturn] at hu
    obtain ⟨heq, hpassed⟩ := ih fun hrest => h (.of_again hturn hrest)
    rw [uniformBlocks_again hu, ← heq]
    exact ⟨rfl, hpassed⟩

/-! ## Logs -/

/-- **Of a file.** It is passed, as the uniform reader reads it, exactly if
the reader does not stumble. -/
theorem readSegment_uniform {content : Option Bytes} (h : ¬SegmentStumbles content) :
    ((readSegment content).outcome, (readSegment content).entries) = uniformSegment content ∧
      (readSegment content).outcome.Passed := by
  rcases content with _ | bytes
  · exact ⟨rfl, Or.inl rfl⟩
  rw [readSegment, uniformSegment]
  rcases hh : readSegmentHeader bytes with e | ⟨hdr, r⟩
  · exact ⟨rfl, Or.inr rfl⟩
  · exact readBlocks_uniform fun hs => h ⟨bytes, hdr, r, rfl, hh, hs⟩

theorem SegmentStumbles.not_passed {content : Option Bytes} (h : SegmentStumbles content) :
    (readSegment content).outcome = .err .walCorrupt ∨ (readSegment content).outcome = .panic := by
  obtain ⟨bytes, hdr, r, rfl, hh, hs⟩ := h
  rw [readSegment, hh]
  exact hs.not_passed

/-- A result that a caller of the replay knows. -/
def Classified (o : Outcome) : Prop :=
  o = .done ∨ o = .err .walMissingSegment ∨ o = .err .walCorruptSegment

theorem classified_replayEnd (missing corrupt : Bool) : Classified (replayEnd missing corrupt) := by
  cases missing
  · cases corrupt
    · exact Or.inl rfl
    · exact Or.inr (Or.inr rfl)
  · exact Or.inr (Or.inl rfl)

theorem not_classified {o : Outcome} (h : o = .err .walCorrupt ∨ o = .panic) : ¬Classified o := by
  rcases h with rfl | rfl
  · rintro (h | h | h) <;> cases h
  · rintro (h | h | h) <;> cases h

/-- **Rotated segments in which no reader stumbles** are read one after the
other. -/
theorem replayRotated_uniform (hfn : Accepting fn) {segs : List String}
    (h : ∀ seg ∈ segs, ¬SegmentStumbles (d.content seg)) (c : Bool) (st : σ) :
    ∃ c', replayRotated decodeRecords fn d segs c st =
      (.done, feed fn (segs.flatMap fun seg => (uniformSegment (d.content seg)).2) st, c') := by
  induction segs generalizing c st with
  | nil => exact ⟨c, rfl⟩
  | cons seg segs ih =>
    have ih := ih fun seg' hseg' => h seg' (List.mem_cons_of_mem _ hseg')
    obtain ⟨heq, hpassed⟩ := readSegment_uniform (h seg List.mem_cons_self)
    have hseg := replaySegment_eq hfn (d.content seg) st
    rw [replayRotated, hseg, List.flatMap_cons, feed_append, ← heq]
    rcases hpassed with ho | ho
    · rw [ho]
      exact ih c _
    · rw [ho]
      exact ih true _

theorem replayRotated_stumbles (hfn : Accepting fn) {segs : List String}
    (h : ∃ seg ∈ segs, SegmentStumbles (d.content seg)) (c : Bool) (st : σ) :
    (replayRotated decodeRecords fn d segs c st).1 = .err .walCorrupt ∨
      (replayRotated decodeRecords fn d segs c st).1 = .panic := by
  induction segs generalizing c st with
  | nil =>
    obtain ⟨seg, hseg, -⟩ := h
    cases hseg
  | cons seg segs ih =>
    rw [replayRotated, replaySegment_eq hfn]
    by_cases hs : SegmentStumbles (d.content seg)
    · rcases hs.not_passed with ho | ho
      · rw [ho]
        exact Or.inl rfl
      · rw [ho]
        exact Or.inr rfl
    · have hrest : ∃ seg ∈ segs, SegmentStumbles (d.content seg) := by
        obtain ⟨seg', hmem, hs'⟩ := h
        rcases List.mem_cons.mp hmem with rfl | hmem
        · exact absurd hs' hs
        · exact ⟨seg', hmem, hs'⟩
      rcases (readSegment_uniform hs).2 with ho | ho
      · rw [ho]
        exact ih hrest c _
      · rw [ho]
        exact ih hrest true _

/-- The first file in which the reader stumbles ends the replay. -/
theorem not_classified_of_stumbles (hfn : Accepting fn) (repair : Bool) (st : σ)
    (h : ∃ seg ∈ logFiles d path, SegmentStumbles (d.content seg)) :
    ¬Classified (replay fn path repair d st).1 := by
  refine not_classified ?_
  rw [replay, replayWith]
  by_cases hrot : ∃ seg ∈ (listSegments d path).1, SegmentStumbles (d.content seg)
  · have ho := replayRotated_stumbles hfn hrot false st
    generalize replayRotated decodeRecords fn d (listSegments d path).1 false st = rd at ho
    obtain ⟨o, st', c⟩ := rd
    rcases ho with rfl | rfl
    · exact Or.inl rfl
    · exact Or.inr rfl
  · have hactive : SegmentStumbles (d.content path) := by
      obtain ⟨seg, hmem, hs⟩ := h
      rcases List.mem_append.mp hmem with hmem | hmem
      · exact absurd ⟨seg, hmem, hs⟩ hrot
      · exact List.mem_singleton.mp hmem ▸ hs
    obtain ⟨c, heq⟩ := replayRotated_uniform hfn
      (fun seg hseg hs => hrot ⟨seg, hseg, hs⟩) false st
    rw [heq]
    dsimp only
    rw [replaySegment_eq hfn]
    rcases hactive.not_passed with ho | ho
    · rw [ho]
      exact Or.inl rfl
    · rw [ho]
      exact Or.inr rfl

/-- **Replay classifies corruption uniformly, unless a reader stumbles.**
`ReplayViews` does as `Replay` does. With a callback that never fails, a
replay ends in one of the classified ways and delivers what the uniform
reader reads, exactly if no reader of a file stumbles. The uniform reader
passes over a block whose records do not decode, where it comes to it and
where it has looked for it, and reads the blocks behind it. -/
theorem replay_uniform_iff (path : String) (repair : Bool) (d : Disk) :
    (∀ (σ : Type) (fn : Callback σ EntryView) (st : σ), replayViews fn path repair d st =
      replay (fun st e => fn st e.view) path repair d st) ∧
    (∀ (σ : Type) (fn : Callback σ Entry) (st : σ), Accepting fn →
      (Classified (replay fn path repair d st).1 ∧
          (replay fn path repair d st).2.1 = feed fn (uniformEntries d path) st ↔
        ∀ seg ∈ logFiles d path, ¬SegmentStumbles (d.content seg))) ∧
    ∀ (cap : UInt32) (p : Bytes), Admits cap p.length → (∀ es, decodeRecords p ≠ .ok es) →
      (∀ (b : Block cap) (r : Bytes) (c : Bool),
        uniformBlocks cap (frameBlock p ++ (b.bytes ++ r)) c =
          ((uniformBlocks cap r true).1, b.entries ++ (uniformBlocks cap r true).2)) ∧
      ∀ r, findRecords cap (frameBlock p ++ r) = findRecords cap r := by
  refine ⟨fun σ fn st => replayViews_eq fn path repair d st, fun σ fn st hfn => ⟨?_, fun h => ?_⟩,
    fun cap p hp hbad => ⟨fun b r c => uniformBlocks_bad hp hbad b r c,
      fun r => findRecords_bad (findBlock_frame hp r) hbad⟩⟩
  · rintro ⟨hclass, -⟩ seg hmem hs
    exact not_classified_of_stumbles hfn repair st ⟨seg, hmem, hs⟩ hclass
  · have hactive : ¬SegmentStumbles (d.content path) := h path (by simp [logFiles])
    obtain ⟨c, hrot⟩ := replayRotated_uniform hfn
      (fun seg hseg => h seg (List.mem_append_left _ hseg)) false st
    obtain ⟨heq, hpassed⟩ := readSegment_uniform hactive
    have hentries : uniformEntries d path = ((listSegments d path).1.flatMap fun seg =>
        (uniformSegment (d.content seg)).2) ++ (readSegment (d.content path)).entries := by
      rw [uniformEntries, logFiles, List.flatMap_append, List.flatMap_singleton, ← heq]
    rw [replay, replayWith, hrot]
    dsimp only
    rw [replaySegment_eq hfn, hentries, feed_append]
    rcases hpassed with ho | ho
    · rw [ho]
      exact ⟨classified_replayEnd _ _, rfl⟩
    · rw [ho]
      exact ⟨classified_replayEnd _ _, rfl⟩

/-- A directory with one segment: two blocks whose payload is one byte, too
short for a record, and a block of a tombstone, all with the right
checksums. -/
def badBlocksDisk : Disk where
  files := [⟨some "wal", encodeSegmentHeader 0 1 0 ++
    (frameBlock [0] ++ (frameBlock [0] ++ encodeBlock [newRecordBufferOwned ⟨[1], [], true, 7⟩])), 0⟩]
  writeFaults := []
  ioFaults := []
  clock := 0

/-- **The second bad block ends the replay**, with an error that is not
classified, and the entry behind it is not delivered; the uniform reader
has it. -/
theorem second_bad_block_ends_replay :
    replay collect "wal" false badBlocksDisk [] = (.err .walCorrupt, [], badBlocksDisk) ∧
      uniformEntries badBlocksDisk "wal" = [⟨[1], [], true, 7⟩] := by
  decide +kernel

end LSMEngine.Wal
