import LSMEngine.Common.Lists
import LSMEngine.Format.Cursor
/-!
# Format — what a builder holds

A data block is a list of restart groups: the entries from one restart
point to the next. A builder that holds some groups (`Builder.Holds`)
holds them with one more entry after `Add`, in a new group or at the end
of the last, and what it finishes with decodes to the block of its
groups (`decode_finish`).
-/

namespace LSMEngine.Format

variable {gs : List (List Entry)}

/-! ## Groups -/

/-- The pieces of entries behind a key, each sharing what it can. -/
def piecesFrom : Bytes → List Entry → List (ℕ × Entry)
  | _, [] => []
  | last, e :: es => (commonPrefixLen last e.key, e) :: piecesFrom e.key es

/-- The pieces of a block: the first one of a group shares nothing. -/
def pieces (gs : List (List Entry)) : List (ℕ × Entry) := gs.flatMap (piecesFrom [])

/-- The data of a block. -/
def blockData (gs : List (List Entry)) : Bytes := encodePieces (pieces gs)

/-- The key at the restart point of a group. -/
def firstKey (g : List Entry) : Bytes := ((g.head?).map Entry.key).getD []

/-- Where the groups start. -/
def groupOffsets : ℕ → List (List Entry) → List ℕ
  | _, [] => []
  | start, g :: gs => start :: groupOffsets (start + (blockData [g]).length) gs

/-- The block that holds the groups. -/
def blockOf (gs : List (List Entry)) : Block where
  data := blockData gs
  restarts := (groupOffsets 0 gs).map UInt32.ofNat
  restartKeys := gs.map firstKey

/-- The groups with one more entry, in a group of its own or in the
last. -/
def addToGroups (gs : List (List Entry)) (e : Entry) (restart : Bool) : List (List Entry) :=
  if restart then gs ++ [[e]] else gs.dropLast ++ [gs.getLast?.getD [] ++ [e]]

theorem map_snd_piecesFrom (last : Bytes) (es : List Entry) :
    (piecesFrom last es).map Prod.snd = es := by
  induction es generalizing last with
  | nil => rfl
  | cons e es ih => rw [piecesFrom, List.map_cons, ih]

theorem map_snd_pieces (gs : List (List Entry)) : (pieces gs).map Prod.snd = gs.flatten := by
  induction gs with
  | nil => rfl
  | cons g gs ih =>
    rw [pieces, List.flatMap_cons, ← pieces, List.map_append, ih, map_snd_piecesFrom,
      List.flatten_cons]

theorem linked_piecesFrom (last : Bytes) (es : List Entry) : Linked last (piecesFrom last es) := by
  induction es generalizing last with
  | nil => trivial
  | cons e es ih => exact ⟨commonPrefixLen_le _ _, take_commonPrefixLen _ _, ih e.key⟩

/-- A group is linked behind every key. -/
theorem linked_group (last : Bytes) (g : List Entry) : Linked last (piecesFrom [] g) := by
  cases g with
  | nil => trivial
  | cons e es =>
    rw [piecesFrom, show commonPrefixLen [] e.key = 0 from rfl]
    exact ⟨Nat.zero_le _, by rw [List.take_zero, List.take_zero], linked_piecesFrom _ _⟩

theorem linked_pieces (last : Bytes) (gs : List (List Entry)) : Linked last (pieces gs) := by
  induction gs generalizing last with
  | nil => trivial
  | cons g gs ih => exact (linked_group last g).append ih

theorem pieces_append (gs hs : List (List Entry)) : pieces (gs ++ hs) = pieces gs ++ pieces hs :=
  List.flatMap_append

theorem blockData_append (gs hs : List (List Entry)) :
    blockData (gs ++ hs) = blockData gs ++ blockData hs := by
  rw [blockData, pieces_append, encodePieces_append, ← blockData, ← blockData]

theorem blockData_cons (g : List Entry) (gs : List (List Entry)) :
    blockData (g :: gs) = blockData [g] ++ blockData gs := blockData_append [g] gs

theorem piecesFrom_concat (last : Bytes) (es : List Entry) (e : Entry) :
    piecesFrom last (es ++ [e]) = piecesFrom last es ++
      [(commonPrefixLen ((es.getLast?.map Entry.key).getD last) e.key, e)] := by
  induction es generalizing last with
  | nil => rfl
  | cons d es ih =>
    rw [List.cons_append, piecesFrom, ih, piecesFrom, List.cons_append]
    cases es with
    | nil => rfl
    | cons d' es =>
      rw [List.getLast?_cons_cons]
      simp only [List.getLast?_eq_some_getLast (List.cons_ne_nil d' es), Option.map_some,
        Option.getD_some]

theorem groupOffsets_append (start : ℕ) (gs hs : List (List Entry)) :
    groupOffsets start (gs ++ hs) =
      groupOffsets start gs ++ groupOffsets (start + (blockData gs).length) hs := by
  induction gs generalizing start with
  | nil => rfl
  | cons g gs ih =>
    rw [List.cons_append, groupOffsets, ih, groupOffsets, List.cons_append, blockData_cons g gs,
      List.length_append, Nat.add_assoc]

theorem length_groupOffsets (start : ℕ) (gs : List (List Entry)) :
    (groupOffsets start gs).length = gs.length := by
  induction gs generalizing start with
  | nil => rfl
  | cons g gs ih => rw [groupOffsets, List.length_cons, ih, List.length_cons]

/-! ## Builders -/

/-- The builder holds the groups. -/
structure Builder.Holds (b : Builder) (gs : List (List Entry)) : Prop where
  nonempty : ∀ g ∈ gs, g ≠ []
  buf : b.buf = blockData gs
  restarts : b.restartOffsets = (groupOffsets 0 gs).map UInt32.ofNat
  count : b.entryCount = gs.flatten.length
  first : b.first = ((gs.flatten.find? fun e => e.key ≠ []).map Entry.key).getD []
  last : b.lastKey = (gs.flatten.getLast?.map Entry.key).getD []

theorem holds_newBuilder (r : ℤ) (adaptive : Bool) (lo hi : ℤ) :
    (newBuilder r adaptive lo hi).Holds [] where
  nonempty := fun _ hg => absurd hg List.not_mem_nil
  buf := rfl
  restarts := rfl
  count := rfl
  first := rfl
  last := rfl

theorem holds_reset (b : Builder) : b.reset.Holds [] where
  nonempty := fun _ hg => absurd hg List.not_mem_nil
  buf := rfl
  restarts := rfl
  count := rfl
  first := rfl
  last := rfl

namespace Builder.Holds

variable {b : Builder}

theorem eq_nil_iff (h : b.Holds gs) : gs = [] ↔ b.entryCount = 0 := by
  rw [h.count, List.length_eq_zero_iff]
  constructor
  · rintro rfl
    rfl
  · intro hflat
    rcases gs with - | ⟨g, gs⟩
    · rfl
    · rw [List.flatten_cons, List.append_eq_nil_iff] at hflat
      exact absurd hflat.1 (h.nonempty g List.mem_cons_self)

/-- What the next entry shares. -/
theorem shared_eq (b : Builder) (e : Entry) :
    (b.nextEntrySizing e).shared =
      if (b.nextEntrySizing e).restart then 0 else commonPrefixLen b.lastKey e.key := by
  have hle := commonPrefixLen_le b.lastKey e.key
  unfold nextEntrySizing
  by_cases hr : b.entryCount % b.interval = 0
  · simp [hr]
  · cases hlast : b.lastKey with
    | nil => simp [hr, commonPrefixLen]
    | cons x xs =>
      rw [hlast] at hle
      simp only [hr, decide_false, Bool.not_false, List.length_cons, Nat.zero_lt_succ,
        decide_true, Bool.and_self, if_true, if_neg (not_lt.mpr hle)]
      rfl

theorem unshared_eq (b : Builder) (e : Entry) :
    (b.nextEntrySizing e).unshared = e.key.length - (b.nextEntrySizing e).shared := rfl

/-- An empty builder starts with a restart point. -/
theorem restart_of_nil (h : b.Holds []) (e : Entry) : (b.nextEntrySizing e).restart = true := by
  have hcount : b.entryCount = 0 := h.eq_nil_iff.mp rfl
  simp [nextEntrySizing, hcount]

section

variable (h : b.Holds gs)
include h

theorem flatten_addToGroups (e : Entry) :
    (addToGroups gs e (b.nextEntrySizing e).restart).flatten = gs.flatten ++ [e] := by
  unfold addToGroups
  split
  · rw [List.flatten_append, List.flatten_singleton]
  · next hr =>
    rcases List.eq_nil_or_concat' gs with rfl | ⟨gs', g, rfl⟩
    · exact absurd (h.restart_of_nil e) hr
    · rw [List.dropLast_concat, List.getLast?_concat, Option.getD_some, List.flatten_concat,
        List.flatten_concat, List.append_assoc]

theorem nonempty_addToGroups (e : Entry) (restart : Bool) :
    ∀ g ∈ addToGroups gs e restart, g ≠ [] := by
  intro g hg
  unfold addToGroups at hg
  split at hg
  · rcases List.mem_append.mp hg with hg | hg
    · exact h.nonempty g hg
    · rw [List.mem_singleton.mp hg]
      exact List.cons_ne_nil _ _
  · rcases List.mem_append.mp hg with hg | hg
    · exact h.nonempty g (List.dropLast_subset gs hg)
    · rw [List.mem_singleton.mp hg]
      exact List.append_ne_nil_of_right_ne_nil _ (List.cons_ne_nil _ _)

/-- The pieces of the groups with one more entry. -/
theorem pieces_addToGroups (e : Entry) :
    pieces (addToGroups gs e (b.nextEntrySizing e).restart) =
      pieces gs ++ [((b.nextEntrySizing e).shared, e)] := by
  rw [shared_eq]
  unfold addToGroups
  split
  · exact pieces_append gs [[e]]
  · next hr =>
    rcases List.eq_nil_or_concat' gs with rfl | ⟨gs', g, rfl⟩
    · exact absurd (h.restart_of_nil e) hr
    · have hg : g ≠ [] := h.nonempty g (List.mem_append_right _ (List.mem_singleton_self g))
      have hlast : b.lastKey = ((g.getLast?.map Entry.key).getD []) := by
        rw [h.last, List.flatten_concat, List.getLast?_append_of_ne_nil _ hg]
      rw [List.dropLast_concat, List.getLast?_concat, Option.getD_some, pieces_append,
        pieces_append, List.append_assoc, hlast]
      congr 1
      exact (List.append_nil _).trans ((piecesFrom_concat [] g e).trans
        (congrArg (· ++ _) (List.append_nil _).symm))

theorem groupOffsets_addToGroups (e : Entry) :
    groupOffsets 0 (addToGroups gs e (b.nextEntrySizing e).restart) =
      groupOffsets 0 gs ++
        if (b.nextEntrySizing e).restart then [(blockData gs).length] else [] := by
  unfold addToGroups
  split
  · rw [groupOffsets_append, Nat.zero_add]
    rfl
  · next hr =>
    rcases List.eq_nil_or_concat' gs with rfl | ⟨gs', g, rfl⟩
    · exact absurd (h.restart_of_nil e) hr
    · rw [List.dropLast_concat, groupOffsets_append, groupOffsets_append, List.append_nil]
      rfl

/-- `Add` up to the interval. -/
theorem push (e : Entry) :
    (b.push e).Holds (addToGroups gs e (b.nextEntrySizing e).restart) where
  nonempty := h.nonempty_addToGroups e _
  buf := by
    rw [blockData, h.pieces_addToGroups, encodePieces_append, ← blockData, ← h.buf]
    exact congrArg (b.buf ++ ·) (List.append_nil _).symm
  restarts := by
    rw [h.groupOffsets_addToGroups, List.map_append, ← h.restarts, ← h.buf, Builder.push]
    dsimp only
    split
    · rfl
    · exact (List.append_nil _).symm
  count := by
    rw [h.flatten_addToGroups, List.length_append, ← h.count]
    rfl
  first := by
    have hpush : (b.push e).first = if b.first = [] then e.key else b.first := rfl
    have hfirst := h.first
    rw [h.flatten_addToGroups, List.find?_append, hpush]
    rcases hf : gs.flatten.find? (fun d => decide (d.key ≠ [])) with - | d
    · -- no key so far, so this one comes first if it is not empty
      rw [hf] at hfirst
      rw [if_pos (by rw [hfirst]; rfl), hf, Option.none_or]
      by_cases hk : e.key = []
      · rw [List.find?_cons_of_neg (by simpa using hk), hk]
        rfl
      · rw [List.find?_cons_of_pos (by simpa using hk)]
        rfl
    · have hd : d.key ≠ [] := by simpa using List.find?_some hf
      rw [hf] at hfirst
      rw [if_neg (by rw [hfirst]; exact hd), hf, hfirst]
      rfl
  last := by
    rw [h.flatten_addToGroups, List.getLast?_concat]
    rfl

theorem adaptRestartInterval : b.adaptRestartInterval.Holds gs := by
  unfold Builder.adaptRestartInterval
  split
  · exact ⟨h.nonempty, h.buf, h.restarts, h.count, h.first, h.last⟩
  · exact ⟨h.nonempty, h.buf, h.restarts, h.count, h.first, h.last⟩

/-- **A builder holds what is added to it.** -/
theorem add (e : Entry) : (b.add e).Holds (addToGroups gs e (b.nextEntrySizing e).restart) := by
  unfold Builder.add
  split
  · exact (h.push e).adaptRestartInterval
  · exact h.push e

/-! ## Sizes -/

theorem length_finish (hgs : gs ≠ []) : b.finish.length = b.sizeBytes := by
  have hcount : b.entryCount ≠ 0 := fun h0 => hgs (h.eq_nil_iff.mpr h0)
  have hflat : (b.restartOffsets.flatMap fun off => leBytes 4 off.toNat).length =
      b.restartOffsets.length * 4 := by
    rw [List.length_flatMap]
    simp [length_leBytes]
  rw [Builder.sizeBytes, if_neg hcount, Builder.finish, List.length_append, List.length_append,
    hflat, length_leBytes, Nat.add_assoc]

theorem sizeBytes_pos_iff : 0 < b.sizeBytes ↔ gs ≠ [] := by
  rw [Ne, h.eq_nil_iff, Builder.sizeBytes]
  split
  · next h0 => simp [h0]
  · next h0 =>
    simp only [h0, not_false_eq_true, iff_true, blockCountSize]
    omega

end

theorem sizeBytes_adapt (b : Builder) :
    b.adaptRestartInterval.sizeBytes = b.sizeBytes := by
  unfold Builder.adaptRestartInterval
  split <;> rfl

/-- **The estimate is exact.** -/
theorem sizeBytes_add (b : Builder) (e : Entry) :
    (b.add e).sizeBytes = b.estimatedSizeAfter e := by
  have hpush : (b.push e).sizeBytes = b.estimatedSizeAfter e := by
    have hbuf : (b.push e).buf.length =
        b.buf.length + entryEncodedSize (b.nextEntrySizing e).unshared e.value.length := by
      have hlen : (appendEntry b.buf (b.nextEntrySizing e).shared (b.nextEntrySizing e).unshared
          e).length = _ := List.length_append
      rw [Builder.push, hlen, List.length_append, List.length_append, length_entryHeader,
        List.length_drop, ← unshared_eq, entryEncodedSize, entryHeaderSize]
      omega
    have hrestarts : (b.push e).restartOffsets.length =
        if (b.nextEntrySizing e).restart then b.restartOffsets.length + 1
        else b.restartOffsets.length := by
      unfold Builder.push
      dsimp only
      split
      · rw [List.length_append, List.length_singleton]
      · rfl
    have hcount : (b.push e).entryCount ≠ 0 := Nat.succ_ne_zero b.entryCount
    rw [Builder.sizeBytes, if_neg hcount, hbuf, hrestarts]
    rfl
  unfold Builder.add
  split
  · rw [sizeBytes_adapt, hpush]
  · exact hpush

end Builder.Holds

/-! ## Decoding -/

theorem firstKey_cons (e : Entry) (es : List Entry) : firstKey (e :: es) = e.key := rfl

theorem length_le_blockData (gs : List (List Entry)) :
    (pieces gs).length ≤ (blockData gs).length := by
  rw [blockData]
  induction pieces gs with
  | nil => exact Nat.zero_le _
  | cons p ps ih =>
    rw [encodePieces_cons, List.length_append, List.length_cons, length_encodeEntry]
    omega

theorem blockData_pos {g : List Entry} (hg : g ≠ []) : 0 < (blockData [g]).length := by
  have hlen := length_le_blockData [g]
  have hmap := congrArg List.length (map_snd_pieces [g])
  rw [List.length_map, List.flatten_singleton] at hmap
  have := List.length_pos_of_ne_nil hg
  omega

theorem length_le_of_nonempty (hgs : ∀ g ∈ gs, g ≠ []) : gs.length ≤ (blockData gs).length := by
  induction gs with
  | nil => exact Nat.zero_le _
  | cons g gs ih =>
    have hpos := blockData_pos (hgs g List.mem_cons_self)
    have hle := ih fun g hg => hgs g (List.mem_cons_of_mem _ hg)
    rw [blockData_cons g gs, List.length_append, List.length_cons]
    omega

/-- The offsets lie inside the data, one group after the other. -/
theorem lt_of_mem_groupOffsets {start : ℕ} (hgs : ∀ g ∈ gs, g ≠ []) {off : ℕ}
    (hoff : off ∈ groupOffsets start gs) : off < start + (blockData gs).length := by
  induction gs generalizing start with
  | nil => cases hoff
  | cons g gs ih =>
    have hpos := blockData_pos (hgs g List.mem_cons_self)
    rw [blockData_cons g gs, List.length_append]
    rcases List.mem_cons.mp hoff with rfl | hoff
    · omega
    · have := ih (fun g hg => hgs g (List.mem_cons_of_mem _ hg)) hoff
      omega

theorem readRestarts_eq (pre post : Bytes) {dataLen : ℕ} {offs : List UInt32}
    (h : ∀ off ∈ offs, off.toNat < dataLen % 2 ^ 32) :
    readRestarts (pre ++ (offs.flatMap (fun off => leBytes 4 off.toNat) ++ post)) dataLen
      offs.length pre.length = .ok offs := by
  induction offs generalizing pre with
  | nil => rfl
  | cons off offs ih =>
    have hih := ih (pre ++ leBytes 4 off.toNat)
      fun off' h' => h off' (List.mem_cons_of_mem _ h')
    rw [List.length_append, length_leBytes, List.append_assoc] at hih
    have hoff : uint32At [pre, leBytes 4 off.toNat,
        offs.flatMap (fun off => leBytes 4 off.toNat) ++ post].flatten pre.length = .ok off :=
      uint32At_value (k := 1) rfl (by simp)
    rw [List.flatten_cons, List.flatten_cons, List.flatten_singleton] at hoff
    rw [List.length_cons, readRestarts, List.flatMap_cons, List.append_assoc, hoff, ok_bind,
      failIf_neg (not_le.mpr (h off List.mem_cons_self)), ok_bind, hih]
    rfl

theorem restartKey_eq (pre post : Bytes) {e : Entry} (h : Short e) :
    restartKey (pre ++ (encodeEntry 0 e ++ post)) pre.length = .ok e.key := by
  have hlen := length_encodeEntry 0 e
  have hu := toNat_ofNat_uint32 h.1
  have hv := toNat_ofNat_uint32 h.2
  have hsuffix := sub_suffix pre post 0 e
  obtain ⟨h₀, h₁, h₂, -, -⟩ := fields_entryHeader pre (e.key.drop 0 ++ e.value ++ post) 0
    (e.key.length - 0) e
  rw [← List.append_assoc (entryHeader _ _ _), ← encodeEntry] at h₀ h₁ h₂
  have htotal : (pre ++ (encodeEntry 0 e ++ post)).length =
      pre.length + (21 + e.key.length + e.value.length) + post.length := by
    rw [List.length_append, List.length_append, hlen]
    omega
  rw [restartKey, h₀, h₁, h₂, failIf_neg (by rw [htotal, entryHeaderSize]; omega)]
  simp only [ok_bind, Nat.sub_zero, hu, hv, entryHeaderSize]
  rw [failIf_neg (by simp), failIf_neg (by rw [htotal]; omega)]
  exact hsuffix

theorem readRestartKeys_eq (pre : Bytes) (hgs : ∀ g ∈ gs, g ≠ [])
    (hshort : ∀ e ∈ gs.flatten, Short e) (hlen : pre.length + (blockData gs).length < 2 ^ 32) :
    readRestartKeys (pre ++ blockData gs) ((groupOffsets pre.length gs).map UInt32.ofNat) =
      .ok (gs.map firstKey) := by
  induction gs generalizing pre with
  | nil => rfl
  | cons g gs ih =>
    obtain ⟨e, es, rfl⟩ := List.exists_cons_of_ne_nil (hgs g List.mem_cons_self)
    rw [blockData_cons (e :: es) gs, List.length_append] at hlen
    have hsplit : blockData [e :: es] = encodeEntry 0 e ++ encodePieces (piecesFrom e.key es ++ []) :=
      rfl
    have hkey := restartKey_eq pre (encodePieces (piecesFrom e.key es ++ []) ++ blockData gs)
      (hshort e (List.mem_flatten_of_mem List.mem_cons_self List.mem_cons_self))
    have hih := ih (pre ++ blockData [e :: es])
      (fun g hg => hgs g (List.mem_cons_of_mem _ hg))
      (fun d hd => hshort d (List.mem_append_right _ hd))
      (by rw [List.length_append]; omega)
    rw [List.length_append, List.append_assoc] at hih
    rw [blockData_cons (e :: es) gs, groupOffsets, List.map_cons, readRestartKeys, hih,
      toNat_ofNat_uint32 (by omega), hsplit, List.append_assoc, hkey]
    rfl

section

variable {b : Builder} (h : b.Holds gs)
include h

/-- What `Decode` has left to do when the data is found. -/
theorem decode_eq (hlen : gs.length < 2 ^ 32) :
    decode b.finish = do
      let restarts ← readRestarts b.finish b.buf.length gs.length b.buf.length
      let keys ← readRestartKeys b.buf restarts
      return ⟨b.buf, restarts, keys⟩ := by
  have hn : b.restartOffsets.length = gs.length := by
    rw [h.restarts, List.length_map, length_groupOffsets]
  have hflat : (b.restartOffsets.flatMap fun off => leBytes 4 off.toNat).length = gs.length * 4 := by
    rw [List.length_flatMap, ← hn]
    simp [length_leBytes]
  have hfin : b.finish.length = b.buf.length + (gs.length * 4 + 4) := by
    rw [Builder.finish, List.length_append, List.length_append, hflat, length_leBytes]
  -- the count is the last field, so the offsets and the data are found backwards from it
  have hcount : uint32At b.finish (b.finish.length - 4) = .ok (UInt32.ofNat gs.length) := by
    have hfields : b.finish = [b.buf, b.restartOffsets.flatMap fun off => leBytes 4 off.toNat,
        leBytes 4 b.restartOffsets.length].flatten := by
      simp [Builder.finish]
    rw [hfin, ← hn, hfields]
    refine uint32At_field (k := 2) rfl ?_
    rw [List.take_succ_cons, List.take_succ_cons, List.take_zero, List.flatten_cons,
      List.flatten_singleton, List.length_append, hflat, hn]
    omega
  have hc := toNat_ofNat_uint32 hlen
  have hstart : b.finish.length - 4 - gs.length * 4 = b.buf.length := by omega
  have hdata : sub b.finish 0 b.buf.length = .ok b.buf := sub_head _ rfl
  rw [decode, failIf_neg (by rw [blockCountSize]; omega), ok_bind, blockCountSize, hcount, ok_bind]
  simp only [hc, blockOffsetSize]
  rw [failIf_neg (by omega), ok_bind, hstart, hdata, ok_bind, failIf_neg, ok_bind]
  -- without restart points there are no data
  rintro ⟨h0, hpos⟩
  rw [← UInt32.toNat_inj, hc] at h0
  rw [h.buf, List.length_eq_zero_iff.mp h0] at hpos
  exact Nat.lt_irrefl 0 hpos

/-- **What a builder finishes with decodes to the block of its groups.** -/
theorem decode_finish (hshort : ∀ e ∈ gs.flatten, Short e) (hlen : b.buf.length < 2 ^ 32) :
    decode b.finish = .ok (blockOf gs) := by
  have hgs : gs.length < 2 ^ 32 := by
    have hle := length_le_of_nonempty h.nonempty
    rw [← h.buf] at hle
    omega
  have hrestarts : readRestarts b.finish b.buf.length gs.length b.buf.length =
      .ok b.restartOffsets := by
    -- no offset reaches the end of the data, because no group is empty
    have hmem : ∀ off ∈ b.restartOffsets, off.toNat < b.buf.length % 2 ^ 32 := by
      intro off hoff
      rw [h.restarts] at hoff
      obtain ⟨n, hmem, rfl⟩ := List.mem_map.mp hoff
      have hlt := lt_of_mem_groupOffsets h.nonempty hmem
      rw [← h.buf] at hlt
      rw [toNat_ofNat_uint32 (by omega), Nat.mod_eq_of_lt hlen]
      omega
    have := readRestarts_eq b.buf (leBytes 4 b.restartOffsets.length) hmem
    rwa [← Builder.finish, h.restarts, List.length_map, length_groupOffsets, ← h.restarts] at this
  have hkeys : readRestartKeys b.buf b.restartOffsets = .ok (gs.map firstKey) := by
    have := readRestartKeys_eq [] h.nonempty hshort
      (by rw [← h.buf, List.length_nil]; omega)
    rwa [List.nil_append, List.length_nil, ← h.buf, ← h.restarts] at this
  rw [decode_eq h hgs, hrestarts, ok_bind, hkeys, ok_bind, h.buf, h.restarts]
  rfl

end

end LSMEngine.Format
