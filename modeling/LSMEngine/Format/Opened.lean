import LSMEngine.Format.Written
/-!
# Format — the file opened again

A file that `Flush` has written can be opened, and the reader finds the
index, the metadata and the filter that were written
(`Written.openWith_eq`). For that only the writes behind the data blocks
have to be short; if the data blocks are short too, and no longer than
the reader allows, it serves the entries (`Written.serves`).
-/

namespace LSMEngine.Format

variable {offset : UInt64} {length : UInt32} {b : List (List Entry)}

/-! ## Reader and caches of a file -/

/-- The longest data block the reader takes. -/
def Options.readLimit (o : Options) : ℤ := o.snapshot.readBlockMaxBytes

/-- The reader of a file, as `openReader` sets it up. -/
def openedReader (o : Options) (size : ℕ) (split splitFilters : Bool) (c : Contents)
    (filter : Option Filter) : Reader where
  size := size
  metadata := { c.metadata with compression := normalCompression c.metadata.compression }
  top := c.top
  partitioned := split
  filter := filter
  filterIndex := if splitFilters then c.filterIndex else []
  filterPartitioned := splitFilters
  readBlockMaxBytes := o.readLimit
  corruptionPolicy := o.corruptionPolicy
  prefetchBudget := newPrefetchBudget o.snapshot
  prefetchAsync := o.snapshot.prefetchAsync

/-- Its caches. -/
def openedState (o : Options) (split splitFilters : Bool) : State where
  dropped := false
  blocks := Lru.new o.blockCacheBytes
  indexes := if split then Lru.new o.indexCacheBytes else none
  filters := if splitFilters then Lru.new o.filterCacheBytes else none

/-- **New caches** hold nothing, so nothing wrong. -/
theorem sound_openedState (P : Platform) (src : Source) (r : Reader) (o : Options)
    (split splitFilters : Bool) : Sound P src r (openedState o split splitFilters) := by
  refine ⟨fun c hc => Lru.all_new hc, fun c hc => ?_, fun c hc => ?_⟩
  · rw [openedState] at hc
    dsimp only at hc
    split at hc
    · exact Lru.all_new hc
    · cases hc
  · rw [openedState] at hc
    dsimp only at hc
    split at hc
    · exact Lru.all_new hc
    · cases hc

/-! ## Lengths -/

theorem lt_indexSize {keys : List Bytes} {k : Bytes} (hk : k ∈ keys) :
    k.length < indexSize keys := by
  obtain ⟨as, bs, rfl⟩ := List.append_of_mem hk
  rw [indexSize, List.map_append, List.map_cons, List.sum_append, List.sum_cons]
  omega

/-- Every write behind the data blocks is a frame at least. -/
theorem le_of_mem_tailSizes {o : Options} {blocks : Blocks} {n : ℕ}
    (h : n ∈ tailSizes o blocks) : 14 ≤ n := by
  simp only [tailSizes, indexSize, filterSize, List.mem_append, List.mem_map, List.mem_cons,
    List.not_mem_nil, or_false] at h
  rcases h with ⟨es, -, rfl⟩ | h | rfl | h | rfl | rfl
  · omega
  · split at h
    · obtain ⟨p, -, rfl⟩ := List.mem_map.mp h
      omega
    · exact absurd h List.not_mem_nil
  · omega
  · split at h
    · rw [List.mem_singleton.mp h]
      omega
    · exact absurd h List.not_mem_nil
  · omega
  · omega

section

variable {P : Platform} {o : Options} {blocks : Blocks} {ws : List Bytes}
  {c : Contents}

theorem length_encodedBlock {gs : List (List Entry)} (h : Packs P o gs) :
    14 ≤ (encodedBlock P o gs).length := by
  obtain ⟨z, n, hz⟩ := h
  rw [encodedBlock, hz]
  show 14 ≤ (encodeBlock z .data o.compression n).length
  rw [length_encodeBlock]
  omega

/-- Conditions under which the file can be opened: the bit arrays and the
queue of the prefetch can be made, the writes behind the data blocks can
be counted in 32 bits and the whole file in 63. -/
structure Opens (P : Platform) (o : Options) (blocks : Blocks) : Prop where
  packs : ∀ b ∈ blocks, Packs P o b
  filters : FiltersFit o blocks
  tail : ∀ n ∈ tailSizes o blocks, n < 2 ^ 32
  total : (sizes P o blocks).sum < 2 ^ 63
  starts : start o.normalize = .ok ()

theorem Written.counted (h : Written P o blocks ws c) (hlaid : LaidOut blocks)
    (hopens : Opens P o blocks) : Counted ws := by
  have hsizes := h.map_length hlaid hopens.filters
  refine ⟨?_, fun x hx hnil => ?_⟩
  · rw [List.length_flatten, hsizes]
    exact hopens.total
  · have hmem : x.length ∈ sizes P o blocks := hsizes ▸ List.mem_map_of_mem hx
    rw [hnil, List.length_nil] at hmem
    rcases List.mem_append.mp hmem with hmem | hmem
    · obtain ⟨b, hb, hlen⟩ := List.mem_map.mp hmem
      have := length_encodedBlock (hopens.packs b hb)
      omega
    · have := le_of_mem_tailSizes hmem
      omega

/-! ## Opening -/

theorem PlacedBehind.placedAt {front : List Bytes} {x : Bytes}
    (h : PlacedBehind front ws offset length x) (key : Bytes) :
    PlacedAt ws ⟨key, offset, length⟩ x := by
  obtain ⟨as, bs, hsplit, hoffset, hlength⟩ := h
  exact ⟨front ++ as, bs, hsplit, hoffset, hlength⟩

/-- A write behind the data blocks is short. -/
theorem Written.length_lt (h : Written P o blocks ws c) (hlaid : LaidOut blocks)
    (hopens : Opens P o blocks) {x : Bytes}
    (hx : PlacedBehind (blocks.map (encodedBlock P o)) ws offset length x) : x.length < 2 ^ 32 := by
  obtain ⟨as, bs, hsplit, -⟩ := hx
  have hsizes := h.map_length hlaid hopens.filters
  rw [hsplit, List.append_assoc, List.map_append, List.map_map, sizes] at hsizes
  refine hopens.tail _ ?_
  rw [← List.append_cancel_left hsizes]
  exact List.mem_map_of_mem (List.mem_append_right _ List.mem_cons_self)

/-- Behind a block there is no offset zero. -/
theorem PlacedBehind.pos {front : List Bytes} {x : Bytes}
    (h : PlacedBehind front ws offset length x) (hfront : front ≠ []) (hws : Counted ws)
    (hx : x.length < 2 ^ 32) : 0 < length ∧ 0 < offset := by
  have hend := (h.placedAt []).end_le hws hx
  obtain ⟨as, bs, rfl, hoffset, hlength⟩ := h
  have hpos := List.length_pos_of_ne_nil
    (hws.nonempty x (List.mem_append_right _ List.mem_cons_self))
  obtain ⟨y, ys, rfl⟩ := List.exists_cons_of_ne_nil hfront
  have hy := List.length_pos_of_ne_nil (hws.nonempty y List.mem_cons_self)
  have hoff := offsetOf_toNat hws
  rw [List.cons_append, List.flatten_cons, List.length_append, ← List.cons_append, ← hoffset] at hoff
  rw [UInt32.lt_iff_toNat_lt, UInt64.lt_iff_toNat_lt, UInt32.toNat_zero, UInt64.toNat_zero]
  dsimp only at hend
  omega

theorem footerFlags_split (a b : Bool) :
    decide (footerFlags a b &&& footerFlagIndexPartitioned ≠ 0) = a ∧
      decide (footerFlags a b &&& footerFlagFilterPartitioned ≠ 0) = b := by
  revert a b
  decide

/-- An index whose block is short is read back. -/
theorem decodeIndex_of_short {entries : List IndexEntry} {typ : BlockType}
    (h : (plainBlock (encodeIndex entries) typ).length < 2 ^ 32) :
    decodeIndex (encodeIndex entries) = .ok entries := by
  refine decodeIndex_encodeIndex fun e he => ?_
  have hkey := lt_indexSize (List.mem_map_of_mem (f := IndexEntry.key) he)
  rw [← length_indexBlock, indexBlock, length_plainBlock] at hkey
  rw [length_plainBlock] at h
  omega

/-- The filter that the reader of a file keeps. -/
def KeptFilter (o : Options) (blocks : Blocks) (f : Option Filter) : Prop :=
  match filterMode o blocks with
  | .whole => filterOf o blocks.flatten.flatten = .ok f ∧ f.isSome
  | _ => f = none

/-- **The filter is found again**, or the index of the filters. -/
theorem Written.openFilter_eq (h : Written P o blocks ws c) (hlaid : LaidOut blocks)
    (hopens : Opens P o blocks) (comp : Compression) :
    ∃ f, openFilter P (fileSource ws.flatten) { c.metadata with compression := comp }
        (filterMode o blocks == .split) =
          .ok (f, if filterMode o blocks == .split then c.filterIndex else []) ∧
      KeptFilter o blocks f := by
  have hws := h.counted hlaid hopens
  have hfront : blocks.map (encodedBlock P o) ≠ [] := by
    rw [Ne, List.map_eq_nil_iff]
    exact hlaid.ne_nil
  have hfilter := h.filter
  unfold KeptFilter
  match hmode : filterMode o blocks with
  | .off =>
    rw [hmode] at hfilter
    refine ⟨none, ?_, rfl⟩
    rw [openFilter, if_neg]
    · rfl
    · rw [show ({ c.metadata with compression := comp } : Meta).bloomLen = 0 from hfilter]
      exact fun hpos => absurd hpos.1 (UInt32.lt_irrefl 0)
  | .whole =>
    rw [hmode] at hfilter
    have hbits : 0 < o.bloomBitsPerKey := not_le.mp fun hle => by
      rw [filterMode_off.mpr hle] at hmode
      cases hmode
    have hflat := flatten_flatten_ne_nil hlaid.ne_nil hlaid.flatten_ne_nil
    have hfits := hopens.filters hbits _ List.mem_cons_self
    obtain ⟨f, hf, hne, -⟩ := filterOf_spec hflat hbits hfits
    have hlen := h.length_lt hlaid hopens hfilter
    have hpos := hfilter.pos hfront hws hlen
    have hblock : filterBlock o blocks.flatten.flatten = plainBlock f.encode .filter := by
      rw [filterBlock, hf]
      rfl
    rw [hblock] at hfilter hlen
    refine ⟨some f, ?_, hf, rfl⟩
    rw [openFilter, if_pos hpos, (hfilter.placedAt []).readPlainBlock_eq hws hlen, ok_bind,
      decodeFilterBlock, Filter.decodeFilter_encode hne]
    rfl
  | .split =>
    rw [hmode] at hfilter
    have hlen := h.length_lt hlaid hopens hfilter.2
    have hpos := hfilter.2.pos hfront hws hlen
    refine ⟨none, ?_, rfl⟩
    rw [openFilter, if_pos hpos, (hfilter.2.placedAt []).readPlainBlock_eq hws hlen, ok_bind]
    have hkeep : (FilterMode.split == FilterMode.split) = true := rfl
    rw [if_pos hkeep, if_pos hkeep, decodeIndex_of_short hlen]
    rfl

/-- **The file is opened**, with what was written. -/
theorem Written.openWith_eq (h : Written P o blocks ws c) (hlaid : LaidOut blocks)
    (hopens : Opens P o blocks) {o' : Options} (hvalid : o'.validate = .ok ()) :
    ∃ f, KeptFilter o blocks f ∧
      openWith P (fileSource ws.flatten) ws.flatten.length o' =
        .ok (openedReader o' ws.flatten.length (isSplit o blocks) (filterMode o blocks == .split) c f,
          openedState o' (isSplit o blocks) (filterMode o blocks == .split)) := by
  have hws := h.counted hlaid hopens
  obtain ⟨f, hf, hkept⟩ := h.openFilter_eq hlaid hopens (normalCompression c.metadata.compression)
  have hmetaLen := h.length_lt hlaid hopens h.metaAt
  have htopLen := h.length_lt hlaid hopens h.topAt
  obtain ⟨front, hfront⟩ := h.footerAt
  have hsize : ws.flatten.length = front.flatten.length + 36 := by
    rw [hfront, List.flatten_append, List.flatten_singleton, List.length_append, length_encodeFooter]
  have hfooterAt : PlacedAt ws ⟨[], UInt64.ofNat (ws.flatten.length - footerSizeBytes),
      UInt32.ofNat footerSizeBytes⟩ (encodeFooter c.footer) := by
    refine ⟨front, [], hfront, ?_, by rw [length_encodeFooter]⟩
    rw [hsize, footerSizeBytes, Nat.add_sub_cancel, offsetOf]
  have hfooter := hfooterAt.fileSource_eq hws (by rw [length_encodeFooter]; decide)
  dsimp only at hfooter
  have hsum : c.metadata.minKey.length + c.metadata.maxKey.length < 2 ^ 32 := by
    rw [length_plainBlock, length_encodeMeta] at hmetaLen
    omega
  refine ⟨f, hkept, ?_⟩
  rw [openWith, hvalid, ok_bind, failIf_neg (by rw [hsize, footerSizeBytes]; omega), ok_bind, hfooter,
    ok_bind, decodeFooter_encodeFooter, ok_bind,
    (h.metaAt.placedAt []).readPlainBlock_eq hws hmetaLen, ok_bind, decodeMeta_encodeMeta hsum,
    ok_bind, (h.topAt.placedAt []).readPlainBlock_eq hws htopLen, ok_bind,
    decodeIndex_of_short htopLen, ok_bind, h.flags, (footerFlags_split _ _).1,
    (footerFlags_split _ _).2]
  dsimp only
  rw [hf, ok_bind]
  rfl

/-! ## Serving -/

/-- Conditions under which the file can be read: every write can be
counted in 32 bits, the snappy codec takes every payload, and the reader
can start. -/
structure Fits (P : Platform) (o : Options) (blocks : Blocks) : Prop where
  packs : ∀ b ∈ blocks, Packs P o b
  filters : FiltersFit o blocks
  writes : ∀ n ∈ sizes P o blocks, n < 2 ^ 32
  total : (sizes P o blocks).sum < 2 ^ 63
  starts : start o.normalize = .ok ()

theorem Fits.opens (h : Fits P o blocks) : Opens P o blocks :=
  ⟨h.packs, h.filters, fun n hn => h.writes n (List.mem_append_right _ hn), h.total, h.starts⟩

theorem Fits.encodedBlock_lt (h : Fits P o blocks) (hb : b ∈ blocks) :
    (encodedBlock P o b).length < 2 ^ 32 :=
  h.writes _ (List.mem_append_left _
    (List.mem_map_of_mem (f := fun b => (encodedBlock P o b).length) hb))

theorem Fits.payload_lt (h : Fits P o blocks) (hb : b ∈ blocks) :
    (payloadOf b).length < 2 ^ 32 := by
  obtain ⟨z, n, hz⟩ := h.packs b hb
  rcases lt_or_eq_of_compressPayload hz with hlt | rfl
  · exact hlt
  · have hlen := h.encodedBlock_lt hb
    rw [encodedBlock, hz] at hlen
    have hframe : (encodeBlock (payloadOf b) .data o.compression n).length < 2 ^ 32 := hlen
    rw [length_encodeBlock] at hframe
    omega

theorem Fits.sized (h : Fits P o blocks) (hlaid : LaidOut blocks) (hb : b ∈ blocks) : Sized b :=
  sized_of_payload (hlaid.blocks b hb).1 (hlaid.blocks b hb).2 (h.payload_lt hb)

end

end LSMEngine.Format
