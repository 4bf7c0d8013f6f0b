import LSMEngine.Format.Lookup
import LSMEngine.Format.Opened
/-!
# Format — what is written is found

The reader over a file that fits serves its entries
(`Written.serves`). So a lookup in a table that was just flushed, after
any lookups before it, comes to what the route of the key leads to.
-/

namespace LSMEngine.Format

section

variable {P : Platform} {o o' : Options} {blocks : Blocks} {ws : List Bytes}
  {c : Contents}

/-- The reader of the file that was written. -/
abbrev readerOf (o o' : Options) (blocks : Blocks) (ws : List Bytes) (c : Contents)
    (f : Option Filter) : Reader :=
  openedReader o' ws.flatten.length (isSplit o blocks) (filterMode o blocks == .split) c f

/-- The data blocks are no longer than the reader allows. -/
def Readable (P : Platform) (o : Options) (limit : ℤ) (blocks : Blocks) : Prop :=
  0 < limit → ∀ b ∈ blocks, ((encodedBlock P o b).length : ℤ) ≤ limit

/-! ## The index -/

/-- An entry inside the file whose block is short enough is accepted. -/
theorem validateEntry_ok {r : Reader} {e : IndexEntry} (hne : e.length ≠ 0)
    (hlimit : 0 < r.readBlockMaxBytes → (e.length.toNat : ℤ) ≤ r.readBlockMaxBytes)
    (hend : e.offset.toNat + e.length.toNat ≤ r.size) (hsize : r.size < 2 ^ 63) (errBad : Fault) :
    r.validateEntry e errBad = .ok () := by
  have hlong : ¬ (0 < r.readBlockMaxBytes ∧ r.readBlockMaxBytes < e.length.toNat) := by
    intro hlt
    have := hlimit hlt.1
    omega
  have hout : ¬ (0 < r.size ∧ (r.size : ℤ) < int64 ((e.offset.toNat : ℤ) + e.length.toNat)) := by
    rw [← Nat.cast_add, int64_of_lt (hend.trans_lt hsize)]
    omega
  rw [Reader.validateEntry, if_neg hne, if_neg hlong, if_neg hout]

section

variable (h : Written P o blocks ws c) (hlaid : LaidOut blocks) (hfits : Fits P o blocks)
include h hlaid hfits

/-- **The index leads to the data blocks.** -/
theorem Written.blocksAt (hread : Readable P o o'.readLimit blocks) (f : Option Filter) :
    List.Forall₂ (BlockAt P (fileSource ws.flatten) (readerOf o o' blocks ws c f)) c.index blocks := by
  have hws := h.counted hlaid hfits.opens
  refine forall₂_imp_mem h.index fun e _ b hb hx => ?_
  obtain ⟨hkey, hplaced⟩ := hx
  change PlacedAt ws e (encodedBlock P o b) at hplaced
  have hlen := hfits.encodedBlock_lt hb
  have hend := hplaced.end_le hws hlen
  have hpos := length_encodedBlock (hfits.packs b hb)
  refine ⟨hkey, ?_, hplaced.readDataBlock_eq hws (hfits.packs b hb) (hfits.sized hlaid hb)
    (hfits.payload_lt hb) hlen⟩
  have hne : e.length ≠ 0 := fun h0 => by
    rw [h0, UInt32.toNat_zero] at hend
    omega
  refine validateEntry_ok hne (fun hlimit => ?_) hend.2 hws.total _
  rw [hend.1]
  exact hread hlimit b hb

/-- The partitions of the index can be read. -/
theorem Written.indexParts (hsplit : isSplit o blocks = true) :
    List.Forall₂ (fun e part => e.key = headKey part ∧
        readIndexBlock P (fileSource ws.flatten) e = .ok part)
      c.top (chunks o.indexPartitionEntries.toNat c.index) := by
  have hws := h.counted hlaid hfits.opens
  have htop := h.top
  rw [if_pos hsplit] at htop
  have hchunks := forall₂_chunks h.index o.indexPartitionEntries.toNat
  rw [show chunks o.indexPartitionEntries.toNat blocks = partsOf o blocks from
    (if_pos hsplit).symm] at hchunks
  refine forall₂_imp_mem htop fun e _ part hpart hx => ⟨hx.1, ?_⟩
  obtain ⟨p, hp, hblocks⟩ := exists_of_forall₂_left hchunks hpart
  have hlen : (indexBlock part).length < 2 ^ 32 := by
    refine hfits.writes _ (List.mem_append_right _ (List.mem_append_right _ (List.mem_append_left _ ?_)))
    rw [if_pos hsplit, length_indexBlock, map_key_eq blockKey hblocks fun _ _ hb => hb.1]
    exact List.mem_map_of_mem (f := fun p => indexSize (p.map blockKey)) hp
  rw [readIndexBlock, PlacedAt.readPlainBlock_eq hx.2 hws hlen, ok_bind, decodeIndex_of_short hlen]

/-- **The data blocks a reader can come to** are those of the index. -/
theorem Written.dataEntry_iff (f : Option Filter) {d : IndexEntry} :
    DataEntry P (fileSource ws.flatten) (readerOf o o' blocks ws c f) d ↔ d ∈ c.index := by
  unfold DataEntry
  split
  · next hsplit =>
    have hparts := h.indexParts hlaid hfits hsplit
    have hflat := flatten_chunks (isSplit_pos hsplit) c.index
    constructor
    · rintro ⟨t, ht, part, hread, hd⟩
      obtain ⟨part', hpart, -, hread'⟩ := exists_of_forall₂_left hparts ht
      obtain rfl := Except.ok.inj (hread'.symm.trans hread)
      rw [← hflat]
      exact List.mem_flatten_of_mem hpart hd
    · intro hd
      rw [← hflat] at hd
      obtain ⟨part, hpart, hdpart⟩ := List.mem_flatten.mp hd
      obtain ⟨t, ht, hread⟩ := exists_of_forall₂_left hparts.flip hpart
      exact ⟨t, ht, part, hread.2, hdpart⟩
  · next hsplit =>
    change ¬ isSplit o blocks = true at hsplit
    have htop := h.top
    rw [if_neg hsplit] at htop
    show d ∈ c.top ↔ d ∈ c.index
    rw [htop]

/-- An entry at the top and the partition it leads to. -/
theorem Written.partsAt (hread : Readable P o o'.readLimit blocks) (f : Option Filter)
    (hsplit : isSplit o blocks = true) :
    List.Forall₂ (PartAt P (fileSource ws.flatten) (readerOf o o' blocks ws c f))
      c.top (partsOf o blocks) := by
  have hchunks := forall₂_chunks (h.blocksAt hlaid hfits hread f) o.indexPartitionEntries.toNat
  rw [show chunks o.indexPartitionEntries.toNat blocks = partsOf o blocks from
    (if_pos hsplit).symm] at hchunks
  refine forall₂_imp_mem (forall₂_comp (h.indexParts hlaid hfits hsplit) hchunks)
    fun e _ p hp hx => ?_
  obtain ⟨part, hpart, ⟨hkey, hindex⟩, hblocks⟩ := hx
  refine ⟨?_, part, hindex, hblocks⟩
  rw [hkey, headKey_eq, map_key_eq blockKey hblocks fun _ _ hb => hb.key]
  exact partKey_eq (hlaid.part_ne_nil hp) fun b => hlaid.block_ne_nil hp

end

/-! ## The filters -/

theorem readFilterBlock_eq {e : IndexEntry} {es : List Entry} {g : Filter} (hws : Counted ws)
    (hplaced : PlacedAt ws e (filterBlock o es)) (hlen : (filterBlock o es).length < 2 ^ 32)
    (hg : filterOf o es = .ok (some g)) (hne : g.bits ≠ []) :
    readFilterBlock P (fileSource ws.flatten) e = .ok g := by
  have hblock : filterBlock o es = plainBlock g.encode .filter := by
    rw [filterBlock, hg]
    rfl
  rw [hblock] at hplaced hlen
  rw [readFilterBlock, hplaced.readPlainBlock_eq hws hlen, ok_bind, decodeFilterBlock,
    Filter.decodeFilter_encode hne]

theorem filterSize_mem {es : List Entry} (h : es ∈ filtered o blocks) :
    filterSize o es.length ∈ sizes P o blocks := by
  rw [sizes, tailSizes]
  exact List.mem_append_right _ (List.mem_append_left _ (List.mem_map.mpr ⟨es, h, rfl⟩))

theorem bits_pos_of_mode {mode : FilterMode} (hmode : filterMode o blocks = mode) (hne : mode ≠ .off) :
    0 < o.bloomBitsPerKey :=
  not_le.mp fun hle => hne (hmode ▸ filterMode_off.mpr hle)

/-- **The filters cover the partitions**, or the whole table. -/
theorem Written.filtersAt (h : Written P o blocks ws c) (hlaid : LaidOut blocks)
    (hfits : Fits P o blocks) {f : Option Filter} (hf : KeptFilter o blocks f) :
    if filterMode o blocks == .split then
      List.Forall₂ (FilterAt P (fileSource ws.flatten)) c.filterIndex (partsOf o blocks)
    else ∀ g ∈ f, Covers g blocks.flatten.flatten := by
  have hws := h.counted hlaid hfits.opens
  have hfilter := h.filter
  unfold KeptFilter at hf
  match hmode : filterMode o blocks with
  | .off =>
    rw [hmode] at hf
    obtain rfl : f = none := hf
    exact fun g hg => nomatch hg
  | .whole =>
    rw [hmode] at hf
    have hbits := bits_pos_of_mode hmode (by decide)
    obtain ⟨g, hg, -, -, hcovers⟩ := filterOf_spec
      (flatten_flatten_ne_nil hlaid.ne_nil hlaid.flatten_ne_nil) hbits
      (hfits.filters hbits _ List.mem_cons_self)
    intro g' hg'
    obtain rfl := Except.ok.inj (hf.1.symm.trans hg)
    obtain rfl := Option.some.inj hg'
    exact hcovers
  | .split =>
    rw [hmode] at hfilter
    have hbits := bits_pos_of_mode hmode (by decide)
    refine forall₂_imp_mem hfilter.1 fun e _ p hp hx => ⟨hx.1, ?_⟩
    have hmem : p.flatten.flatten ∈ filtered o blocks := by
      rw [filtered, hmode]
      exact List.mem_map_of_mem (f := fun p => p.flatten.flatten) hp
    have hes := hlaid.filtered_ne_nil hmem
    have hfit := hfits.filters hbits _ (List.mem_cons_of_mem _ hmem)
    obtain ⟨g, hg, hne, -, hcovers⟩ := filterOf_spec hes hbits hfit
    refine ⟨g, readFilterBlock_eq hws hx.2 ?_ hg hne, hcovers⟩
    rw [length_filterBlock hes hbits hfit]
    exact hfits.writes _ (filterSize_mem hmem)

/-! ## The table -/

/-- The entries an index of the file lists are writes of it. -/
theorem Lists.coherent {α : Type} {key store : α → Bytes} {index : List IndexEntry} {items : List α}
    (h : Lists key store ⟨ws, index⟩ items) (hws : Counted ws) :
    ∀ e ∈ index, ∀ e' ∈ index, e.offset = e'.offset → e.length = e'.length := by
  intro e he e' he' hoffset
  obtain ⟨x, -, hx⟩ := exists_of_forall₂_left h he
  obtain ⟨x', -, hx'⟩ := exists_of_forall₂_left h he'
  exact hx.2.unique hx'.2 hws hoffset

/-- **Coherence.** The entries name the writes of the file, so no offset
has two lengths. -/
theorem Written.coherent (h : Written P o blocks ws c) (hlaid : LaidOut blocks)
    (hfits : Fits P o blocks) (f : Option Filter) :
    Coherent P (fileSource ws.flatten) (readerOf o o' blocks ws c f) := by
  have hws := h.counted hlaid hfits.opens
  have hindex := h.index.coherent hws
  have htop := h.top
  refine ⟨fun e e' he he' => ?_, ?_, ?_⟩
  · rw [h.dataEntry_iff hlaid hfits] at he he'
    exact hindex e he e' he'
  · show ∀ e ∈ c.top, ∀ e' ∈ c.top, _
    split at htop
    · exact htop.coherent hws
    · exact htop ▸ hindex
  · show ∀ e ∈ (if filterMode o blocks == .split then c.filterIndex else []),
      ∀ e' ∈ (if filterMode o blocks == .split then c.filterIndex else []),
        e.offset = e'.offset → e.length = e'.length
    split
    · next hmode =>
      have hfilter := h.filter
      rw [beq_iff_eq.mp hmode] at hfilter
      exact hfilter.1.coherent hws
    · exact fun e he => absurd he List.not_mem_nil

/-- The keys of sorted entries lie between the first and the last. -/
theorem key_bounds {entries : List Entry} (h : entries.Pairwise fun a b => a.key ≤ b.key) {e : Entry}
    (he : e ∈ entries) :
    firstKey entries ≤ e.key ∧ e.key ≤ (entries.getLast?.map Entry.key).getD [] := by
  refine ⟨firstKey_le h he, ?_⟩
  rcases List.eq_nil_or_concat' entries with rfl | ⟨es, last, rfl⟩
  · exact absurd he List.not_mem_nil
  · rw [List.getLast?_concat]
    rcases List.mem_append.mp he with he | he
    · exact (List.pairwise_append.mp h).2.2 e he last (List.mem_singleton_self _)
    · rw [List.mem_singleton.mp he]
      exact le_rfl

/-- **The reader over the file serves its entries.** -/
theorem Written.serves (h : Written P o blocks ws c) (hlaid : LaidOut blocks)
    (hfits : Fits P o blocks) (hread : Readable P o o'.readLimit blocks)
    (hsorted : blocks.flatten.flatten.Pairwise fun a b => a.key ≤ b.key) {f : Option Filter}
    (hf : KeptFilter o blocks f) :
    Serves P (fileSource ws.flatten) (readerOf o o' blocks ws c f) (partsOf o blocks) := by
  have hflat := flatten_partsOf o blocks
  refine ⟨partsOf_ne_nil hlaid.ne_nil, fun p => hlaid.part_ne_nil, fun p hp b hb => ?_, ?_, ?_, ?_, ?_,
    h.coherent hlaid hfits f⟩
  · refine hfits.sized hlaid ?_
    rw [← hflat]
    exact List.mem_flatten_of_mem hp hb
  · rwa [hflat]
  · have htop := h.top
    split
    · next hsplit => exact h.partsAt hlaid hfits hread f hsplit
    · next hsplit =>
      change ¬ isSplit o blocks = true at hsplit
      rw [if_neg hsplit] at htop
      refine ⟨blocks, if_neg hsplit, ?_⟩
      have hblocks := h.blocksAt hlaid hfits hread f
      rwa [← htop] at hblocks
  · rw [hflat]
    have hfilters := h.filtersAt hlaid hfits hf
    show if filterMode o blocks == .split then List.Forall₂ _
      (if filterMode o blocks == .split then c.filterIndex else []) _ else ∀ g ∈ f, _
    split
    · next hmode => rwa [if_pos hmode] at hfilters
    · next hmode => rwa [if_neg hmode] at hfilters
  · intro e he
    rw [hflat] at he
    obtain ⟨hmin, hmax⟩ := key_bounds hsorted he
    rw [← h.minKey] at hmin
    rw [← h.maxKey] at hmax
    rw [Reader.isOutside, decide_eq_false_iff_not]
    rintro (⟨-, hlt⟩ | ⟨-, hlt⟩)
    · exact absurd hlt (not_lt.mpr hmin)
    · exact absurd hlt (not_lt.mpr hmax)

end

end LSMEngine.Format
