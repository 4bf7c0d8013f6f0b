import LSMEngine.Format.Filters
/-!
# Format — the file that is written

What `Flush` writes of entries in table order: the blocks of the layout,
the filters, the index, the metadata and the footer, each where the
entries and fields that name it say (`writeSorted_spec`). The lengths of
the writes are known from the entries (`sizes`).
-/

namespace LSMEngine.Format

variable {blocks p : Blocks} {o : Options}

/-! ## The sections of a file -/

/-- A layout: blocks with entries. -/
structure LaidOut (blocks : Blocks) : Prop where
  ne_nil : blocks ≠ []
  blocks : ∀ b ∈ blocks, b ≠ [] ∧ ∀ g ∈ b, g ≠ []

theorem LaidOut.flatten_ne_nil (h : LaidOut blocks) : ∀ b ∈ blocks, b.flatten ≠ [] := by
  intro b hb
  obtain ⟨hbne, hgs⟩ := h.blocks b hb
  obtain ⟨g, gs, rfl⟩ := List.exists_cons_of_ne_nil hbne
  exact List.append_ne_nil_of_left_ne_nil (hgs g List.mem_cons_self) _

/-- The index has more entries than a partition. -/
def isSplit (o : Options) (blocks : Blocks) : Bool :=
  0 < o.indexPartitionEntries ∧ o.indexPartitionEntries < blocks.length

/-- The blocks by partition of the index. -/
def partsOf (o : Options) (blocks : Blocks) : List Blocks :=
  if isSplit o blocks then chunks o.indexPartitionEntries.toNat blocks else [blocks]

/-- Whether the file has filters. -/
inductive FilterMode
  | off
  | whole
  | split
  deriving DecidableEq, Repr

def filterMode (o : Options) (blocks : Blocks) : FilterMode :=
  if o.bloomBitsPerKey ≤ 0 then .off
  else if isSplit o blocks ∧ o.filterPartitioned then .split
  else .whole

/-- The key of a partition of the index. -/
def headKey (part : List IndexEntry) : Bytes := (part.head?.map IndexEntry.key).getD []

/-- The block of a partition of the index. -/
def indexBlock (part : List IndexEntry) : Bytes := plainBlock (encodeIndex part) .index

/-- The entries over which there are filters. -/
def filtered (o : Options) (blocks : Blocks) : List (List Entry) :=
  match filterMode o blocks with
  | .off => []
  | .whole => [blocks.flatten.flatten]
  | .split => (partsOf o blocks).map fun p => p.flatten.flatten

/-! ## Their lengths -/

def indexSize (keys : List Bytes) : ℕ := (keys.map fun k => k.length + 16).sum + 14

def filterSize (o : Options) (keys : ℕ) : ℕ := (filterByteLen keys o.bloomBitsPerKey).toNat + 15

/-- The keys of the index at the top. -/
def topKeys (o : Options) (blocks : Blocks) : List Bytes :=
  if isSplit o blocks then (partsOf o blocks).map partKey else blocks.map blockKey

/-- The lengths of the writes behind the data blocks. -/
def tailSizes (o : Options) (blocks : Blocks) : List ℕ :=
  (filtered o blocks).map (fun es => filterSize o es.length) ++
    ((if isSplit o blocks then (partsOf o blocks).map fun p => indexSize (p.map blockKey) else []) ++
      (indexSize (topKeys o blocks) ::
        ((if filterMode o blocks = .split then [indexSize ((partsOf o blocks).map partKey)] else []) ++
          [(firstKey blocks.flatten.flatten).length +
            ((blocks.flatten.flatten.getLast?.map Entry.key).getD []).length + 62, 36])))

/-- The lengths of the writes. -/
def sizes (P : Platform) (o : Options) (blocks : Blocks) : List ℕ :=
  blocks.map (fun b => (encodedBlock P o b).length) ++ tailSizes o blocks

/-! ## Writing lists -/

theorem Lists.foldl {α : Type} {key store : α → Bytes} {w : Listing} {items : List α}
    (h : Lists key store w items) (xs : List α) :
    Lists key store (xs.foldl (fun w x => w.write (key x) (store x)) w) (items ++ xs) ∧
      (xs.foldl (fun w x => w.write (key x) (store x)) w).writes = w.writes ++ xs.map store := by
  induction xs generalizing w items with
  | nil => exact ⟨by rwa [List.append_nil], (List.append_nil _).symm⟩
  | cons x xs ih =>
    obtain ⟨hlists, hwrites⟩ := ih (h.write x)
    rw [List.append_assoc, List.singleton_append] at hlists
    refine ⟨hlists, hwrites.trans ?_⟩
    rw [Listing.write, List.append_assoc, List.singleton_append, List.map_cons]

theorem isPartitioned_eq {index : List IndexEntry} (h : index.length = blocks.length) :
    isPartitioned o index = isSplit o blocks := by
  rw [isPartitioned, isSplit, h]

/-- **The index** in its partitions, or whole. -/
theorem writeIndex_spec {index : List IndexEntry} (h : index.length = blocks.length)
    (ws : List Bytes) :
    (writeIndex o index ws).writes = ws ++ (if isSplit o blocks then
        (chunks o.indexPartitionEntries.toNat index).map indexBlock else []) ∧
      if isSplit o blocks then Lists headKey indexBlock (writeIndex o index ws)
        (chunks o.indexPartitionEntries.toNat index)
      else (writeIndex o index ws).index = index := by
  rw [writeIndex, isPartitioned_eq h]
  split
  · have hnil : Lists headKey indexBlock ⟨ws, []⟩ [] := .nil
    exact (hnil.foldl (chunks o.indexPartitionEntries.toNat index)).symm
  · exact ⟨(List.append_nil ws).symm, rfl⟩

/-! ## The partitions -/

theorem isSplit_pos (h : isSplit o blocks = true) : 0 < o.indexPartitionEntries.toNat := by
  rw [isSplit, decide_eq_true_eq] at h
  omega

theorem flatten_partsOf (o : Options) (blocks : Blocks) :
    (partsOf o blocks).flatten = blocks := by
  unfold partsOf
  split
  · next h => exact flatten_chunks (isSplit_pos h) blocks
  · exact List.flatten_singleton

theorem LaidOut.part_ne_nil (h : LaidOut blocks) (hp : p ∈ partsOf o blocks) : p ≠ [] := by
  unfold partsOf at hp
  split at hp
  · next hsplit => exact ne_nil_of_mem_chunks (isSplit_pos hsplit) hp
  · exact List.mem_singleton.mp hp ▸ h.ne_nil

theorem LaidOut.block_ne_nil (h : LaidOut blocks) (hp : p ∈ partsOf o blocks)
    {b : List (List Entry)} (hb : b ∈ p) : b.flatten ≠ [] := by
  refine h.flatten_ne_nil b ?_
  rw [← flatten_partsOf o blocks]
  exact List.mem_flatten_of_mem hp hb

theorem partsOf_ne_nil (hne : blocks ≠ []) : partsOf o blocks ≠ [] := by
  intro hnil
  have hflat := flatten_partsOf o blocks
  rw [hnil, List.flatten_nil] at hflat
  exact hne hflat.symm

/-! ## The filters -/

/-- Every filter of the file can be made. The whole one is made even
where only those of the partitions are kept. -/
def FiltersFit (o : Options) (blocks : Blocks) : Prop :=
  0 < o.bloomBitsPerKey → ∀ es ∈ blocks.flatten.flatten :: filtered o blocks,
    FilterFits es.length o.bloomBitsPerKey

instance (o : Options) (blocks : Blocks) : Decidable (FiltersFit o blocks) :=
  inferInstanceAs (Decidable (_ → _))

/-- What `writeFilter` leaves behind. -/
def FilterWritten (o : Options) (blocks : Blocks) (front : List Bytes)
    (t : Tail) : Prop :=
  match filterMode o blocks with
  | .off => t.bloomOffset = 0 ∧ t.bloomLen = 0
  | .whole => t.bloomOffset = offsetOf front ∧
      t.bloomLen = UInt32.ofNat (filterBlock o blocks.flatten.flatten).length
  | .split => Lists partKey (fun p => filterBlock o p.flatten.flatten) ⟨t.writes, t.filterIndex⟩
      (partsOf o blocks)

theorem filterMode_off : filterMode o blocks = .off ↔ o.bloomBitsPerKey ≤ 0 := by
  unfold filterMode
  split
  · next h => exact ⟨fun _ => h, fun _ => rfl⟩
  · next h => split <;> exact ⟨nofun, fun hle => absurd hle h⟩

/-- **The filters** are written behind the data blocks. -/
theorem writeFilter_spec {P : Platform} {w : Output} (hlaid : LaidOut blocks)
    (hfits : FiltersFit o blocks) (hlists : Lists blockKey (encodedBlock P o) w.listing blocks)
    (hcounts : w.blockEntryCounts = blocks.map fun b => b.flatten.length) :
    ∃ f t, filterOf o blocks.flatten.flatten = .ok f ∧
      f.isSome = (filterMode o blocks != .off) ∧
      writeFilter o blocks.flatten.flatten w f = .ok t ∧
      t.writes = w.listing.writes ++ (filtered o blocks).map (filterBlock o) ∧
      FilterWritten o blocks w.listing.writes t := by
  have hflat := flatten_flatten_ne_nil hlaid.ne_nil hlaid.flatten_ne_nil
  have hkeys := map_key_eq blockKey hlists fun _ _ hx => hx.1
  have hlen : w.listing.index.length = blocks.length := List.Forall₂.length_eq hlists
  unfold FilterWritten filtered
  match hmode : filterMode o blocks with
  | .off =>
    refine ⟨none, _, filterOf_none (filterMode_off.mp hmode) _, rfl, rfl, ?_, rfl, rfl⟩
    rw [List.map_nil, List.append_nil]
  | .whole =>
    have hbits : 0 < o.bloomBitsPerKey := not_le.mp fun hle => by
      rw [filterMode_off.mpr hle] at hmode
      cases hmode
    obtain ⟨f, hf, -⟩ := filterOf_spec hflat hbits (hfits hbits _ List.mem_cons_self)
    have hblock : plainBlock f.encode .filter = filterBlock o blocks.flatten.flatten := by
      rw [filterBlock, hf]
      rfl
    -- the source asks the index it has written, the specification the blocks
    have hwhole : ¬ (isPartitioned o w.listing.index = true ∧ o.filterPartitioned = true) := by
      rw [isPartitioned_eq hlen]
      intro hsplit
      rw [filterMode, if_neg (not_le.mpr hbits), if_pos hsplit] at hmode
      cases hmode
    refine ⟨some f, _, hf, rfl, if_neg hwhole, ?_, rfl, ?_⟩
    · show w.listing.writes ++ [plainBlock f.encode .filter] = w.listing.writes ++ [_]
      rw [hblock]
    · rw [← hblock]
  | .split =>
    have hbits : 0 < o.bloomBitsPerKey := not_le.mp fun hle => by
      rw [filterMode_off.mpr hle] at hmode
      cases hmode
    have hsplit : isSplit o blocks = true ∧ o.filterPartitioned = true := by
      rw [filterMode, if_neg (not_le.mpr hbits)] at hmode
      split at hmode
      · assumption
      · cases hmode
    obtain ⟨f, hf, -⟩ := filterOf_spec hflat hbits (hfits hbits _ List.mem_cons_self)
    have hparts : partsOf o blocks = chunks o.indexPartitionEntries.toNat blocks := if_pos hsplit.1
    have hflatten := flatten_partsOf o blocks
    have hchunks : chunks o.indexPartitionEntries.toNat w.blockEntryCounts =
        (partsOf o blocks).map (List.map fun b => b.flatten.length) := by
      rw [hcounts, chunks_map, hparts]
    -- the partitions are listed anew, behind the data already written
    have hnil : Lists partKey (fun p => filterBlock o p.flatten.flatten)
        { w.listing with index := [] } [] := .nil
    obtain ⟨w', hw', hwrites, hlists'⟩ := writeFilterPartitions_spec [] hbits
      (fun p hp => ⟨hlaid.part_ne_nil hp, fun b => hlaid.block_ne_nil hp⟩)
      (fun p hp => hfits hbits _ (List.mem_cons_of_mem _ (by
        rw [filtered, hmode]
        exact List.mem_map_of_mem (f := fun p => p.flatten.flatten) hp)))
      (by rw [List.nil_append, hflatten, hkeys]) hnil
    rw [hflatten] at hw'
    refine ⟨some f, ⟨w'.writes, 0, 0, w'.index⟩, hf, rfl, ?_, ?_, hlists'⟩
    · rw [writeFilter]
      dsimp only
      rw [isPartitioned_eq hlen, if_pos hsplit, hchunks]
      exact hw' ▸ rfl
    · rw [hwrites, List.map_map]
      rfl

/-! ## The whole file -/

/-- What a file lists, apart from its data. -/
structure Contents where
  index : List IndexEntry
  top : List IndexEntry
  filterIndex : List IndexEntry
  metadata : Meta
  footer : Footer

/-- The writes of a file. -/
def Contents.writes (P : Platform) (o : Options) (blocks : Blocks) (c : Contents) :
    List Bytes :=
  blocks.map (encodedBlock P o) ++ ((filtered o blocks).map (filterBlock o) ++
    ((if isSplit o blocks then (chunks o.indexPartitionEntries.toNat c.index).map indexBlock
        else []) ++
      (indexBlock c.top :: ((if filterMode o blocks = .split then
          [plainBlock (encodeIndex c.filterIndex) .filter] else []) ++
        [plainBlock (encodeMeta c.metadata) .metadata, encodeFooter c.footer]))))

/-- A write behind the data blocks. -/
def PlacedBehind (front ws : List Bytes) (offset : UInt64) (length : UInt32) (x : Bytes) : Prop :=
  ∃ as bs, ws = front ++ as ++ x :: bs ∧ offset = offsetOf (front ++ as) ∧
    length = UInt32.ofNat x.length

/-- The file is written, and names its parts where they are. -/
structure Written (P : Platform) (o : Options) (blocks : Blocks)
    (ws : List Bytes) (c : Contents) : Prop where
  writes : ws = c.writes P o blocks
  flags : c.footer.flags = footerFlags (isSplit o blocks) (filterMode o blocks == .split)
  index : Lists blockKey (encodedBlock P o) ⟨ws, c.index⟩ blocks
  top : if isSplit o blocks then
      Lists headKey indexBlock ⟨ws, c.top⟩ (chunks o.indexPartitionEntries.toNat c.index)
    else c.top = c.index
  topAt : PlacedBehind (blocks.map (encodedBlock P o)) ws c.footer.indexOffset c.footer.indexLen
    (indexBlock c.top)
  metaAt : PlacedBehind (blocks.map (encodedBlock P o)) ws c.footer.metaOffset c.footer.metaLen
    (plainBlock (encodeMeta c.metadata) .metadata)
  footerAt : ∃ front, ws = front ++ [encodeFooter c.footer]
  minKey : c.metadata.minKey = firstKey blocks.flatten.flatten
  maxKey : c.metadata.maxKey = (blocks.flatten.flatten.getLast?.map Entry.key).getD []
  filter : match filterMode o blocks with
    | .off => c.metadata.bloomLen = 0
    | .whole => PlacedBehind (blocks.map (encodedBlock P o)) ws c.metadata.bloomOffset
        c.metadata.bloomLen (filterBlock o blocks.flatten.flatten)
    | .split => Lists partKey (fun p => filterBlock o p.flatten.flatten) ⟨ws, c.filterIndex⟩
          (partsOf o blocks) ∧
        PlacedBehind (blocks.map (encodedBlock P o)) ws c.metadata.bloomOffset
          c.metadata.bloomLen (plainBlock (encodeIndex c.filterIndex) .filter)

/-- The filters of the partitions are listed if they are kept. -/
theorem filterPartitioned_eq {f : Option Filter} (h : f.isSome = (filterMode o blocks != .off)) :
    (isSplit o blocks && f.isSome && o.filterPartitioned) = (filterMode o blocks == .split) := by
  rw [h, filterMode]
  by_cases hbits : o.bloomBitsPerKey ≤ 0
  · rw [if_pos hbits]
    cases isSplit o blocks <;> rfl
  · rw [if_neg hbits]
    cases isSplit o blocks <;> cases o.filterPartitioned <;> rfl

/-- **The index of the filters** is written where they are split. -/
theorem writeFilterIndex_spec {t : Tail} {front : List Bytes} (hne : blocks ≠ [])
    (h : FilterWritten o blocks front t) (ws : List Bytes) :
    (writeFilterIndex (filterMode o blocks == .split) t ws).writes =
        ws ++ (if filterMode o blocks = .split then
          [plainBlock (encodeIndex t.filterIndex) .filter] else []) ∧
      match filterMode o blocks with
      | .off => (writeFilterIndex (filterMode o blocks == .split) t ws).bloomLen = 0
      | .whole =>
          (writeFilterIndex (filterMode o blocks == .split) t ws).bloomOffset = offsetOf front ∧
          (writeFilterIndex (filterMode o blocks == .split) t ws).bloomLen =
            UInt32.ofNat (filterBlock o blocks.flatten.flatten).length
      | .split =>
          (writeFilterIndex (filterMode o blocks == .split) t ws).bloomOffset = offsetOf ws ∧
          (writeFilterIndex (filterMode o blocks == .split) t ws).bloomLen =
            UInt32.ofNat (plainBlock (encodeIndex t.filterIndex) .filter).length := by
  unfold FilterWritten at h
  match hmode : filterMode o blocks with
  | .off =>
    rw [hmode] at h
    exact ⟨(List.append_nil _).symm, h.2⟩
  | .whole =>
    rw [hmode] at h
    exact ⟨(List.append_nil _).symm, h⟩
  | .split =>
    rw [hmode] at h
    have hpos : 0 < t.filterIndex.length := by
      rw [List.Forall₂.length_eq h]
      exact List.length_pos_of_ne_nil (partsOf_ne_nil hne)
    have hif : (FilterMode.split == FilterMode.split) = true ∧ 0 < t.filterIndex.length := ⟨rfl, hpos⟩
    rw [writeFilterIndex, if_pos hif]
    exact ⟨rfl, rfl, rfl⟩

section

variable {P : Platform} {w l : Listing} {t : Tail}

/-- The parts of the file, put together. -/
theorem written_of {m : Meta} {ft : Footer} {t' : Tail} {x : Bytes}
    (hwrites : w.writes = blocks.map (encodedBlock P o))
    (hlists : Lists blockKey (encodedBlock P o) w blocks)
    (htwrites : t.writes = w.writes ++ (filtered o blocks).map (filterBlock o))
    (htail : FilterWritten o blocks w.writes t) (hne : blocks ≠ [])
    (hl : l = writeIndex o w.index t.writes) (hx : x = indexBlock l.index)
    (ht' : t' = writeFilterIndex (filterMode o blocks == .split) t (l.writes ++ [x]))
    (hmin : m.minKey = firstKey blocks.flatten.flatten)
    (hmax : m.maxKey = (blocks.flatten.flatten.getLast?.map Entry.key).getD [])
    (hbloom : m.bloomOffset = t'.bloomOffset ∧ m.bloomLen = t'.bloomLen)
    (hflags : ft.flags = footerFlags (isSplit o blocks) (filterMode o blocks == .split))
    (htop : ft.indexOffset = offsetOf l.writes ∧ ft.indexLen = UInt32.ofNat x.length)
    (hmeta : ft.metaOffset = offsetOf t'.writes ∧
      ft.metaLen = UInt32.ofNat (plainBlock (encodeMeta m) .metadata).length) :
    Written P o blocks (t'.writes ++ [plainBlock (encodeMeta m) .metadata, encodeFooter ft])
      ⟨w.index, l.index, t.filterIndex, m, ft⟩ := by
  have hindex := writeIndex_spec (o := o) (List.Forall₂.length_eq hlists) t.writes
  have hfilter := writeFilterIndex_spec hne htail (l.writes ++ [x])
  rw [← hl] at hindex
  rw [← ht'] at hfilter
  -- what stands between the data blocks and the index at the top
  obtain ⟨mid, hmid⟩ : ∃ mid, mid = (filtered o blocks).map (filterBlock o) ++
      (if isSplit o blocks then (chunks o.indexPartitionEntries.toNat w.index).map indexBlock
        else []) := ⟨_, rfl⟩
  have hlw : l.writes = blocks.map (encodedBlock P o) ++ mid := by
    rw [hindex.1, htwrites, hwrites, hmid, List.append_assoc]
  have htpre : t.writes <+: t'.writes := by
    rw [hfilter.1, hindex.1, List.append_assoc, List.append_assoc]
    exact List.prefix_append _ _
  have hxpre : l.writes ++ [x] <+: t'.writes := by
    rw [hfilter.1]
    exact List.prefix_append _ _
  have hwpre : w.writes <+: t'.writes := (htwrites ▸ List.prefix_append _ _).trans htpre
  have hend := List.prefix_append t'.writes [plainBlock (encodeMeta m) .metadata, encodeFooter ft]
  refine ⟨?_, hflags, hlists.mono (hwpre.trans hend), ?_, ?_, ?_,
    ⟨t'.writes ++ [plainBlock (encodeMeta m) .metadata], by rw [List.append_assoc]; rfl⟩, hmin, hmax,
    ?_⟩
  · rw [hfilter.1, hlw, hmid, hx, Contents.writes]
    simp only [List.append_assoc, List.cons_append, List.nil_append]
  · have htop := hindex.2
    split at htop
    · next hsplit =>
      rw [if_pos hsplit]
      exact htop.mono ((List.prefix_append _ _).trans (hxpre.trans hend))
    · next hsplit => rwa [if_neg hsplit]
  · obtain ⟨rest, hrest⟩ := hxpre.trans hend
    refine ⟨mid, rest, ?_, hlw ▸ htop.1, hx ▸ htop.2⟩
    rw [← hrest, hlw, hx, List.append_assoc _ [_], List.singleton_append]
  · obtain ⟨rest, hrest⟩ := hwpre
    rw [hwrites] at hrest
    exact ⟨rest, _, by rw [hrest], hrest ▸ hmeta.1, hmeta.2⟩
  · have hf := hfilter.2
    rw [hbloom.1, hbloom.2]
    unfold FilterWritten at htail
    match hmode : filterMode o blocks with
    | .off =>
      rw [hmode] at hf
      exact hf
    | .whole =>
      rw [hmode] at hf
      obtain ⟨rest, hrest⟩ := htpre.trans hend
      refine ⟨[], rest, ?_, ?_, hf.2⟩
      · rw [← hrest, htwrites, hwrites, filtered, hmode]
        simp only [List.map_cons, List.map_nil, List.append_assoc, List.cons_append, List.nil_append]
      · rw [hf.1, hwrites, List.append_nil]
    | .split =>
      rw [hmode] at hf htail
      refine ⟨htail.mono (htpre.trans hend), mid ++ [x],
        [plainBlock (encodeMeta m) .metadata, encodeFooter ft], ?_, ?_, hf.2⟩
      · rw [hfilter.1, hlw, if_pos hmode]
        simp only [List.append_assoc, List.cons_append, List.nil_append]
      · rw [hf.1, hlw, List.append_assoc]

end

/-- **The file of sorted entries.** -/
theorem writeSorted_spec {P : Platform} {first last : Entry} {entries : List Entry}
    (hfirst : entries.head? = some first) (hlast : entries.getLast? = some last)
    (hkeys : ∀ e ∈ entries, e.key ≠ []) (hpacks : ∀ b ∈ layout o entries, Packs P o b)
    (hfits : FiltersFit o (layout o entries)) :
    ∃ ws c, writeSorted P o first last entries = .ok ws ∧ Written P o (layout o entries) ws c := by
  obtain ⟨hentries, hnonempty⟩ := layout_spec o entries
  obtain ⟨w, hw, hwrites, hlists, hcounts⟩ := writeBlocks_spec hkeys hpacks
  generalize hb : layout o entries = blocks at *
  have hlaid : LaidOut blocks := by
    refine ⟨?_, hnonempty⟩
    rintro rfl
    rw [← hentries] at hfirst
    cases hfirst
  obtain ⟨f, t, hf, hsome, ht, htwrites, htail⟩ := writeFilter_spec hlaid hfits hlists hcounts
  have hlen : w.listing.index.length = blocks.length := List.Forall₂.length_eq hlists
  rw [hentries] at hf ht
  rw [writeSorted, hf, ok_bind, hw, ok_bind]
  dsimp only
  rw [ht, ok_bind, isPartitioned_eq hlen, filterPartitioned_eq hsome]
  refine ⟨_, _, rfl, written_of hwrites hlists htwrites htail hlaid.ne_nil rfl rfl rfl ?_ ?_ ⟨rfl, rfl⟩ rfl
    ⟨rfl, rfl⟩ ⟨rfl, rfl⟩⟩
  · rw [hentries, firstKey, hfirst]
    rfl
  · rw [hentries, hlast]
    rfl

/-! ## The lengths of the writes -/

theorem length_indexBlock (part : List IndexEntry) :
    (indexBlock part).length = indexSize (part.map IndexEntry.key) := by
  rw [indexBlock, length_plainBlock, indexSize, encodeIndex, List.length_flatMap, List.map_map]
  congr 3

theorem length_filterBlock {es : List Entry} (hes : es ≠ []) (hbits : 0 < o.bloomBitsPerKey)
    (h : FilterFits es.length o.bloomBitsPerKey) :
    (filterBlock o es).length = filterSize o es.length := by
  obtain ⟨f, hf, -, hlen, -⟩ := filterOf_spec hes hbits h
  rw [filterBlock, hf]
  show (plainBlock (f.k :: f.bits) .filter).length = _
  rw [length_plainBlock, List.length_cons, hlen, filterSize]

section

variable {P : Platform} {ws : List Bytes} {c : Contents}

/-- The keys of the index, by partition. -/
theorem Written.chunk_keys (h : Written P o blocks ws c) (hsplit : isSplit o blocks = true) :
    (chunks o.indexPartitionEntries.toNat c.index).map (List.map IndexEntry.key) =
      (partsOf o blocks).map (List.map blockKey) := by
  rw [← chunks_map, map_key_eq blockKey h.index fun _ _ hx => hx.1, chunks_map, partsOf,
    if_pos hsplit]

theorem headKey_eq (part : List IndexEntry) :
    headKey part = (part.map IndexEntry.key).head?.getD [] := by
  rw [List.head?_map, headKey]

theorem partKey_eq (hp : p ≠ []) (hb : ∀ b ∈ p, b.flatten ≠ []) :
    (p.map blockKey).head?.getD [] = partKey p := by
  obtain ⟨b, bs, rfl⟩ := List.exists_cons_of_ne_nil hp
  rw [partKey_cons (hb b List.mem_cons_self)]
  rfl

theorem Written.top_keys (h : Written P o blocks ws c) (hlaid : LaidOut blocks) :
    c.top.map IndexEntry.key = topKeys o blocks := by
  have htop := h.top
  unfold topKeys
  split
  · next hsplit =>
    rw [if_pos hsplit] at htop
    have hmap : ∀ l : List (List IndexEntry), l.map headKey =
        (l.map (List.map IndexEntry.key)).map fun keys => keys.head?.getD [] := fun l => by
      rw [List.map_map]
      exact List.map_congr_left fun part _ => headKey_eq part
    rw [map_key_eq headKey htop (fun _ _ hx => hx.1), hmap, h.chunk_keys hsplit,
      List.map_map]
    exact List.map_congr_left fun p hp =>
      partKey_eq (hlaid.part_ne_nil hp) fun b => hlaid.block_ne_nil hp
  · next hsplit =>
    rw [if_neg hsplit] at htop
    rw [htop]
    exact map_key_eq blockKey h.index fun _ _ hx => hx.1

theorem LaidOut.filtered_ne_nil (h : LaidOut blocks) {es : List Entry}
    (hes : es ∈ filtered o blocks) : es ≠ [] := by
  unfold filtered at hes
  split at hes
  · exact absurd hes List.not_mem_nil
  · exact List.mem_singleton.mp hes ▸ flatten_flatten_ne_nil h.ne_nil h.flatten_ne_nil
  · obtain ⟨p, hp, rfl⟩ := List.mem_map.mp hes
    exact flatten_flatten_ne_nil (h.part_ne_nil hp) fun b => h.block_ne_nil hp

/-- **The writes have the lengths that the entries say.** -/
theorem Written.map_length (h : Written P o blocks ws c) (hlaid : LaidOut blocks)
    (hfits : FiltersFit o blocks) :
    ws.map List.length = sizes P o blocks := by
  have hfilters : ((filtered o blocks).map (filterBlock o)).map List.length =
      (filtered o blocks).map fun es => filterSize o es.length := by
    rw [List.map_map]
    refine List.map_congr_left fun es hes => ?_
    have hbits : 0 < o.bloomBitsPerKey := not_le.mp fun hle => by
      rw [filtered, filterMode_off.mpr hle] at hes
      exact absurd hes List.not_mem_nil
    exact length_filterBlock (hlaid.filtered_ne_nil hes) hbits
      (hfits hbits es (List.mem_cons_of_mem _ hes))
  have hparts : (if isSplit o blocks then
        (chunks o.indexPartitionEntries.toNat c.index).map indexBlock else []).map List.length =
      if isSplit o blocks then (partsOf o blocks).map fun p => indexSize (p.map blockKey) else [] := by
    split
    · next hsplit =>
      have hmap : ∀ l : List (List IndexEntry), (l.map indexBlock).map List.length =
          (l.map (List.map IndexEntry.key)).map indexSize := fun l => by
        rw [List.map_map, List.map_map]
        exact List.map_congr_left fun part _ => length_indexBlock part
      rw [hmap, h.chunk_keys hsplit, List.map_map]
      rfl
    · rfl
  have hfilterIndex : (if filterMode o blocks = .split then
        [plainBlock (encodeIndex c.filterIndex) .filter] else []).map List.length =
      if filterMode o blocks = .split then [indexSize ((partsOf o blocks).map partKey)] else [] := by
    split
    · next hmode =>
      have hf := h.filter
      rw [hmode] at hf
      have hlen := length_indexBlock c.filterIndex
      rw [map_key_eq partKey hf.1 fun _ _ hx => hx.1, indexBlock, length_plainBlock] at hlen
      rw [List.map_singleton, length_plainBlock, hlen]
    · rfl
  have hmeta : (plainBlock (encodeMeta c.metadata) .metadata).length =
      (firstKey blocks.flatten.flatten).length +
        ((blocks.flatten.flatten.getLast?.map Entry.key).getD []).length + 62 := by
    rw [length_plainBlock, length_encodeMeta, h.minKey, h.maxKey]
    omega
  rw [h.writes, Contents.writes, sizes, tailSizes, List.map_append, List.map_append, List.map_append,
    List.map_cons, List.map_append, hfilters, hparts, hfilterIndex, length_indexBlock,
    h.top_keys hlaid, List.map_cons, List.map_cons, hmeta, length_encodeFooter, List.map_map]
  rfl

end

end LSMEngine.Format
