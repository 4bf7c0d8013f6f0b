import LSMEngine.Format.Flush
/-!
# Format — a block longer than its length field

The index stores the length of a block in 32 bits, and nothing keeps the
writer from a longer block: one entry with a value of four gibibytes is
enough. The reader then fetches the first 44 bytes of the block, which
do not end in the type and checksum of a data block
(`readDataBlock_longEntry`).
-/

namespace LSMEngine.Format

/-- The options of a table without compression and filter. -/
def Options.plain : Options where
  blockTargetBytes := 0
  blockMaxBytes := 0
  restartInterval := 0
  restartIntervalAdaptive := false
  restartIntervalMin := 0
  restartIntervalMax := 0
  indexPartitionEntries := 0
  filterPartitioned := false
  readBlockMaxBytes := 0
  compression := .none
  bloomBitsPerKey := 0
  blockCacheBytes := 0
  indexCacheBytes := 0
  filterCacheBytes := 0
  prefetchBlocks := 0
  prefetchBytes := 0
  prefetchBudgetBlocks := 0
  prefetchBudgetBytes := 0
  prefetchAsync := false
  prefetchQueueDepth := 0
  checksum := .crc32c
  corruptionPolicy := .failFast
  policyOverride := none

/-- The same with blocks of up to eight gibibytes. -/
def Options.wide : Options := { Options.plain with readBlockMaxBytes := 2 ^ 33 }

/-- The same with a block for every entry, two of them in a part of the
index, filters, a cache, and a policy of its own for the reader. -/
def Options.parted : Options :=
  { Options.plain with
    blockTargetBytes := 1, blockMaxBytes := 1, bloomBitsPerKey := 10, indexPartitionEntries := 2
    filterPartitioned := true, blockCacheBytes := 200
    policyOverride := some ⟨true, 0, 1, false, 0, 50⟩ }

/-- Three entries for them. -/
def fewEntries : List Entry := [⟨[2], [7], false, 1⟩, ⟨[1], [], true, 2⟩, ⟨[3], [8], false, 3⟩]

/-- An entry with a value of so many bytes. -/
def longEntry (n : ℕ) : Entry := ⟨[1], List.replicate n 1, false, 1⟩

/-! ## A table of one entry -/

/-- The only way to lay out one entry. -/
theorem layout_singleton (o : Options) (e : Entry) : layout o [e] = [[[e]]] := by
  obtain ⟨hflat, hne⟩ := layout_spec o [e]
  match hblocks : layout o [e], hne with
  | [], _ =>
    rw [hblocks] at hflat
    cases hflat
  | b :: bs, hne =>
    obtain ⟨hb, hgs⟩ := hne b List.mem_cons_self
    obtain ⟨g, gs, rfl⟩ := List.exists_cons_of_ne_nil hb
    obtain ⟨x, g, rfl⟩ := List.exists_cons_of_ne_nil (hgs g List.mem_cons_self)
    rw [hblocks] at hflat
    simp only [List.flatten_cons, List.flatten_append, List.cons_append, List.cons.injEq,
      List.append_eq_nil_iff, List.flatten_eq_nil_iff] at hflat
    obtain ⟨rfl, rfl, hgs', hbs⟩ := hflat
    have hgs'' : gs = [] := List.eq_nil_iff_forall_not_mem.mpr fun g hg =>
      hgs g (List.mem_cons_of_mem _ hg) (hgs' g hg)
    have hbs' : bs = [] := List.eq_nil_iff_forall_not_mem.mpr fun b hb => by
      obtain ⟨hbne, hbgs⟩ := hne b (List.mem_cons_of_mem _ hb)
      obtain ⟨g, gs, rfl⟩ := List.exists_cons_of_ne_nil hbne
      exact hbgs g List.mem_cons_self
        (hbs g (List.mem_flatten_of_mem hb List.mem_cons_self))
    rw [hgs'', hbs']

theorem blocksOf_singleton (raw : Options) (e : Entry) : blocksOf raw [e] = [[[e]]] :=
  layout_singleton raw.normalize e

section

variable {n : ℕ}

/-- The payload of the entry. -/
theorem payloadOf_longEntry (n : ℕ) :
    payloadOf [[longEntry n]] = entryHeader 0 1 (longEntry n) ++ ([1] ++ (List.replicate n 1 ++
      [0, 0, 0, 0, 1, 0, 0, 0])) := by
  have hdata : blockData [[longEntry n]] =
      entryHeader 0 1 (longEntry n) ++ ([1] ++ List.replicate n 1) := by
    rw [blockData, pieces, List.flatMap_singleton, piecesFrom, piecesFrom, encodePieces_cons]
    exact List.append_nil _
  have hoffsets : groupOffsets 0 [[longEntry n]] = [0] := rfl
  have htrailer : ([0].map UInt32.ofNat).flatMap (fun off => leBytes 4 off.toNat) ++ leBytes 4 1 =
      [0, 0, 0, 0, 1, 0, 0, 0] := by decide
  rw [payloadOf, hdata, hoffsets, List.length_singleton, htrailer, List.append_assoc,
    List.append_assoc]

/-- Its block. -/
theorem encodedBlock_longEntry (n : ℕ) :
    encodedBlock .plain Options.wide.normalize [[longEntry n]] =
      encodeBlock (payloadOf [[longEntry n]]) .data .none
        (UInt32.ofNat (payloadOf [[longEntry n]]).length) := rfl

theorem length_encodedBlock_longEntry (n : ℕ) :
    (encodedBlock .plain Options.wide.normalize [[longEntry n]]).length = n + 44 := by
  rw [encodedBlock_longEntry, length_encodeBlock, payloadOf_longEntry]
  simp only [List.length_append, length_entryHeader, List.length_replicate, List.length_cons,
    List.length_nil]
  omega

theorem tailSizes_longEntry (n : ℕ) :
    tailSizes Options.wide.normalize [[[longEntry n]]] = [31, 64, 36] := rfl

/-- The file can be opened, however long the value. -/
theorem opens_longEntry (hn : n < 2 ^ 62) :
    Opens .plain Options.wide.normalize [[[longEntry n]]] := by
  refine ⟨fun b hb => ?_, fun hbits => absurd hbits (by decide), fun m hm => ?_, ?_, rfl⟩
  · rw [List.mem_singleton.mp hb]
    exact ⟨_, _, rfl⟩
  · rw [tailSizes_longEntry] at hm
    simp only [List.mem_cons, List.not_mem_nil, or_false] at hm
    omega
  · rw [sizes, tailSizes_longEntry, List.map_singleton, length_encodedBlock_longEntry]
    simp only [List.sum_append, List.sum_cons, List.sum_nil]
    omega

/-- A frame around its payload. -/
theorem encodeBlock_split (payload : Bytes) (typ : BlockType) (c : Compression) (m : UInt32) :
    ∃ head tail, encodeBlock payload typ c m = head ++ (payload ++ tail) ∧ head.length = 9 := by
  refine ⟨frameMagic ++ (compressionID c :: leBytes 4 m.toNat),
    [typ.byte] ++ leBytes 4 (crc32c (frameBody payload typ c m)).toNat, ?_, ?_⟩
  · rw [encodeBlock, frameBody]
    simp only [List.append_assoc, List.cons_append, List.nil_append]
  · simp only [frameMagic, List.length_append, List.length_cons, List.length_nil, length_leBytes]

/-- The byte where the type of a block of 44 bytes would stand. -/
theorem getElem_encodedBlock_longEntry (hn : 8 < n) :
    (encodedBlock .plain Options.wide.normalize [[longEntry n]])[39]? = some 1 := by
  obtain ⟨head, tail, hframe, hhead⟩ := encodeBlock_split (payloadOf [[longEntry n]]) .data .none
    (UInt32.ofNat (payloadOf [[longEntry n]]).length)
  have hsplit : encodedBlock .plain Options.wide.normalize [[longEntry n]] =
      (head ++ (entryHeader 0 1 (longEntry n) ++ [1])) ++
        (List.replicate n 1 ++ ([0, 0, 0, 0, 1, 0, 0, 0] ++ tail)) := by
    rw [encodedBlock_longEntry, hframe, payloadOf_longEntry]
    simp only [List.append_assoc]
  have hfront : (head ++ (entryHeader 0 1 (longEntry n) ++ [1])).length = 31 := by
    rw [List.length_append, List.length_append, hhead, length_entryHeader]
    rfl
  rw [hsplit, List.getElem?_append_right (by omega), hfront,
    List.getElem?_append_left (by rw [List.length_replicate]; omega),
    List.getElem?_replicate_of_lt (by omega)]

/-- The length of the block, without its upper bits. -/
theorem length_of_placedAt {ws : List Bytes} {e : IndexEntry} (hn : n = 2 ^ 32)
    (h : PlacedAt ws e (encodedBlock .plain Options.wide.normalize [[longEntry n]])) :
    e.length = 44 := by
  obtain ⟨as, bs, -, -, hlen⟩ := h
  rw [hlen, length_encodedBlock_longEntry, hn]
  decide

/-- **The block cannot be read.** -/
theorem readDataBlock_longEntry {ws : List Bytes} {e : IndexEntry} (hn : n = 2 ^ 32)
    (hws : Counted ws)
    (h : PlacedAt ws e (encodedBlock .plain Options.wide.normalize [[longEntry n]])) :
    readDataBlock .plain (fileSource ws.flatten) e = .error .badBlock := by
  have h44 : e.length.toNat = 44 := by
    rw [length_of_placedAt hn h]
    rfl
  have hlen := length_encodedBlock_longEntry n
  have hread := h.fileSource_take hws (by rw [length_of_placedAt hn h]; decide) (by omega)
  rw [h44] at hread
  have hbyte := getElem_encodedBlock_longEntry (n := n) (by omega)
  generalize encodedBlock .plain Options.wide.normalize [[longEntry n]] = x at hread hbyte hlen
  have htake : (x.take 44).length = 44 := by
    rw [List.length_take]
    omega
  have htype : byteAt (x.take 44) 39 = .ok 1 := by
    rw [byteAt, List.getElem?_take_of_lt (by omega), hbyte]
  rw [readDataBlock, readBlockPayload, hread]
  show (decodeBlockPayload .plain (x.take 44) .data .badBlock >>= decode) = _
  rw [decodeBlockPayload, htake, failIf_neg (by decide), ok_bind]
  dsimp only
  rw [show 44 - blockTypeSize - blockCRCLen = 39 from rfl, htype]
  rfl

/-- A table whose only entry leads to a block that cannot be read. -/
structure Broken (t : Table) (i : IndexEntry) : Prop where
  top : t.reader.top = [i]
  key : i.key = [1]
  partitioned : t.reader.partitioned = false
  filterPartitioned : t.reader.filterPartitioned = false
  filter : t.reader.filter = none
  policy : t.reader.corruptionPolicy = .failFast
  inside : t.reader.isOutside [1] = false
  valid : t.reader.validateEntry i .badBlock = .ok ()
  read : readDataBlock .plain (fileSource t.file) i = .error .badBlock
  state : t.state = ⟨false, none, none, none⟩

/-- **The table of the entry** is such a one. -/
theorem flush_longEntry (hn : n = 2 ^ 32) :
    ∃ t i, flush .plain .wide [longEntry n] = .ok t ∧ Broken t i := by
  have hblocks := blocksOf_singleton .wide (longEntry n)
  have hopens := opens_longEntry (n := n) (by omega)
  have hlaid : LaidOut (blocksOf .wide [longEntry n]) :=
    laidOut_blocksOf (List.cons_ne_nil _ _)
  have hkeys : ∀ e ∈ [longEntry n], e.key ≠ [] := fun e he => by
    rw [List.mem_singleton.mp he]
    exact List.cons_ne_nil _ _
  have hopens' : Opens .plain Options.wide.normalize (blocksOf .wide [longEntry n]) :=
    hblocks ▸ hopens
  obtain ⟨ws, c, f, hwritten, hf, hflush⟩ := flush_eq rfl (List.cons_ne_nil _ _) hkeys hopens'
  rw [hblocks] at hwritten hf hflush hlaid
  have hws := hwritten.counted hlaid hopens
  -- the index has one entry, which names the block
  obtain ⟨i, hindex, hkey, hplaced⟩ : ∃ i, c.index = [i] ∧ i.key = [1] ∧
      PlacedAt ws i (encodedBlock .plain Options.wide.normalize [[longEntry n]]) := by
    have hlists := hwritten.index
    unfold Lists at hlists
    match hi : c.index, hlists with
    | [i], .cons hx .nil => exact ⟨i, rfl, hx.1, hx.2⟩
  have htop : c.top = c.index := hwritten.top
  refine ⟨_, i, hflush, htop.trans hindex, hkey, rfl, rfl, hf, rfl, ?_, ?_,
    readDataBlock_longEntry hn hws hplaced, rfl⟩
  · have hmin : c.metadata.minKey = [1] := hwritten.minKey
    have hmax : c.metadata.maxKey = [1] := hwritten.maxKey
    show decide (_ ∨ _) = false
    rw [show (openedReader _ _ _ _ c f).metadata.minKey = [1] from hmin,
      show (openedReader _ _ _ _ c f).metadata.maxKey = [1] from hmax]
    decide
  · have hlength := length_of_placedAt hn hplaced
    have hlen := length_encodedBlock_longEntry n
    have h44 : i.length.toNat = 44 := by
      rw [hlength]
      rfl
    refine validateEntry_ok (by rw [hlength]; decide) (fun _ => ?_)
      (hplaced.read_le hws (by omega)) hws.total _
    rw [h44]
    show (44 : ℤ) ≤ Options.wide.normalize.normalize.readLimit
    decide

end

end LSMEngine.Format
