import LSMEngine.Format.Fields
/-!
# Format — frames read back

Reading back what was written: the payload of a block in its frame,
whatever its compression, and the index, the metadata and the footer
where their lengths fit their fields.
-/

namespace LSMEngine.Format

/-! ## Frames -/

section

variable (payload : Bytes) (typ : BlockType) (c : Compression)

theorem length_frameBody (n : UInt32) :
    (frameBody payload typ c n).length = payload.length + 10 := by
  simp only [frameBody, frameMagic, List.length_append, List.length_cons, List.length_nil,
    length_leBytes]
  omega

/-- A frame takes 14 bytes. -/
theorem length_encodeBlock (n : UInt32) :
    (encodeBlock payload typ c n).length = payload.length + 14 := by
  rw [encodeBlock, List.length_append, length_frameBody, length_leBytes]

/-- The fields of a frame. -/
def frameFields (n : UInt32) : List Bytes :=
  [frameMagic, [compressionID c], leBytes 4 n.toNat, payload, [typ.byte],
    leBytes 4 (crc32c (frameBody payload typ c n)).toNat]

theorem encodeBlock_eq (n : UInt32) :
    encodeBlock payload typ c n = (frameFields payload typ c n).flatten := by
  simp [encodeBlock, frameBody, frameFields]

end

/-- The compression the reader finds. -/
def normalCompression (c : Compression) : Compression :=
  if c = .snappy then .snappy else .none

theorem compressionFromID_compressionID (c : Compression) :
    compressionFromID (compressionID c) = .ok (normalCompression c) := by
  cases c <;> rfl

theorem decodeFrameHeader_encodeBlock (payload : Bytes) (typ typ' : BlockType) (c : Compression)
    (n : UInt32) :
    decodeFrameHeader (encodeBlock payload typ c n) typ' = .ok ⟨9, normalCompression c, n⟩ := by
  have hlen := length_encodeBlock payload typ c n
  have hmagic : (encodeBlock payload typ c n).take blockMagicSize = frameMagic := by
    rw [encodeBlock_eq]
    rfl
  have hid : byteAt (encodeBlock payload typ c n) blockMagicSize = .ok (compressionID c) := by
    rw [encodeBlock_eq]
    exact byteAt_field (k := 1) rfl rfl
  have hn : uint32At (encodeBlock payload typ c n) (blockMagicSize + 1) = .ok n := by
    rw [encodeBlock_eq]
    exact uint32At_value (k := 2) rfl rfl
  rw [decodeFrameHeader, if_pos ⟨by rw [hlen, blockHeaderSize]; omega, hmagic⟩, hid, ok_bind,
    compressionFromID_compressionID, ok_bind, hn, ok_bind]
  rfl

/-- The length a compressed payload is checked against is its own. -/
theorem decompressPayload_eq {P : Platform} {payload z : Bytes} {n : UInt32}
    (h : compressPayload P payload .snappy = .ok (z, n)) :
    decompressPayload P z .snappy n = .ok payload := by
  unfold compressPayload at h
  dsimp only at h
  split at h
  · cases h
  · next hz =>
    obtain ⟨rfl, rfl⟩ := Prod.mk.inj (Except.ok.inj h)
    rw [decompressPayload]
    simp only [P.snappy.decode_encode _ _ hz]
    exact if_neg fun hne => hne.2 rfl

/-- What is compressed is short, and nothing else changes. -/
theorem lt_or_eq_of_compressPayload {P : Platform} {payload z : Bytes} {n : UInt32}
    {c : Compression} (h : compressPayload P payload c = .ok (z, n)) :
    payload.length < 2 ^ 32 ∨ z = payload := by
  unfold compressPayload at h
  split at h
  · split at h
    · cases h
    · next hz => exact .inl (P.snappy.length_lt _ _ hz)
  · exact .inr (Prod.mk.inj (Except.ok.inj h)).1.symm

/-- **A block read back from its frame** is the payload. -/
theorem decodeBlockPayload_encodeBlock {P : Platform} {payload z : Bytes} {n : UInt32}
    {c : Compression} (h : compressPayload P payload c = .ok (z, n)) (typ : BlockType)
    (err : Fault) : decodeBlockPayload P (encodeBlock z typ c n) typ err = .ok payload := by
  have hlen := length_encodeBlock z typ c n
  have hbody := length_frameBody z typ c n
  have hoff : (encodeBlock z typ c n).length - blockTypeSize - blockCRCLen = z.length + 9 := by
    rw [hlen, blockTypeSize, blockCRCLen]
    omega
  have hcrcoff : (encodeBlock z typ c n).length - blockCRCLen = z.length + 10 := by
    rw [hlen, blockCRCLen]
    omega
  have hbyte : byteAt (encodeBlock z typ c n) (z.length + 9) = .ok typ.byte := by
    rw [encodeBlock_eq]
    refine byteAt_field (k := 4) rfl ?_
    simp [frameFields, frameMagic]
    omega
  have hcrc : uint32At (encodeBlock z typ c n) (z.length + 10) =
      .ok (crc32c (frameBody z typ c n)) := by
    rw [encodeBlock_eq]
    refine uint32At_value (k := 5) rfl ?_
    simp [frameFields, frameMagic]
    omega
  have hcover : sub (encodeBlock z typ c n) 0 (z.length + 10) = .ok (frameBody z typ c n) :=
    sub_head _ hbody
  have hpayload : sub (encodeBlock z typ c n) 9 (z.length + 9) = .ok z := by
    rw [encodeBlock_eq]
    exact sub_field (k := 3) rfl rfl (Nat.add_comm _ _)
  rw [decodeBlockPayload]
  simp only [hoff, hcrcoff]
  rw [failIf_neg (by rw [hlen, blockTypeSize, blockCRCLen]; omega), ok_bind, hbyte, ok_bind,
    failIf_neg (not_not.mpr rfl), ok_bind, hcrc, ok_bind, hcover, ok_bind,
    failIf_neg (not_not.mpr rfl), ok_bind, decodeFrameHeader_encodeBlock, ok_bind]
  simp only
  rw [failIf_neg (by omega), ok_bind, hpayload, ok_bind]
  by_cases hc : c = .snappy
  · subst hc
    exact (if_neg (by decide)).trans (decompressPayload_eq h)
  · -- any other compression leaves the payload as it is
    have hz : z = payload ∧ n = UInt32.ofNat payload.length := by
      unfold compressPayload at h
      split at h
      · exact absurd rfl hc
      · obtain ⟨rfl, rfl⟩ := Prod.mk.inj (Except.ok.inj h)
        exact ⟨rfl, rfl⟩
    obtain ⟨rfl, rfl⟩ := hz
    rw [normalCompression, if_neg hc, if_pos rfl, failIf_neg (fun hne => hne.2.2 rfl)]
    rfl

/-! ## The index -/

theorem length_encodeIndexEntry (e : IndexEntry) :
    (encodeIndexEntry e).length = e.key.length + 16 := by
  simp only [encodeIndexEntry, List.length_append, length_leBytes]
  omega

theorem decodeIndexLoop_eq (pre : Bytes) {entries : List IndexEntry} {fuel : ℕ}
    (hfuel : entries.length ≤ fuel) (hkeys : ∀ e ∈ entries, e.key.length < 2 ^ 32) :
    decodeIndexLoop (pre ++ encodeIndex entries) fuel pre.length = .ok entries := by
  induction entries generalizing pre fuel with
  | nil =>
    cases fuel with
    | zero => rfl
    | succ fuel =>
      rw [decodeIndexLoop, if_pos]
      rw [encodeIndex, List.flatMap_nil, List.append_nil]
  | cons e entries ih =>
    obtain ⟨fuel, rfl⟩ : ∃ n, fuel = n + 1 := ⟨fuel - 1, by rw [List.length_cons] at hfuel; omega⟩
    rw [List.length_cons] at hfuel
    have hrest := ih (pre ++ encodeIndexEntry e) (Nat.le_of_succ_le_succ hfuel)
      fun e' he' => hkeys e' (List.mem_cons_of_mem _ he')
    have hfields : pre ++ encodeIndex (e :: entries) = [pre, leBytes 4 e.key.length,
        leBytes 8 e.offset.toNat, leBytes 4 e.length.toNat, e.key, encodeIndex entries].flatten := by
      simp [encodeIndex, encodeIndexEntry]
    rw [List.append_assoc, List.length_append, length_encodeIndexEntry] at hrest
    have hk := toNat_ofNat_uint32 (hkeys e List.mem_cons_self)
    have htotal : (pre ++ encodeIndex (e :: entries)).length =
        pre.length + (16 + e.key.length) + (encodeIndex entries).length := by
      rw [hfields]
      simp
      omega
    have h₀ : uint32At (pre ++ encodeIndex (e :: entries)) pre.length =
        .ok (UInt32.ofNat e.key.length) := by
      rw [hfields]
      exact uint32At_field (k := 1) rfl (by simp)
    have h₁ : uint64At (pre ++ encodeIndex (e :: entries)) (pre.length + 4) = .ok e.offset := by
      rw [hfields]
      exact uint64At_field (k := 2) rfl (by simp)
    have h₂ : uint32At (pre ++ encodeIndex (e :: entries)) (pre.length + 12) = .ok e.length := by
      rw [hfields]
      exact uint32At_value (k := 3) rfl (by simp)
    have h₃ : sub (pre ++ encodeIndex (e :: entries)) (pre.length + 16)
        (pre.length + 16 + e.key.length) = .ok e.key := by
      rw [hfields]
      exact sub_field (k := 4) rfl (by simp) rfl
    rw [decodeIndexLoop, if_neg (by rw [htotal]; omega),
      failIf_neg (by rw [htotal, indexHeaderSize]; omega), ok_bind, h₀, ok_bind, h₁, ok_bind, h₂,
      ok_bind]
    simp only [hk, indexHeaderSize]
    rw [failIf_neg (by rw [htotal]; omega), ok_bind, h₃, ok_bind,
      show pre.length + 16 + e.key.length = pre.length + (e.key.length + 16) by omega,
      show pre ++ encodeIndex (e :: entries) = pre ++ (encodeIndexEntry e ++ encodeIndex entries)
        from rfl, hrest, ok_bind]
    rfl

/-- **The index read back.** -/
theorem decodeIndex_encodeIndex {entries : List IndexEntry}
    (hkeys : ∀ e ∈ entries, e.key.length < 2 ^ 32) :
    decodeIndex (encodeIndex entries) = .ok entries := by
  refine decodeIndexLoop_eq [] ?_ hkeys
  rw [encodeIndex, List.length_flatMap]
  clear hkeys
  induction entries with
  | nil => exact le_rfl
  | cons e entries ih =>
    rw [List.map_cons, List.sum_cons, List.length_cons, length_encodeIndexEntry]
    omega

/-! ## Metadata -/

theorem length_encodeMeta (m : Meta) :
    (encodeMeta m).length = 48 + (m.minKey.length + m.maxKey.length) := by
  simp only [encodeMeta, List.length_append, length_leBytes, List.length_singleton]
  omega

/-- The fields of the metadata. -/
def metaFields (m : Meta) : List Bytes :=
  [leBytes 4 m.minKey.length, leBytes 4 m.maxKey.length, leBytes 8 m.entryCount.toNat,
    leBytes 8 m.seqMin.toNat, leBytes 8 m.seqMax.toNat, [compressionID m.compression],
    leBytes 2 m.bloomBits.toNat, [m.bloomK], leBytes 8 m.bloomOffset.toNat,
    leBytes 4 m.bloomLen.toNat, m.minKey, m.maxKey]

theorem encodeMeta_eq (m : Meta) : encodeMeta m = (metaFields m).flatten := by
  simp [encodeMeta, metaFields]

/-- **The metadata read back**, where the lengths of the two keys add up
in 32 bits. -/
theorem decodeMeta_encodeMeta {m : Meta} (h : m.minKey.length + m.maxKey.length < 2 ^ 32) :
    decodeMeta (encodeMeta m) = .ok { m with compression := normalCompression m.compression } := by
  have hlen := length_encodeMeta m
  have hmin := toNat_ofNat_uint32 (n := m.minKey.length) (by omega)
  have hmax := toNat_ofNat_uint32 (n := m.maxKey.length) (by omega)
  have hsum : (UInt32.ofNat m.minKey.length + UInt32.ofNat m.maxKey.length).toNat =
      m.minKey.length + m.maxKey.length := by
    rw [UInt32.toNat_add, hmin, hmax, Nat.mod_eq_of_lt h]
  have h₀ : uint32At (encodeMeta m) 0 = .ok (UInt32.ofNat m.minKey.length) := by
    rw [encodeMeta_eq]
    exact uint32At_field (k := 0) rfl rfl
  have h₁ : uint32At (encodeMeta m) 4 = .ok (UInt32.ofNat m.maxKey.length) := by
    rw [encodeMeta_eq]
    exact uint32At_field (k := 1) rfl rfl
  have h₂ : uint64At (encodeMeta m) 8 = .ok m.entryCount := by
    rw [encodeMeta_eq]
    exact uint64At_field (k := 2) rfl rfl
  have h₃ : uint64At (encodeMeta m) 16 = .ok m.seqMin := by
    rw [encodeMeta_eq]
    exact uint64At_field (k := 3) rfl rfl
  have h₄ : uint64At (encodeMeta m) 24 = .ok m.seqMax := by
    rw [encodeMeta_eq]
    exact uint64At_field (k := 4) rfl rfl
  have h₅ : byteAt (encodeMeta m) 32 = .ok (compressionID m.compression) := by
    rw [encodeMeta_eq]
    exact byteAt_field (k := 5) rfl rfl
  have h₆ : uint16At (encodeMeta m) 33 = .ok m.bloomBits := by
    rw [encodeMeta_eq]
    exact uint16At_field (k := 6) rfl rfl
  have h₇ : byteAt (encodeMeta m) 35 = .ok m.bloomK := by
    rw [encodeMeta_eq]
    exact byteAt_field (k := 7) rfl rfl
  have h₈ : uint64At (encodeMeta m) 36 = .ok m.bloomOffset := by
    rw [encodeMeta_eq]
    exact uint64At_field (k := 8) rfl rfl
  have h₉ : uint32At (encodeMeta m) 44 = .ok m.bloomLen := by
    rw [encodeMeta_eq]
    exact uint32At_value (k := 9) rfl rfl
  have hminKey : sub (encodeMeta m) 48 (48 + m.minKey.length) = .ok m.minKey := by
    rw [encodeMeta_eq]
    exact sub_field (k := 10) rfl rfl rfl
  have hmaxKey : sub (encodeMeta m) (48 + m.minKey.length)
      (48 + m.minKey.length + m.maxKey.length) = .ok m.maxKey := by
    rw [encodeMeta_eq]
    refine sub_field (k := 11) rfl ?_ rfl
    simp [metaFields]
    omega
  rw [decodeMeta, failIf_neg (by rw [hlen, metaHeaderSize]; omega)]
  simp only [ok_bind, h₀, h₁, h₂, h₃, h₄, h₅, h₆, h₇, h₈, h₉, compressionFromID_compressionID,
    hsum, hmin, hmax, metaHeaderSize]
  rw [failIf_neg (by rw [hlen]; omega), ok_bind, hminKey, ok_bind, hmaxKey, ok_bind]
  rfl

/-! ## The footer -/

theorem length_footerBody (f : Footer) : (footerBody f).length = 32 := by
  simp only [footerBody, List.length_append, length_leBytes]
  rfl

theorem length_encodeFooter (f : Footer) : (encodeFooter f).length = 36 := by
  rw [encodeFooter, List.length_append, length_footerBody, length_leBytes]

/-- The fields of the footer. -/
def footerFields (f : Footer) : List Bytes :=
  [fileMagic, [1], [f.flags], [0, 0], leBytes 8 f.indexOffset.toNat, leBytes 4 f.indexLen.toNat,
    leBytes 8 f.metaOffset.toNat, leBytes 4 f.metaLen.toNat,
    leBytes 4 (crc32c (footerBody f)).toNat]

theorem encodeFooter_eq (f : Footer) : encodeFooter f = (footerFields f).flatten := by
  simp [encodeFooter, footerBody, footerFields]

/-- **The footer read back.** -/
theorem decodeFooter_encodeFooter (f : Footer) : decodeFooter (encodeFooter f) = .ok f := by
  have hcrc : uint32At (encodeFooter f) 32 = .ok (crc32c (footerBody f)) := by
    rw [encodeFooter_eq]
    exact uint32At_value (k := 8) rfl rfl
  have hbody : sub (encodeFooter f) 0 32 = .ok (footerBody f) := sub_head _ (length_footerBody f)
  have hmagic : (encodeFooter f).take 4 = fileMagic := by
    rw [encodeFooter_eq]
    rfl
  have hflags : byteAt (encodeFooter f) 5 = .ok f.flags := by
    rw [encodeFooter_eq]
    exact byteAt_field (k := 2) rfl rfl
  have h₁ : uint64At (encodeFooter f) 8 = .ok f.indexOffset := by
    rw [encodeFooter_eq]
    exact uint64At_field (k := 4) rfl rfl
  have h₂ : uint32At (encodeFooter f) 16 = .ok f.indexLen := by
    rw [encodeFooter_eq]
    exact uint32At_value (k := 5) rfl rfl
  have h₃ : uint64At (encodeFooter f) 20 = .ok f.metaOffset := by
    rw [encodeFooter_eq]
    exact uint64At_field (k := 6) rfl rfl
  have h₄ : uint32At (encodeFooter f) 28 = .ok f.metaLen := by
    rw [encodeFooter_eq]
    exact uint32At_value (k := 7) rfl rfl
  rw [decodeFooter, failIf_neg (not_not.mpr (length_encodeFooter f)), ok_bind,
    failIf_neg (not_not.mpr hmagic), ok_bind, hcrc, ok_bind, hbody, ok_bind,
    failIf_neg (not_not.mpr rfl), ok_bind, hflags, ok_bind, h₁, ok_bind, h₂, ok_bind, h₃, ok_bind,
    h₄, ok_bind]
  rfl

end LSMEngine.Format
