import LSMEngine.Wal.Model.Codec
/-!
# WAL — decoding what was encoded

Each decoder against its encoder, with arbitrary bytes behind what it
reads. A record of less than `2 ^ 32` bytes decodes to its entry, and so
does a payload of such records; a block decodes to its payload when the
cap admits it; a segment header reads back. Of the three, a block and a
header cut short are told from whole ones: a proper part of a block
decodes as corrupt and consumes everything, which is what a crash leaves
at the end of a file.
-/

namespace LSMEngine.Wal

variable {α β : Type}
variable {p : Bytes} {cap : UInt32}

/-! ## Records -/

/-- The bytes of an entry's record. -/
def recordBytes (e : Entry) : Bytes := (newRecordBufferOwned e).bytes

/-- The size of an entry's record. -/
def recordSize (e : Entry) : ℕ := (newRecordBufferOwned e).total

theorem recordSize_eq (e : Entry) : recordSize e = 21 + e.key.length + e.value.length := by
  simp only [recordSize, newRecordBufferOwned, recordHeaderSize, recordCRCSize]
  omega

@[simp] theorem length_recordHeader (e : Entry) : (recordHeader e).length = 17 := by
  simp [recordHeader]

@[simp] theorem length_recordBytes (e : Entry) : (recordBytes e).length = recordSize e := by
  rw [recordSize_eq]
  simp only [recordBytes, RecordBuffer.bytes, newRecordBufferOwned, List.length_append,
    length_recordHeader, length_leBytes]
  omega

theorem recordBytes_append (e : Entry) (p : Bytes) :
    recordBytes e ++ p = flagsOf e :: (leBytes 8 e.seq.toNat ++ (leBytes 4 e.key.length ++
      (leBytes 4 e.value.length ++ (e.key ++ (e.value ++
        (leBytes 4 (crc32 (recordHeader e ++ e.key ++ e.value)).toNat ++ p)))))) := by
  simp only [recordBytes, RecordBuffer.bytes, newRecordBufferOwned, recordHeader,
    List.append_assoc, List.cons_append]

section Fields

variable (e : Entry) (p : Bytes)

theorem recordFlags_append : recordFlags (recordBytes e ++ p) = flagsOf e := by
  rw [recordBytes_append, recordFlags, List.headD_cons]

theorem recordSeq_append : recordSeq (recordBytes e ++ p) = e.seq := by
  rw [recordBytes_append, recordSeq, List.drop_succ_cons, List.drop_zero,
    List.take_left' (length_leBytes _ _), leNat_leBytes_uint64, UInt64.ofNat_toNat]

theorem recordKeyLen_append (h : recordSize e < 2 ^ 32) :
    recordKeyLen (recordBytes e ++ p) = e.key.length := by
  rw [recordSize_eq] at h
  rw [recordBytes_append, recordKeyLen, List.drop_succ_cons,
    List.drop_left' (length_leBytes _ _), List.take_left' (length_leBytes _ _),
    leNat_leBytes_of_lt (by omega)]

theorem recordValLen_append (h : recordSize e < 2 ^ 32) :
    recordValLen (recordBytes e ++ p) = e.value.length := by
  have hdrop : ∀ (a b c : Bytes), a.length = 8 → b.length = 4 →
      (a ++ (b ++ c)).drop 12 = c := by
    intro a b c ha hb
    rw [← List.append_assoc, List.drop_left' (by rw [List.length_append, ha, hb])]
  rw [recordSize_eq] at h
  rw [recordBytes_append, recordValLen, List.drop_succ_cons,
    hdrop _ _ _ (length_leBytes _ _) (length_leBytes _ _), List.take_left' (length_leBytes _ _),
    leNat_leBytes_of_lt (by omega)]

theorem recordBodyLen_append (h : recordSize e < 2 ^ 32) :
    recordBodyLen (recordBytes e ++ p) = (recordHeader e ++ e.key ++ e.value).length := by
  rw [recordBodyLen, recordKeyLen_append e p h, recordValLen_append e p h]
  simp only [recordHeaderSize, List.length_append, length_recordHeader]

end Fields

theorem flagsOf_and_one (e : Entry) : decide (flagsOf e &&& 1 = 1) = e.tombstone := by
  cases h : e.tombstone <;> simp [flagsOf, h]

/-- **A record decodes to its entry**, and decoding goes on behind it. -/
theorem scanRecords_append (build : Bytes → Bytes → Bool → UInt64 → α) (e : Entry) (p : Bytes)
    (h : recordSize e < 2 ^ 32) :
    scanRecords build (recordBytes e ++ p) =
      .cons (build e.key e.value e.tombstone e.seq) (scanRecords build p) := by
  have hsize := recordSize_eq e
  have hlen : (recordBytes e ++ p).length = recordSize e + p.length := by
    rw [List.length_append, length_recordBytes]
  have hbody := recordBodyLen_append e p h
  have hbodyLen : (recordHeader e ++ e.key ++ e.value).length + 4 = recordSize e := by
    simp only [List.length_append, length_recordHeader]; omega
  have hsplit : recordBytes e ++ p = (recordHeader e ++ e.key ++ e.value) ++
      (leBytes 4 (crc32 (recordHeader e ++ e.key ++ e.value)).toNat ++ p) := by
    simp only [recordBytes, RecordBuffer.bytes, newRecordBufferOwned, List.append_assoc]
  have hkey : ((recordBytes e ++ p).drop recordHeaderSize).take e.key.length = e.key := by
    rw [hsplit, List.append_assoc, List.append_assoc, recordHeaderSize,
      List.drop_left' (length_recordHeader e), List.take_left]
  have hval : ((recordBytes e ++ p).drop (recordHeaderSize + e.key.length)).take e.value.length
      = e.value := by
    rw [hsplit, List.append_assoc, List.drop_left' (by rw [List.length_append,
      length_recordHeader, recordHeaderSize]), List.take_left]
  have hcrc : leNat (((recordBytes e ++ p).drop (recordBodyLen (recordBytes e ++ p))).take
      recordCRCSize) = (crc32 ((recordBytes e ++ p).take
        (recordBodyLen (recordBytes e ++ p)))).toNat := by
    rw [hbody, hsplit, List.drop_left, List.take_left, recordCRCSize,
      List.take_left' (length_leBytes _ _), leNat_leBytes_uint32]
  have hrest : (recordBytes e ++ p).drop (recordBodyLen (recordBytes e ++ p) + recordCRCSize)
      = p := by
    rw [hbody]
    exact List.drop_left' (by rw [length_recordBytes, ← hbodyLen, recordCRCSize])
  have hne : recordBytes e ++ p ≠ [] := by
    rw [← List.length_pos_iff, hlen]; omega
  rw [scanRecords, if_neg hne, if_neg (by rw [hlen, recordHeaderSize, recordCRCSize]; omega),
    if_neg, if_neg (by rw [hbody, recordCRCSize, hbodyLen, hlen]; omega),
    if_neg (not_not_intro hcrc), hrest, recordKeyLen_append e p h, recordValLen_append e p h,
    recordFlags_append, recordSeq_append, flagsOf_and_one, hkey, hval]
  rw [recordKeyLen_append e p h, recordValLen_append e p h, hlen,
    Nat.mod_eq_of_lt (by omega), recordHeaderSize, recordCRCSize]
  omega

/-- The payload of the entries' records. -/
def payloadOf (es : List Entry) : Bytes := es.flatMap recordBytes

theorem payloadOf_cons (e : Entry) (es : List Entry) :
    payloadOf (e :: es) = recordBytes e ++ payloadOf es := by
  simp only [payloadOf, List.flatMap_cons]

theorem length_payloadOf (es : List Entry) :
    (payloadOf es).length = (es.map recordSize).sum := by
  induction es with
  | nil => rfl
  | cons e es ih =>
    rw [payloadOf_cons, List.length_append, ih, length_recordBytes, List.map_cons, List.sum_cons]

theorem scanRecords_nil (build : Bytes → Bytes → Bool → UInt64 → α) :
    scanRecords build [] = .ok [] := by
  rw [scanRecords, if_pos rfl]

/-- **A payload decodes to its entries**, in order. -/
theorem decodeRecords_payloadOf (es : List Entry) (h : (payloadOf es).length < 2 ^ 32) :
    decodeRecords (payloadOf es) = .ok es := by
  induction es with
  | nil => exact scanRecords_nil _
  | cons e es ih =>
    rw [payloadOf_cons, List.length_append, length_recordBytes] at h
    have ih := ih (by omega)
    unfold decodeRecords at ih ⊢
    rw [payloadOf_cons, scanRecords_append _ e _ (by omega), ih]
    rfl

/-- The entry of the record a payload starts with. -/
def recordEntry (p : Bytes) : Entry where
  key := (p.drop recordHeaderSize).take (recordKeyLen p)
  value := (p.drop (recordHeaderSize + recordKeyLen p)).take (recordValLen p)
  tombstone := recordFlags p &&& 1 = 1
  seq := recordSeq p

/-- **What decodes is a record at a time.** -/
theorem decodeRecords_eq_ok {es : List Entry} (h : decodeRecords p = .ok es) :
    p = [] ∧ es = [] ∨ ∃ rest, es = recordEntry p :: rest ∧ 21 ≤ recordBodyLen p + 4 ∧
      recordBodyLen p + 4 ≤ p.length ∧
      decodeRecords (p.drop (recordBodyLen p + 4)) = .ok rest := by
  unfold decodeRecords at h
  rw [scanRecords] at h
  split at h
  · next hp =>
    cases h
    exact .inl ⟨hp, rfl⟩
  split at h
  · cases h
  split at h
  · cases h
  split at h
  · cases h
  next hlen =>
  split at h
  · cases h
  cases hrest : scanRecords Entry.mk (p.drop (recordBodyLen p + recordCRCSize)) with
  | corrupt => rw [hrest] at h; cases h
  | panic => rw [hrest] at h; cases h
  | ok rest =>
    rw [hrest] at h
    cases h
    refine .inr ⟨rest, rfl, ?_, Nat.le_of_not_lt hlen, hrest⟩
    simp only [recordBodyLen, recordHeaderSize]
    omega

/-- The lengths in a whole record are those of its entry. -/
theorem recordEntry_lengths (h : recordBodyLen p + 4 ≤ p.length) :
    (recordEntry p).key.length = recordKeyLen p ∧
      (recordEntry p).value.length = recordValLen p := by
  simp only [recordBodyLen, recordHeaderSize] at h
  simp only [recordEntry, recordHeaderSize, List.length_take, List.length_drop]
  omega

/-- An entry takes as much room in a payload as its record. -/
theorem recordSize_le_of_decodeRecords {es : List Entry} {e : Entry} (h : decodeRecords p = .ok es)
    (he : e ∈ es) : recordSize e ≤ p.length := by
  induction es generalizing p with
  | nil => cases he
  | cons e' es ih =>
    rcases decodeRecords_eq_ok h with ⟨-, hnil⟩ | ⟨rest, heq, -, hlen, hrest⟩
    · cases hnil
    obtain ⟨rfl, rfl⟩ := List.cons.inj heq
    rcases List.mem_cons.mp he with rfl | he
    · obtain ⟨hkey, hval⟩ := recordEntry_lengths hlen
      rw [recordSize_eq, hkey, hval]
      rw [recordBodyLen, recordHeaderSize] at hlen
      omega
    · have := ih hrest he
      rw [List.length_drop] at this
      omega

/-! ## Views

`DecodeRecordViews` builds the view of the entry `DecodeRecords`
builds. -/

/-- What decoding comes to when every entry is passed through `f`. -/
def Records.map (f : α → β) : Records α → Records β
  | .ok as => .ok (as.map f)
  | .corrupt => .corrupt
  | .panic => .panic

theorem Records.map_cons (f : α → β) (a : α) (rs : Records α) :
    (rs.cons a).map f = (rs.map f).cons (f a) := by
  cases rs <;> rfl

/-- **The two decoders agree** on what decodes, and up to the view on
what it decodes to. -/
theorem decodeRecordViews_eq (p : Bytes) :
    decodeRecordViews p = (decodeRecords p).map Entry.view := by
  unfold decodeRecordViews decodeRecords
  fun_induction scanRecords Entry.mk p with
  | case1 => exact scanRecords_nil _
  | case2 p h₁ h₂ => rw [scanRecords, if_neg h₁, if_pos h₂]; rfl
  | case3 p h₁ h₂ h₃ => rw [scanRecords, if_neg h₁, if_neg h₂, if_pos h₃]; rfl
  | case4 p h₁ h₂ h₃ h₄ => rw [scanRecords, if_neg h₁, if_neg h₂, if_neg h₃, if_pos h₄]; rfl
  | case5 p h₁ h₂ h₃ h₄ h₅ =>
    rw [scanRecords, if_neg h₁, if_neg h₂, if_neg h₃, if_neg h₄, if_pos h₅]; rfl
  | case6 p h₁ h₂ h₃ h₄ h₅ ih =>
    rw [scanRecords, if_neg h₁, if_neg h₂, if_neg h₃, if_neg h₄, if_neg h₅, ih,
      Records.map_cons]
    rfl

/-! ## Blocks -/

/-- The block around a payload. -/
def frameBlock (payload : Bytes) : Bytes :=
  blockMagic ++ (leBytes 4 payload.length ++ (leBytes 4 (crc32 payload).toNat ++ payload))

/-- The cap of a block reader lets a payload of this length through. -/
def Admits (cap : UInt32) (n : ℕ) : Prop := n < 2 ^ 32 ∧ (0 < cap.toNat → n ≤ cap.toNat)

@[simp] theorem length_frameBlock (payload : Bytes) :
    (frameBlock payload).length = 12 + payload.length := by
  simp only [frameBlock, blockMagic, List.length_append, length_leBytes, List.length_cons,
    List.length_nil]
  omega

/-- What `WriteBlock` writes for a list of entries is the block around
their payload. -/
theorem encodeBlock_eq_frameBlock {es : List Entry} (h : es ≠ []) :
    encodeBlock (es.map newRecordBufferOwned) = frameBlock (payloadOf es) := by
  have hpayload : blockPayload (es.map newRecordBufferOwned) = payloadOf es := by
    simp only [blockPayload, payloadOf, List.flatMap_map]
    rfl
  have htotal : ((es.map newRecordBufferOwned).map RecordBuffer.total).sum
      = (payloadOf es).length := by
    rw [length_payloadOf, List.map_map]
    rfl
  rw [encodeBlock, if_neg (by simpa using h), hpayload, htotal, frameBlock]
  simp only [List.append_assoc]

theorem decodeBlockAfterMagic_append (h : Admits cap p.length) (r : Bytes) :
    decodeBlockAfterMagic
      (leBytes 4 p.length ++ (leBytes 4 (crc32 p).toNat ++ (p ++ r))) cap = (some p, r) := by
  have hlen : leNat (leBytes 4 p.length) = p.length := leNat_leBytes_of_lt h.1
  have hcrc : leNat (leBytes 4 (crc32 p).toNat) = (crc32 p).toNat :=
    leNat_leBytes_uint32 _
  have hcap : ¬(0 < cap.toNat ∧ cap.toNat < p.length) := by
    rintro ⟨hpos, hlt⟩
    exact absurd (h.2 hpos) (Nat.not_le.mpr hlt)
  simp only [decodeBlockAfterMagic, readFull_append (length_leBytes _ _), hlen, hcrc,
    readFull_append rfl, if_neg hcap, ne_eq, not_true_eq_false, if_false]

/-- **A block decodes to its payload**, whatever follows it. -/
theorem decodeBlock_append (h : Admits cap p.length) (r : Bytes) :
    decodeBlock (frameBlock p ++ r) cap = .payload p r := by
  have hsplit : frameBlock p ++ r = blockMagic ++
      (leBytes 4 p.length ++ (leBytes 4 (crc32 p).toNat ++ (p ++ r))) := by
    simp only [frameBlock, List.append_assoc]
  simp only [hsplit, decodeBlock, readFull_append (show blockMagic.length = 4 from rfl), ne_eq,
    not_true_eq_false, if_false, decodeBlockAfterMagic_append h]

theorem decodeBlock_nil (cap : UInt32) : decodeBlock [] cap = .eof := by
  simp [decodeBlock, readFull]

theorem decodeBlockAfterMagic_take (h : Admits cap p.length) {k : ℕ} (hk : k < 8 + p.length) :
    decodeBlockAfterMagic
      ((leBytes 4 p.length ++ (leBytes 4 (crc32 p).toNat ++ p)).take k) cap = (none, []) := by
  have hlen : leNat (leBytes 4 p.length) = p.length := leNat_leBytes_of_lt h.1
  have hcap : ¬(0 < cap.toNat ∧ cap.toNat < p.length) := by
    rintro ⟨hpos, hlt⟩
    exact absurd (h.2 hpos) (Nat.not_le.mpr hlt)
  have hshort : ∀ {n : ℕ} {r : Bytes}, r.length < n →
      readFull n r = .eof ∨ readFull n r = .unexpectedEOF := by
    intro n r hr
    rw [readFull, if_neg (by omega)]
    split
    · exact .inl rfl
    · exact .inr rfl
  rcases Nat.lt_or_ge k 4 with hk4 | hk4
  · -- the cut is in the length
    have hr : ((leBytes 4 p.length ++ (leBytes 4 (crc32 p).toNat ++ p)).take k).length < 4 := by
      rw [List.length_take]; omega
    rcases hshort hr with he | he <;> simp only [decodeBlockAfterMagic, he]
  · obtain ⟨k, rfl⟩ := Nat.exists_eq_add_of_le hk4
    rw [take_add_append (length_leBytes _ _)]
    simp only [decodeBlockAfterMagic, readFull_append (length_leBytes _ _)]
    rcases Nat.lt_or_ge k 4 with hk8 | hk8
    · -- in the checksum
      have hr : ((leBytes 4 (crc32 p).toNat ++ p).take k).length < 4 := by
        rw [List.length_take]; omega
      rcases hshort hr with he | he <;> simp only [he]
    · -- in the payload
      obtain ⟨k, rfl⟩ := Nat.exists_eq_add_of_le hk8
      rw [take_add_append (length_leBytes _ _)]
      simp only [readFull_append (length_leBytes _ _), hlen, if_neg hcap]
      have hr : (p.take k).length < p.length := by rw [List.length_take]; omega
      rcases hshort hr with he | he <;> simp only [he]

/-- **A block cut short is corrupt**, and nothing is left behind it. -/
theorem decodeBlock_take (h : Admits cap p.length) {k : ℕ} (hpos : 0 < k) (hk : k < 12 + p.length) :
    decodeBlock ((frameBlock p).take k) cap = .corrupt [] := by
  rcases Nat.lt_or_ge k 4 with hk4 | hk4
  · have hlen : ((frameBlock p).take k).length = k := by
      rw [List.length_take, length_frameBlock]; omega
    have hne : (frameBlock p).take k ≠ [] := by
      rw [← List.length_pos_iff, hlen]; exact hpos
    simp only [decodeBlock, readFull, hlen, if_neg (Nat.not_le.mpr hk4), if_neg hne]
  · obtain ⟨k, rfl⟩ := Nat.exists_eq_add_of_le hk4
    have hsplit : (frameBlock p).take (4 + k) = blockMagic ++
        (leBytes 4 p.length ++ (leBytes 4 (crc32 p).toNat ++ p)).take k := by
      rw [frameBlock, take_add_append (show blockMagic.length = 4 from rfl)]
    simp only [hsplit, decodeBlock, readFull_append (show blockMagic.length = 4 from rfl), ne_eq,
      not_true_eq_false, if_false, decodeBlockAfterMagic_take h (show k < 8 + p.length by omega)]

/-- **Only a block decodes.** -/
theorem eq_of_decodeBlockAfterMagic {r rest : Bytes}
    (h : decodeBlockAfterMagic r cap = (some p, rest)) :
    r = leBytes 4 p.length ++ (leBytes 4 (crc32 p).toNat ++ (p ++ rest)) ∧
      Admits cap p.length := by
  unfold decodeBlockAfterMagic at h
  split at h
  · next lenBuf r₁ h₁ =>
    obtain ⟨rfl, hlen⟩ := readFull_eq_ok h₁
    split at h
    · next crcBuf r₂ h₂ =>
      obtain ⟨rfl, hcrc⟩ := readFull_eq_ok h₂
      split at h
      · cases h
      · next hcap =>
        split at h
        · next payload r₃ h₃ =>
          obtain ⟨rfl, hp⟩ := readFull_eq_ok h₃
          split at h
          · cases h
          · next hsum =>
            cases h
            have hlt := leNat_lt lenBuf
            rw [hlen] at hlt
            rw [ne_eq, not_not] at hsum
            have hlenBuf : leBytes 4 p.length = lenBuf := by
              rw [hp]
              exact hlen ▸ leBytes_leNat lenBuf
            have hcrcBuf : leBytes 4 (crc32 p).toNat = crcBuf := by
              rw [hsum]
              exact hcrc ▸ leBytes_leNat crcBuf
            refine ⟨by rw [hlenBuf, hcrcBuf], by omega, fun hpos => ?_⟩
            rw [hp]
            exact Nat.not_lt.mp fun hgt => hcap ⟨hpos, hgt⟩
        · cases h
    · cases h
  · cases h

theorem eq_of_decodeBlock {r rest : Bytes} (h : decodeBlock r cap = .payload p rest) :
    r = frameBlock p ++ rest ∧ Admits cap p.length := by
  unfold decodeBlock at h
  split at h
  · cases h
  · cases h
  · next magic r₁ h₁ =>
    obtain ⟨rfl, -⟩ := readFull_eq_ok h₁
    split at h
    · cases h
    · next hmagic =>
      split at h
      · cases h
      · next hd =>
        cases h
        obtain ⟨rfl, hadm⟩ := eq_of_decodeBlockAfterMagic hd
        refine ⟨?_, hadm⟩
        rw [not_not.mp hmagic]
        simp only [frameBlock, List.append_assoc]

/-! ## Segment headers -/

@[simp] theorem length_segmentFields (b : UInt32) (id t : UInt64) :
    (segmentFields b id t).length = 21 := by
  simp only [segmentFields, List.length_cons, List.length_append, length_leBytes]

@[simp] theorem length_encodeSegmentHeader (b : UInt32) (id t : UInt64) :
    (encodeSegmentHeader b id t).length = 29 := by
  simp only [encodeSegmentHeader, segmentMagic, List.length_append, length_segmentFields,
    length_leBytes, List.length_cons, List.length_nil]

/-- **A segment header reads back**, whatever follows it. -/
theorem readSegmentHeader_append (b : UInt32) (id t : UInt64) (r : Bytes) :
    readSegmentHeader (encodeSegmentHeader b id t ++ r) = .ok (⟨1, b, id, t⟩, r) := by
  have hbytes : encodeSegmentHeader b id t = 0x4C :: 0x53 :: 0x4D :: 0x57 :: 1 ::
      (leBytes 4 b.toNat ++ (leBytes 8 id.toNat ++ (leBytes 8 t.toNat ++
        leBytes 4 (crc32 (segmentFields b id t)).toNat))) := by
    simp only [encodeSegmentHeader, segmentMagic, segmentFields, recordVersion,
      List.append_assoc, List.cons_append, List.nil_append]
  have hfields : ((encodeSegmentHeader b id t).drop 4).take 21 = segmentFields b id t := by
    rw [encodeSegmentHeader, List.append_assoc]
    exact List.take_left' (length_segmentFields b id t)
  have hcrc : (encodeSegmentHeader b id t).drop 25
      = leBytes 4 (crc32 (segmentFields b id t)).toNat := by
    rw [encodeSegmentHeader]
    exact List.drop_left' (by rw [List.length_append, length_segmentFields]; rfl)
  have hb : ((encodeSegmentHeader b id t).drop 5).take 4 = leBytes 4 b.toNat := by
    rw [hbytes]
    exact List.take_left' (length_leBytes _ _)
  have hid : ((encodeSegmentHeader b id t).drop 9).take 8 = leBytes 8 id.toNat := by
    rw [hbytes]
    simp only [List.drop_succ_cons]
    rw [List.drop_left' (length_leBytes _ _), List.take_left' (length_leBytes _ _)]
  have ht : ((encodeSegmentHeader b id t).drop 17).take 8 = leBytes 8 t.toNat := by
    rw [hbytes]
    simp only [List.drop_succ_cons]
    rw [← List.append_assoc, List.drop_left' (by simp only [List.length_append, length_leBytes]),
      List.take_left' (length_leBytes _ _)]
  have hmagic : (encodeSegmentHeader b id t).take 4 = segmentMagic := by rw [hbytes]; rfl
  have hversion : ((encodeSegmentHeader b id t).drop 4).headD 0 = recordVersion := by
    rw [hbytes]; rfl
  simp only [readSegmentHeader, segmentHeaderSize,
    readFull_append (length_encodeSegmentHeader b id t), hmagic, hversion, hfields, hcrc, hb, hid,
    ht, leNat_leBytes_uint32, leNat_leBytes_uint64, ne_eq, not_true_eq_false, if_false,
    UInt32.ofNat_toNat, UInt64.ofNat_toNat]
  rfl

/-- What a header that reads has at its places. -/
theorem eq_of_readSegmentHeader {r rest : Bytes} {hdr : SegmentHeader}
    (h : readSegmentHeader r = .ok (hdr, rest)) :
    29 ≤ r.length ∧ rest = r.drop 29 ∧ r.take 4 = segmentMagic ∧
      (r.drop 4).headD 0 = recordVersion ∧
      hdr.blockSize.toNat = leNat ((r.drop 5).take 4) := by
  unfold readSegmentHeader at h
  split at h
  · cases h
  · cases h
  next buf rest' hfull =>
  obtain ⟨rfl, hlen⟩ := readFull_eq_ok hfull
  rw [segmentHeaderSize] at hlen
  split at h
  · cases h
  next hmagic =>
  split at h
  · cases h
  next hversion =>
  split at h
  · cases h
  cases h
  have hdrop : ∀ k, k ≤ 29 → (buf ++ rest).drop k = buf.drop k ++ rest := by
    intro k hk
    rw [List.drop_append_of_le_length (by omega)]
  have htake : ∀ (x : Bytes) k, k ≤ x.length → (x ++ rest).take k = x.take k := by
    intro x k hk
    rw [List.take_append_of_le_length hk]
  refine ⟨by rw [List.length_append]; omega, ?_, ?_, ?_, ?_⟩
  · rw [← hlen, List.drop_left]
  · rw [htake buf 4 (by omega)]
    exact not_not.mp hmagic
  · rw [hdrop 4 (by omega)]
    cases hb : buf.drop 4 with
    | nil =>
      have := congrArg List.length hb
      rw [List.length_drop, List.length_nil] at this
      omega
    | cons b bs =>
      rw [hb] at hversion
      exact not_not.mp hversion
  · have hlt := leNat_lt ((buf.drop 5).take 4)
    rw [hdrop 5 (by omega), htake _ 4 (by rw [List.length_drop]; omega)]
    rw [List.length_take, List.length_drop, Nat.min_eq_left (by omega)] at hlt
    simp only [UInt32.toNat_ofNat']
    exact Nat.mod_eq_of_lt hlt

/-- A file shorter than a header has none. -/
theorem readSegmentHeader_of_length_lt {r : Bytes} (h : r.length < 29) :
    ∃ e, readSegmentHeader r = .error e := by
  rw [readSegmentHeader, readFull, segmentHeaderSize, if_neg (Nat.not_le.mpr h)]
  by_cases hr : r = []
  · exact ⟨_, by rw [if_pos hr]⟩
  · exact ⟨_, by rw [if_neg hr]⟩

end LSMEngine.Wal
