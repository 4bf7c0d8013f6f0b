import LSMEngine.Format.Bounds
import LSMEngine.Format.Truncated
/-!
# Format — opening a file of any bytes

Every decoder that `openReader` runs checks what it reads against its
buffer, and all but one of them do it in integers that cannot overflow.
`DecodeMeta` adds the lengths of the two keys in 32 bits: where the sum
wraps around, it passes the check against the bytes that are left, and
the keys are then sliced out of the buffer's bounds
(`returns_decodeMeta`). This is the one way for a file to make
`openReader` panic (`openReader_ne_panic_iff`).
-/

namespace LSMEngine.Format

variable {P : Platform} {src : Source} {data payload : Bytes}

/-- A slice that may end behind the buffer. -/
theorem returns_sub_of {E : Fault → Prop} {b : Bytes} {i j : ℕ} (hij : i ≤ j)
    (hE : b.length < j → E .panic) : Returns E (fun _ => j ≤ b.length) (sub b i j) := by
  by_cases hj : j ≤ b.length
  · exact (returns_sub hij hj).mono fun _ _ => hj
  · rw [sub, slice, if_neg fun h => hj h.2]
    exact .error (hE (not_le.mp hj))

/-! ## Frames -/

section

/-! Errors of these are neither panics nor the end of a file. -/

variable {E : Fault → Prop} (hE : ∀ f, f ≠ .panic → f ≠ .eof → E f)

include hE

theorem returns_compressionFromID (id : UInt8) :
    Returns E (fun _ => True) (compressionFromID id) :=
  .ite (fun _ => .ok trivial) fun _ => .ite (fun _ => .ok trivial) fun _ =>
    .error (hE _ (by simp) (by simp))

theorem returns_decompressPayload (payload : Bytes) (c : Compression) (len : UInt32) :
    Returns E (fun _ => True) (decompressPayload P payload c len) := by
  unfold decompressPayload
  split
  · split
    · exact .error (hE _ (by decide) (by decide))
    · exact .ite (fun _ => .error (hE _ (by decide) (by decide))) fun _ => .ok trivial
  · exact .ok trivial

theorem returns_decodeFrameHeader (data : Bytes) (typ : BlockType) :
    Returns E (fun _ => True) (decodeFrameHeader data typ) := by
  have hmagic : blockMagicSize = 4 := rfl
  have hheader : blockHeaderSize = 9 := rfl
  have hlegacy : blockHeaderSizeLegacy = 5 := rfl
  refine .ite (fun h => ?_) fun _ => .ite (fun h => ?_) fun _ => .pure trivial
  · refine (returns_byteAt (by omega)).bind fun id _ => ?_
    refine (returns_compressionFromID hE id).bind fun comp _ => ?_
    exact (returns_uint32At (by omega)).bind fun len _ => .pure trivial
  · refine (returns_byteAt (by omega)).bind fun id _ => ?_
    refine (returns_compressionFromID hE id).bind fun comp _ => ?_
    exact (returns_uint32At (by omega)).bind fun len _ => .pure trivial

theorem returns_decodeBlockPayload {errChecksum : Fault} (herr : E errChecksum) (data : Bytes)
    (typ : BlockType) : Returns E (fun _ => True) (decodeBlockPayload P data typ errChecksum) := by
  have htype : blockTypeSize = 1 := rfl
  have hcrc : blockCRCLen = 4 := rfl
  refine (returns_failIf fun _ => herr).bind fun _ hlen => ?_
  refine (returns_byteAt (by omega)).bind fun found _ => ?_
  refine (returns_failIf fun _ => herr).bind fun _ _ => ?_
  refine (returns_uint32At (by omega)).bind fun expected _ => ?_
  refine (returns_sub (Nat.zero_le _) (by omega)).bind fun body _ => ?_
  refine (returns_failIf fun _ => herr).bind fun _ _ => ?_
  refine (returns_decodeFrameHeader hE data typ).bind fun h _ => ?_
  refine (returns_failIf fun _ => herr).bind fun _ hsize => ?_
  refine (returns_sub (by omega) (by omega)).bind fun plain _ => ?_
  refine .ite (fun _ => ?_) fun _ =>
    returns_decompressPayload hE plain h.compression h.uncompressedLen
  exact (returns_failIf fun _ => herr).bind fun _ _ => .pure trivial

theorem returns_decodeIndexLoop (fuel pos : ℕ) :
    Returns E (fun _ => True) (decodeIndexLoop data fuel pos) := by
  have hsize : indexHeaderSize = 16 := rfl
  have herr : E .badIndex := hE _ (by decide) (by decide)
  induction fuel generalizing pos with
  | zero => exact .ok trivial
  | succ fuel ih =>
    refine .ite (fun _ => .ok trivial) fun _ => ?_
    refine (returns_failIf fun _ => herr).bind fun _ hlen => ?_
    refine (returns_uint32At (by omega)).bind fun keyLen _ => ?_
    refine (returns_uint64At (by omega)).bind fun offset _ => ?_
    refine (returns_uint32At (by omega)).bind fun length _ => ?_
    refine (returns_failIf fun _ => herr).bind fun _ hkey => ?_
    refine (returns_sub (by omega) (by omega)).bind fun key _ => ?_
    exact (ih _).bind fun entries _ => .pure trivial

end

/-- A partition of the index that cannot be read is not taken for the end
of the index. -/
theorem returns_readIndexBlock (e : IndexEntry) :
    Returns (· ≠ .eof) (fun _ => True) (readIndexBlock P src e) := by
  refine Returns.bind (Q := fun _ => True) (.bind (Q := fun _ => True)
    ⟨fun _ _ => trivial, fun f hf => ?_⟩ fun data _ =>
      returns_decodeBlockPayload (fun _ _ h => h) (by decide) data .index)
    fun payload _ => returns_decodeIndexLoop (fun _ _ h => h) _ _
  unfold eofAs at hf
  split at hf
  · rw [← Except.error.inj hf]
    decide
  · next hne => exact fun heof => hne (heof ▸ hf)

/-- A source that returns errors. -/
def Source.Safe (src : Source) : Prop := ∀ offset length, src offset length ≠ .error .panic

theorem safe_fileSource (file : Bytes) : (fileSource file).Safe := by
  intro offset length
  unfold fileSource
  split
  · decide
  · split
    · decide
    · split <;> simp

theorem safe_readBlockPayload (hsrc : src.Safe) {errBad : Fault} (herr : errBad ≠ .panic)
    (offset : UInt64) (length : UInt32) (typ : BlockType) :
    Safe (fun _ => True) (readBlockPayload P src offset length typ errBad) := by
  refine Returns.bind (Q := fun _ => True) ⟨fun _ _ => trivial, fun f hf => ?_⟩ fun data _ =>
    returns_decodeBlockPayload (fun _ h _ => h) herr data typ
  unfold eofAs at hf
  split at hf
  · exact Except.error.inj hf ▸ herr
  · exact fun hpanic => hsrc offset length (hpanic ▸ hf)

theorem safe_readDataBlock (hsrc : src.Safe) (e : IndexEntry) :
    Safe (fun _ => True) (readDataBlock P src e) := by
  refine (safe_readBlockPayload hsrc (by decide) e.offset e.length .data).bind fun payload _ => ?_
  exact (safe_decode payload).mono fun _ _ => trivial

/-! ## The footer, the index and the filter -/

theorem safe_decodeFooter (buf : Bytes) : Safe (fun _ => True) (decodeFooter buf) := by
  have hsize : footerSizeBytes = 36 := rfl
  refine (safe_failIf (by decide)).bind fun _ hlen => ?_
  refine (safe_failIf (by decide)).bind fun _ _ => ?_
  refine (returns_uint32At (by omega)).bind fun expected _ => ?_
  refine (returns_sub (by omega) (by omega)).bind fun body _ => ?_
  refine (safe_failIf (by decide)).bind fun _ _ => ?_
  refine (returns_byteAt (by omega)).bind fun flags _ => ?_
  refine (returns_uint64At (by omega)).bind fun indexOffset _ => ?_
  refine (returns_uint32At (by omega)).bind fun indexLen _ => ?_
  refine (returns_uint64At (by omega)).bind fun metaOffset _ => ?_
  exact (returns_uint32At (by omega)).bind fun metaLen _ => .pure trivial

theorem safe_decodeFilterBlock (payload : Bytes) :
    Safe (fun _ => True) (decodeFilterBlock payload) := by
  unfold decodeFilterBlock
  split
  · exact .ok trivial
  · exact .error (by decide)

theorem safe_openFilter (hsrc : src.Safe) (m : Meta) (filterPartitioned : Bool) :
    Safe (fun _ => True) (openFilter P src m filterPartitioned) := by
  refine .ite (fun _ => ?_) fun _ => .pure trivial
  refine (safe_readBlockPayload hsrc (by decide) _ _ _).bind fun payload _ => ?_
  refine .ite (fun _ => ?_) fun _ => ?_
  · exact (returns_decodeIndexLoop (fun _ h _ => h) _ _).bind fun entries _ => .pure trivial
  · exact (safe_decodeFilterBlock payload).bind fun f _ => .pure trivial

/-! ## The metadata -/

/-- The sum of the two lengths fits what is left of the payload, but only
because it has wrapped around: the keys do not fit. -/
def LengthsWrap (payload : Bytes) : Prop :=
  metaHeaderSize ≤ payload.length ∧ (payload[32]? = some 0 ∨ payload[32]? = some 1) ∧
    (wordAt payload 0 + wordAt payload 4) % 2 ^ 32 ≤ payload.length - metaHeaderSize ∧
    payload.length - metaHeaderSize < wordAt payload 0 + wordAt payload 4

instance (payload : Bytes) : Decidable (LengthsWrap payload) :=
  inferInstanceAs (Decidable (_ ∧ _))

theorem compressionFromID_eq_ok {id : UInt8} {c : Compression} (h : compressionFromID id = .ok c) :
    id = 0 ∨ id = 1 := by
  unfold compressionFromID at h
  split at h
  · next h0 => exact .inl h0
  · split at h
    · next h1 => exact .inr h1
    · cases h

theorem exists_compressionFromID {id : UInt8} (h : id = 0 ∨ id = 1) :
    ∃ c, compressionFromID id = .ok c := by
  rcases h with rfl | rfl
  · exact ⟨_, rfl⟩
  · exact ⟨_, rfl⟩

/-- **`DecodeMeta` panics exactly where the lengths wrap around**: that
takes the keys out of bounds. -/
theorem returns_decodeMeta (payload : Bytes) :
    Returns (fun f => f = .panic ↔ LengthsWrap payload) (fun _ => ¬ LengthsWrap payload)
      (decodeMeta payload) := by
  have hsize : metaHeaderSize = 48 := rfl
  have hbad : ¬ LengthsWrap payload → (Fault.badMeta = .panic ↔ LengthsWrap payload) :=
    iff_of_false (by decide)
  refine (returns_failIf fun hlt => hbad fun h => not_le.mpr hlt h.1).bind fun _ hlen => ?_
  refine (returns_uint32At (by omega)).bind fun minLen hmin => ?_
  refine (returns_uint32At (by omega)).bind fun maxLen hmax => ?_
  refine (returns_uint64At (by omega)).bind fun entryCount _ => ?_
  refine (returns_uint64At (by omega)).bind fun seqMin _ => ?_
  refine (returns_uint64At (by omega)).bind fun seqMax _ => ?_
  refine (returns_byteAt (by omega)).bind fun id hid => ?_
  split
  · next f hf =>
    refine .error (hbad fun h => ?_)
    obtain ⟨c, hc⟩ : ∃ c, compressionFromID id = .ok c :=
      exists_compressionFromID (by simpa only [hid, Option.some.injEq] using h.2.1)
    rw [hc] at hf
    cases hf
  · next comp hcomp =>
    refine (returns_uint16At (by omega)).bind fun bloomBits _ => ?_
    refine (returns_byteAt (by omega)).bind fun bloomK _ => ?_
    refine (returns_uint64At (by omega)).bind fun bloomOffset _ => ?_
    refine (returns_uint32At (by omega)).bind fun bloomLen _ => ?_
    rw [UInt32.toNat_add, hmin, hmax]
    refine (returns_failIf fun hlt => hbad fun h => not_le.mpr hlt h.2.2.1).bind fun _ hsum => ?_
    have hwrap (hlt : payload.length - metaHeaderSize < wordAt payload 0 + wordAt payload 4) :
        Fault.panic = .panic ↔ LengthsWrap payload := by
      refine iff_of_true rfl ⟨not_lt.mp hlen, ?_, not_lt.mp hsum, hlt⟩
      rw [hid]
      exact (compressionFromID_eq_ok hcomp).imp (congrArg some) (congrArg some)
    refine (returns_sub_of (by omega) fun hlt => hwrap (by omega)).bind fun minKey _ => ?_
    refine (returns_sub_of (by omega) fun hlt => hwrap (by omega)).bind fun maxKey hle => ?_
    exact .pure fun h => absurd h.2.2.2 (by omega)

theorem decodeMeta_of_wraps (h : LengthsWrap payload) : decodeMeta payload = .error .panic := by
  cases hmeta : decodeMeta payload with
  | ok m => exact absurd h ((returns_decodeMeta payload).1 m hmeta)
  | error f => rw [((returns_decodeMeta payload).2 f hmeta).mpr h]

/-! ## The file -/

theorem safe_validate (o : Options) : Safe (fun _ => True) o.validate := by
  unfold Options.validate Options.unsupported
  split
  · exact .error (by simp)
  · exact .error (by simp)
  all_goals
    split
    · exact .error (by simp)
    · exact .error (by simp)
    · split
      · exact .error (by simp)
      · exact .error (by simp)
      all_goals exact .ok trivial

/-- The footer leads to metadata whose lengths wrap around. -/
def MetadataWraps (P : Platform) (src : Source) (size : ℕ) : Prop :=
  ∃ buf ft payload, footerSizeBytes ≤ size ∧
    src (UInt64.ofNat (size - footerSizeBytes)) (UInt32.ofNat footerSizeBytes) = .ok buf ∧
    decodeFooter buf = .ok ft ∧
    readBlockPayload P src ft.metaOffset ft.metaLen .metadata .badMeta = .ok payload ∧
    LengthsWrap payload

theorem openWith_of_wraps {size : ℕ} {o : Options} (hvalid : o.validate = .ok ())
    (h : MetadataWraps P src size) : openWith P src size o = .error .panic := by
  obtain ⟨buf, ft, payload, hsize, hbuf, hft, hpayload, hwrap⟩ := h
  rw [openWith, hvalid, ok_bind, failIf_neg (not_lt.mpr hsize), ok_bind, hbuf, ok_bind, hft,
    ok_bind, hpayload, ok_bind, decodeMeta_of_wraps hwrap]
  rfl

theorem safe_openWith {size : ℕ} {o : Options} (hsrc : src.Safe)
    (h : ¬ (o.validate = .ok () ∧ MetadataWraps P src size)) :
    Safe (fun _ => True) (openWith P src size o) := by
  refine (safe_validate o).eq.bind fun _ hvalid => ?_
  refine (safe_failIf (by decide)).bind fun _ hsize => ?_
  have hread : ∀ offset length, Safe (fun _ => True) (src offset length) := by
    intro offset length
    exact ⟨fun _ _ => trivial, fun f hf hpanic => hsrc offset length (hpanic ▸ hf)⟩
  refine (hread _ _).eq.bind fun buf hbuf => ?_
  refine (safe_decodeFooter buf).eq.bind fun ft hft => ?_
  refine (safe_readBlockPayload hsrc (by decide) _ _ _).eq.bind fun payload hpayload => ?_
  have hmeta : Safe (fun _ => True) (decodeMeta payload) := by
    refine ⟨fun _ _ => trivial, fun f hf hpanic => h ⟨hvalid, buf, ft, payload, not_lt.mp hsize,
      hbuf, hft, hpayload, ((returns_decodeMeta payload).2 f hf).mp hpanic⟩⟩
  refine hmeta.bind fun m _ => ?_
  refine (safe_readBlockPayload hsrc (by decide) _ _ _).bind fun index _ => ?_
  refine (returns_decodeIndexLoop (fun _ h _ => h) _ _).bind fun top _ => ?_
  exact (safe_openFilter hsrc m _).bind fun r _ => .pure trivial

/-- The loop of `DecodeIndex` runs to its end: more turns than there are
bytes left make no difference. -/
theorem decodeIndexLoop_congr {fuel fuel' pos : ℕ} (hfuel : data.length - pos ≤ fuel)
    (hfuel' : data.length - pos ≤ fuel') :
    decodeIndexLoop data fuel pos = decodeIndexLoop data fuel' pos := by
  have hdone : ∀ n pos, data.length ≤ pos → decodeIndexLoop data n pos = .ok [] := by
    intro n pos hle
    cases n with
    | zero => rfl
    | succ n => rw [decodeIndexLoop, if_pos hle]
  have hsize : indexHeaderSize = 16 := rfl
  induction fuel generalizing fuel' pos with
  | zero => rw [hdone _ _ (by omega), hdone _ _ (by omega)]
  | succ fuel ih =>
    rcases fuel' with _ | fuel'
    · rw [hdone _ _ (by omega), hdone _ _ (by omega)]
    · have hrec : ∀ keyLen, decodeIndexLoop data fuel (pos + indexHeaderSize + keyLen) =
          decodeIndexLoop data fuel' (pos + indexHeaderSize + keyLen) := by
        intro keyLen
        exact ih (by omega) (by omega)
      simp only [decodeIndexLoop, hrec]

/-- Metadata with a first key of length 2³² − 1 and a second one of length
one. -/
def wrappingMeta : Bytes := [255, 255, 255, 255, 1, 0, 0, 0] ++ List.replicate 40 0

/-- A file of that metadata and a footer, with the right checksums. -/
def wrappingFile : Bytes :=
  encodeBlock wrappingMeta .metadata .none 48 ++ encodeFooter ⟨0, 0, 0, 0, 62⟩

end LSMEngine.Format
