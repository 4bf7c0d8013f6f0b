import LSMEngine.Format.Layout
import LSMEngine.Format.Served
/-!
# Format — blocks that are in the file

A write of the file that an entry of an index names is what the source
reads for it (`PlacedAt.fileSource_eq`), as long as its length and its
end can be counted. So a frame gives its payload back and a data block
its groups (`PlacedAt.readDataBlock_eq`), and no two writes share an
offset (`PlacedAt.unique`).
-/

namespace LSMEngine.Format

variable {gs : List (List Entry)}

/-! ## Writes -/

/-- The writes make up a file whose parts can be counted: in 63 bits all
of it, and none of them is empty. -/
structure Counted (ws : List Bytes) : Prop where
  total : ws.flatten.length < 2 ^ 63
  nonempty : ∀ x ∈ ws, x ≠ []

theorem int64_of_lt {n : ℕ} (h : n < 2 ^ 63) : int64 n = n := by
  rw [int64, Int.bmod_eq_of_le] <;> omega

theorem offsetOf_toNat {as bs : List Bytes} (h : Counted (as ++ bs)) :
    (offsetOf as).toNat = as.flatten.length := by
  have htotal := h.total
  rw [List.flatten_append, List.length_append] at htotal
  rw [offsetOf, UInt64.toNat_ofNat_of_lt']
  have h64 : UInt64.size = 2 ^ 64 := rfl
  omega

section

variable {ws : List Bytes} {e e' : IndexEntry} {x x' : Bytes}

section

variable (h : PlacedAt ws e x) (hws : Counted ws)
include h hws

/-- What is read of a write ends inside the file. -/
theorem PlacedAt.read_le (hle : e.length.toNat ≤ x.length) :
    e.offset.toNat + e.length.toNat ≤ ws.flatten.length := by
  obtain ⟨as, bs, rfl, hoff, -⟩ := h
  rw [hoff, offsetOf_toNat hws, List.flatten_append, List.flatten_cons, List.length_append,
    List.length_append]
  omega

/-- The end of a write. -/
theorem PlacedAt.end_le (hx : x.length < 2 ^ 32) :
    e.length.toNat = x.length ∧ e.offset.toNat + e.length.toNat ≤ ws.flatten.length := by
  have hlength : e.length.toNat = x.length := by
    obtain ⟨as, bs, -, -, hlen⟩ := h
    rw [hlen, toNat_ofNat_uint32 hx]
  exact ⟨hlength, h.read_le hws hlength.le⟩

/-- A write whose length may be stored short: what is read is its start. -/
theorem PlacedAt.fileSource_take (hne : e.length ≠ 0) (hle : e.length.toNat ≤ x.length) :
    fileSource ws.flatten e.offset e.length = .ok (x.take e.length.toNat) := by
  have hend := h.read_le hws hle
  obtain ⟨as, bs, rfl, hoff, -⟩ := h
  have htotal := hws.total
  have hoffset : e.offset.toNat = as.flatten.length := by rw [hoff, offsetOf_toNat hws]
  have hsplit : (as ++ x :: bs).flatten = as.flatten ++
      (x.take e.length.toNat ++ (x.drop e.length.toNat ++ bs.flatten)) := by
    rw [List.flatten_append, List.flatten_cons, ← List.append_assoc (x.take _), List.take_append_drop]
  have hint : int64 ((e.offset.toNat : ℤ) + e.length.toNat) = e.offset.toNat + e.length.toNat := by
    rw [← Nat.cast_add]
    exact int64_of_lt (hend.trans_lt htotal)
  have hfits : ¬ ((as ++ x :: bs).flatten.length < e.offset.toNat ∨
      ((as ++ x :: bs).flatten.length : ℤ) < int64 ((e.offset.toNat : ℤ) + e.length.toNat)) := by
    rw [hint]
    omega
  rw [fileSource, if_neg hne, if_neg hfits, hsplit,
    slice_append hoffset (by rw [List.length_take, min_eq_left hle])]

/-- **A write is read back.** -/
theorem PlacedAt.fileSource_eq (hx : x.length < 2 ^ 32) :
    fileSource ws.flatten e.offset e.length = .ok x := by
  have hlength := (h.end_le hws hx).1
  have hpos : 0 < x.length := by
    obtain ⟨as, bs, rfl, -⟩ := h
    exact List.length_pos_of_ne_nil (hws.nonempty x (List.mem_append_right _ List.mem_cons_self))
  have hne : e.length ≠ 0 := fun h0 => by
    rw [h0, UInt32.toNat_zero] at hlength
    omega
  rw [h.fileSource_take hws hne hlength.le, hlength, List.take_length]

end

/-- A write at the start of which as much is written as before another
one, that comes no earlier, is that one. -/
theorem eq_of_flatten_length {as bs cs bs' : List Bytes} (hx : x ≠ [])
    (hsplit : x :: bs = cs ++ x' :: bs')
    (hcount : as.flatten.length = (as ++ cs).flatten.length) : x = x' := by
  cases cs with
  | nil => exact (List.cons.inj hsplit).1
  | cons c cs =>
    have hpos := List.length_pos_of_ne_nil hx
    rw [(List.cons.inj hsplit).1, List.flatten_append, List.flatten_cons, List.length_append,
      List.length_append] at *
    omega

/-- **No two writes share an offset.** -/
theorem PlacedAt.unique (h : PlacedAt ws e x) (h' : PlacedAt ws e' x') (hws : Counted ws)
    (hoffset : e.offset = e'.offset) : e.length = e'.length := by
  obtain ⟨as, bs, hsplit, hoff, hlen⟩ := h
  obtain ⟨as', bs', hsplit', hoff', hlen'⟩ := h'
  have hcount : as.flatten.length = as'.flatten.length := by
    rw [← offsetOf_toNat (hsplit ▸ hws), ← offsetOf_toNat (hsplit' ▸ hws), ← hoff, ← hoff', hoffset]
  have hx : x ≠ [] := hws.nonempty x (hsplit ▸ List.mem_append_right _ List.mem_cons_self)
  have hx' : x' ≠ [] := hws.nonempty x' (hsplit' ▸ List.mem_append_right _ List.mem_cons_self)
  have heq : x = x' := by
    rcases List.append_eq_append_iff.mp (hsplit.symm.trans hsplit') with ⟨cs, rfl, hcs⟩ | ⟨cs, rfl, hcs⟩
    · exact eq_of_flatten_length hx hcs hcount
    · exact (eq_of_flatten_length hx' hcs hcount.symm).symm
  rw [hlen, hlen', heq]

/-! ## Frames -/

variable {P : Platform} {payload z : Bytes} {n : UInt32} {c : Compression} {typ : BlockType}

/-- **A frame gives its payload back.** -/
theorem PlacedAt.readBlockPayload_eq (h : PlacedAt ws e (encodeBlock z typ c n)) (hws : Counted ws)
    (hpack : compressPayload P payload c = .ok (z, n))
    (hlen : (encodeBlock z typ c n).length < 2 ^ 32) (errBad : Fault) :
    readBlockPayload P (fileSource ws.flatten) e.offset e.length typ errBad = .ok payload := by
  rw [readBlockPayload, h.fileSource_eq hws hlen]
  exact decodeBlockPayload_encodeBlock hpack typ errBad

/-- A block that is not compressed. -/
theorem PlacedAt.readPlainBlock_eq (h : PlacedAt ws e (plainBlock payload typ)) (hws : Counted ws)
    (hlen : (plainBlock payload typ).length < 2 ^ 32) (errBad : Fault) :
    readBlockPayload P (fileSource ws.flatten) e.offset e.length typ errBad = .ok payload :=
  PlacedAt.readBlockPayload_eq h hws rfl hlen errBad

/-! ## Data blocks -/

/-- A key takes no more room than its group and the key before it. -/
theorem length_key_le (last : Bytes) {es : List Entry} {d : Entry} (hd : d ∈ es) :
    d.key.length ≤ last.length + (encodePieces (piecesFrom last es)).length ∧
      d.value.length ≤ (encodePieces (piecesFrom last es)).length := by
  induction es generalizing last with
  | nil => exact absurd hd List.not_mem_nil
  | cons a es ih =>
    have hshared := congrArg List.length (take_commonPrefixLen last a.key)
    have hle := commonPrefixLen_le last a.key
    rw [List.length_take, List.length_take] at hshared
    rw [piecesFrom, encodePieces_cons, List.length_append, length_encodeEntry]
    dsimp only
    rcases List.mem_cons.mp hd with rfl | hd
    · constructor <;> omega
    · have := ih a.key hd
      constructor <;> omega

/-- The entries of a block are no longer than its data. -/
theorem length_entry_le {d : Entry} (hd : d ∈ gs.flatten) :
    d.key.length ≤ (blockData gs).length ∧ d.value.length ≤ (blockData gs).length := by
  obtain ⟨g, hg, hmem⟩ := List.mem_flatten.mp hd
  obtain ⟨as, bs, rfl⟩ := List.append_of_mem hg
  have hgroup := length_key_le [] hmem
  have hle : (encodePieces (piecesFrom [] g)).length ≤ (blockData (as ++ g :: bs)).length := by
    rw [blockData, pieces, List.flatMap_append, List.flatMap_cons, encodePieces_append,
      encodePieces_append, List.length_append, List.length_append]
    omega
  rw [List.length_nil] at hgroup
  constructor <;> omega

theorem length_blockData_le (gs : List (List Entry)) :
    (blockData gs).length ≤ (payloadOf gs).length := by
  rw [payloadOf, List.length_append]
  omega

/-- A block whose payload is short has short entries. -/
theorem sized_of_payload (hne : gs ≠ []) (hgs : ∀ g ∈ gs, g ≠ [])
    (hlen : (payloadOf gs).length < 2 ^ 32) : Sized gs := by
  have hdata := (length_blockData_le gs).trans_lt hlen
  refine ⟨hne, hgs, fun d hd => ?_, hdata⟩
  have hle := length_entry_le hd
  exact ⟨by omega, by omega⟩

/-- A builder that holds the groups. -/
theorem exists_holds (hgs : ∀ g ∈ gs, g ≠ []) : ∃ b : Builder, b.Holds gs :=
  ⟨{ newBuilder 0 false 0 0 with
      buf := blockData gs
      restartOffsets := (groupOffsets 0 gs).map UInt32.ofNat
      entryCount := gs.flatten.length
      first := ((gs.flatten.find? fun e => e.key ≠ []).map Entry.key).getD []
      lastKey := (gs.flatten.getLast?.map Entry.key).getD [] }, hgs, rfl, rfl, rfl, rfl, rfl⟩

/-- **The payload of a block decodes to its groups.** -/
theorem decode_payloadOf (h : Sized gs) (hlen : (payloadOf gs).length < 2 ^ 32) :
    decode (payloadOf gs) = .ok (blockOf gs) := by
  obtain ⟨b, hb⟩ := exists_holds h.nonempty
  rw [← finish_eq_payloadOf hb]
  exact decode_finish hb h.short (hb.buf ▸ (length_blockData_le gs).trans_lt hlen)

/-- **A data block is read back.** -/
theorem PlacedAt.readDataBlock_eq {o : Options} (h : PlacedAt ws e (encodedBlock P o gs))
    (hws : Counted ws) (hpacks : Packs P o gs) (hsized : Sized gs)
    (hpayload : (payloadOf gs).length < 2 ^ 32) (hlen : (encodedBlock P o gs).length < 2 ^ 32) :
    readDataBlock P (fileSource ws.flatten) e = .ok (blockOf gs) := by
  obtain ⟨z, n, hz⟩ := hpacks
  have hblock : encodedBlock P o gs = encodeBlock z .data o.compression n := by
    rw [encodedBlock, hz]
  rw [hblock] at h hlen
  rw [readDataBlock, h.readBlockPayload_eq hws hz hlen]
  exact decode_payloadOf hsized hpayload

end

end LSMEngine.Format
