import LSMEngine.Format.Bounds
import LSMEngine.Format.Search
/-!
# Format — a data block read back

A block gives back what was added to it: a cursor that starts at offset
zero yields all the entries, and one that starts at a restart point
yields the entries from the one stored there on (`block_roundtrip`).
The lengths are compared in 32 bits, and data of exactly four gibibytes
do not decode any more (`decode_longBlock`).
-/

namespace LSMEngine.Format

/-- A builder with the entries added to it. -/
def built (r : ℤ) (adaptive : Bool) (lo hi : ℤ) (es : List Entry) : Builder :=
  es.foldl Builder.add (newBuilder r adaptive lo hi)

/-! ## Scans -/

/-- A scan with a call to spare is done. -/
theorem scan_of_at {data : Bytes} {c : Cursor} {ps : List (ℕ × Entry)} {calls : ℕ}
    (h : At data c ps) (hcalls : ps.length < calls) :
    c.scan data calls = ((ps.map Prod.snd).map Entry.view, .done) := by
  induction calls generalizing c ps with
  | zero => omega
  | succ calls ih =>
    rw [Cursor.scan]
    rcases ps with - | ⟨p, ps⟩
    · rw [h.next_nil]
      rfl
    · obtain ⟨c', hnext, h'⟩ := h.next_cons
      rw [List.length_cons] at hcalls
      rw [hnext]
      dsimp only
      rw [ih h' (by omega)]
      rfl

theorem length_pieces (gs : List (List Entry)) : (pieces gs).length = gs.flatten.length := by
  rw [← map_snd_pieces, List.length_map]

/-- The first entry of a group is stored with its whole key. -/
theorem unshared_restart (as : List (List Entry)) (e : Entry) (g : List Entry)
    (bs : List (List Entry)) :
    uint32At (blockOf (as ++ (e :: g) :: bs)).data (blockData as).length = .ok 0 := by
  have hdata : blockData (as ++ (e :: g) :: bs) = blockData as ++ (entryHeader 0 e.key.length e ++
      (e.key ++ e.value ++ encodePieces (piecesFrom e.key g ++ pieces bs))) := by
    rw [blockData_append, ← List.append_assoc (entryHeader 0 e.key.length e)]
    rfl
  rw [blockOf, hdata]
  exact (fields_entryHeader _ _ 0 e.key.length e).1

/-! ## The round trip -/

theorem holds_built (r : ℤ) (adaptive : Bool) (lo hi : ℤ) (es : List Entry) :
    ∃ gs, (built r adaptive lo hi es).Holds gs ∧ gs.flatten = es := by
  induction es using List.reverseRecOn with
  | nil => exact ⟨[], holds_newBuilder r adaptive lo hi, rfl⟩
  | append_singleton es e ih =>
    obtain ⟨gs, hgs, hflat⟩ := ih
    rw [built, List.foldl_concat]
    exact ⟨_, hgs.add e, by rw [hgs.flatten_addToGroups, hflat]⟩

/-- **A block gives back its entries**, from the start and from every
restart point, and the sizes are exact. -/
theorem block_roundtrip (r : ℤ) (adaptive : Bool) (lo hi : ℤ) {es : List Entry}
    (hshort : ∀ e ∈ es, Short e) (hlen : (built r adaptive lo hi es).buf.length < 2 ^ 32) :
    (∃ blk, decode (built r adaptive lo hi es).finish = .ok blk ∧
      (∀ calls, es.length < calls →
        (newCursor blk 0 blk.dataLen).scan blk.data calls = (es.map Entry.view, .done)) ∧
      ∀ (i : ℕ) (off : UInt32), blk.restarts[i]? = some off → ∃ ds e fs, es = ds ++ e :: fs ∧
        uint32At blk.data off.toNat = .ok 0 ∧ blk.restartKeys[i]? = some e.key ∧
        ∀ calls, (e :: fs).length < calls →
          (newCursor blk off.toNat blk.dataLen).scan blk.data calls =
            ((e :: fs).map Entry.view, .done)) ∧
    ∀ ds e, (built r adaptive lo hi ds).estimatedSizeAfter e =
        (built r adaptive lo hi (ds ++ [e])).sizeBytes ∧
      (built r adaptive lo hi (ds ++ [e])).sizeBytes =
        (built r adaptive lo hi (ds ++ [e])).finish.length := by
  constructor
  · obtain ⟨gs, hgs, rfl⟩ := holds_built r adaptive lo hi es
    refine ⟨blockOf gs, decode_finish hgs hshort hlen, ?_, ?_⟩
    · intro calls hcalls
      rw [← length_pieces] at hcalls
      rw [scan_of_at (at_start hgs.nonempty hshort) hcalls, map_snd_pieces]
    · intro i off hoff
      have hi : i < gs.length := by
        have hlt := (List.getElem?_eq_some_iff.mp hoff).1
        rwa [blockOf, List.length_map, length_groupOffsets] at hlt
      -- the groups up to the restart point, its own, and those behind it
      obtain ⟨as, g, bs, rfl, rfl⟩ : ∃ as g bs, gs = as ++ g :: bs ∧ as.length = i :=
        ⟨gs.take i, gs[i], gs.drop (i + 1), by
          rw [← List.drop_eq_getElem_cons hi, List.take_append_drop], by
          rw [List.length_take]; omega⟩
      have hg : g ≠ [] := hgs.nonempty g (List.mem_append_right _ List.mem_cons_self)
      obtain ⟨e, g, rfl⟩ := List.exists_cons_of_ne_nil hg
      have hat := restartAt_blockOf as (e :: g) bs (hgs.buf ▸ hlen)
      rw [Block.restartAt, hoff, Except.ok.injEq] at hat
      refine ⟨as.flatten, e, g ++ bs.flatten, ?_, ?_, ?_, ?_⟩
      · rw [List.flatten_append, List.flatten_cons, List.cons_append]
      · rw [hat]
        exact unshared_restart as e g bs
      · rw [blockOf, List.map_append, List.getElem?_append_right (by rw [List.length_map]),
          List.length_map, Nat.sub_self]
        rfl
      · intro calls hcalls
        rw [← List.cons_append, ← List.flatten_cons, ← length_pieces] at hcalls
        rw [hat, scan_of_at (at_restart as hg hshort) hcalls, map_snd_pieces]
        rfl
  · intro ds e
    obtain ⟨gs, hgs, hflat⟩ := holds_built r adaptive lo hi (ds ++ [e])
    have hne : gs ≠ [] := by
      rintro rfl
      exact List.append_ne_nil_of_right_ne_nil _ (List.cons_ne_nil _ _) hflat.symm
    refine ⟨?_, (hgs.length_finish hne).symm⟩
    rw [built, built, List.foldl_concat, Builder.Holds.sizeBytes_add]

theorem block_roundtrip_two : ∃ blk,
    decode (built 16 false 16 16 [⟨[1], [2], false, 1⟩, ⟨[1, 3], [], true, 2⟩]).finish =
      .ok blk ∧
    (newCursor blk 0 blk.dataLen).scan blk.data 3 =
      ([⟨[1], [2], false, 1⟩, ⟨[1, 3], [], true, 2⟩], .done) := by
  have hshort : ∀ e ∈ [(⟨[1], [2], false, 1⟩ : Entry), ⟨[1, 3], [], true, 2⟩], Short e := by
    simp [Short]
  obtain ⟨⟨blk, hblk, hscan, -⟩, -⟩ := block_roundtrip 16 false 16 16 hshort (by decide)
  exact ⟨blk, hblk, hscan 3 (by decide)⟩

/-! ## Data that are too long -/

/-- Data of a length that is zero in 32 bits hold no restart point. -/
theorem decode_wraps {b : Builder} {g : List Entry} {gs : List (List Entry)} (h : b.Holds (g :: gs))
    (hgs : (g :: gs).length < 2 ^ 32) (hwrap : b.buf.length % 2 ^ 32 = 0) :
    decode b.finish = .error (.message "sstable: block restart offset out of range") := by
  have hfields : b.finish = [b.buf, leBytes 4 (0 : UInt32).toNat,
      b.restartOffsets.tail.flatMap (fun off => leBytes 4 off.toNat) ++
        leBytes 4 b.restartOffsets.length].flatten := by
    rw [Builder.finish, h.restarts]
    simp [groupOffsets]
  have hoff : uint32At b.finish b.buf.length = .ok 0 := by
    rw [hfields]
    exact uint32At_value (k := 1) rfl (by simp)
  rw [decode_eq h hgs, List.length_cons, readRestarts, hoff, ok_bind, hwrap]
  rfl

/-- **A block of four gibibytes does not decode**, though the entry in it
has a length that fits. -/
theorem decode_longBlock : ∃ e : Entry, Short e ∧
    decode (built 16 false 16 16 [e]).finish =
      .error (.message "sstable: block restart offset out of range") := by
  obtain ⟨value, hvalue⟩ : ∃ value : Bytes, value.length = 2 ^ 32 - 21 :=
    ⟨List.replicate (2 ^ 32 - 21) 0, List.length_replicate⟩
  refine ⟨⟨[], value, false, 0⟩, ⟨Nat.two_pow_pos 32, by rw [hvalue]; omega⟩, ?_⟩
  have hholds := (holds_newBuilder 16 false 16 16).add ⟨[], value, false, 0⟩
  have hbuf : (blockData [[⟨[], value, false, 0⟩]]).length = 2 ^ 32 := by
    rw [show blockData [[⟨[], value, false, 0⟩]] =
        encodeEntry 0 ⟨[], value, false, 0⟩ ++ [] from rfl, List.append_nil, length_encodeEntry]
    dsimp only [List.length_nil]
    omega
  rw [(holds_newBuilder 16 false 16 16).restart_of_nil] at hholds
  have hlen : (built 16 false 16 16 [⟨[], value, false, 0⟩]).buf.length = 2 ^ 32 :=
    (congrArg List.length hholds.buf).trans hbuf
  exact decode_wraps hholds (show 1 < 2 ^ 32 by omega) (by rw [hlen, Nat.mod_self])

end LSMEngine.Format
