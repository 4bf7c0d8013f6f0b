import LSMEngine.Format.Placed
/-!
# Format — the filters of a file

The filter over some entries rules out none of them (`filterOf_spec`),
and the loop that writes a filter for each partition lists one for each
(`writeFilterPartitions_spec`), as long as no bit array has a length in
bits that is zero in 32 bits.
-/

namespace LSMEngine.Format

/-- The bit array for so many keys can be made, and its length in bits is
not a multiple of `2 ^ 32`. -/
def FilterFits (keys bitsPerKey : ℤ) : Prop :=
  canMake 1 (filterByteLen keys bitsPerKey) ∧
    UInt32.ofNat ((filterByteLen keys bitsPerKey).toNat * 8) ≠ 0

instance (keys bitsPerKey : ℤ) : Decidable (FilterFits keys bitsPerKey) :=
  inferInstanceAs (Decidable (_ ∧ _))

section

variable {o : Options}

theorem filterOf_none (hbits : o.bloomBitsPerKey ≤ 0) (entries : List Entry) :
    filterOf o entries = .ok none := by
  rw [filterOf, newFilter, if_pos (.inr hbits)]
  rfl

/-- **The filter of some entries** has room for its probes and rules out
none of them. -/
theorem filterOf_spec {entries : List Entry} (hne : entries ≠ []) (hbits : 0 < o.bloomBitsPerKey)
    (h : FilterFits entries.length o.bloomBitsPerKey) :
    ∃ f, filterOf o entries = .ok (some f) ∧ f.bits ≠ [] ∧
      f.bits.length = (filterByteLen entries.length o.bloomBitsPerKey).toNat ∧ Covers f entries := by
  have hpos : 0 < entries.length := List.length_pos_of_ne_nil hne
  have hmake := newFilter_eq (Int.natCast_pos.mpr hpos) hbits h.1
  generalize hf : (⟨List.replicate (filterByteLen entries.length o.bloomBitsPerKey).toNat 0,
    filterProbes o.bloomBitsPerKey⟩ : Filter) = f at hmake
  have hlength : f.bits.length = (filterByteLen entries.length o.bloomBitsPerKey).toNat := by
    rw [← hf, List.length_replicate]
  have hbitLen : f.bitLen ≠ 0 := by
    rw [Filter.bitLen, hlength]
    exact h.2
  obtain ⟨g, hg, hgrows, hprobed⟩ := Filter.addAll_spec hbitLen (entries.map Entry.key)
  refine ⟨g, ?_, fun hnil => ?_, hgrows.length.trans hlength, ?_, fun e he => ?_⟩
  · rw [filterOf, hmake, ok_bind]
    dsimp only
    rw [hg]
    rfl
  · apply hbitLen
    rw [Filter.bitLen, ← hgrows.length, hnil]
    rfl
  · exact fun key => Filter.mayContain_ok (hgrows.bitLen ▸ hbitLen) key
  · rw [Filter.mayContain, hgrows.k]
    exact Filter.mayContainLoop_of_probed (hprobed e.key (List.mem_map_of_mem he))

/-- The block of the filter over some entries. -/
def filterBlock (o : Options) (entries : List Entry) : Bytes :=
  match filterOf o entries with
  | .ok f => plainBlock (encodeFilter f) .filter
  | .error _ => []

theorem length_plainBlock (payload : Bytes) (typ : BlockType) :
    (plainBlock payload typ).length = payload.length + 14 := length_encodeBlock _ _ _ _

/-- **The loop over the partitions** writes a filter for each. -/
theorem writeFilterPartitions_spec {index : List IndexEntry} {w : Listing}
    {parts done : List Blocks} (before : Blocks)
    (hbits : 0 < o.bloomBitsPerKey) (hne : ∀ p ∈ parts, p ≠ [] ∧ ∀ b ∈ p, b.flatten ≠ [])
    (hfits : ∀ p ∈ parts, FilterFits p.flatten.flatten.length o.bloomBitsPerKey)
    (hindex : index.map IndexEntry.key = (before ++ parts.flatten).map blockKey)
    (hw : Lists partKey (fun p => filterBlock o p.flatten.flatten) w done) :
    ∃ w', writeFilterPartitions o index before.length
        (parts.map (List.map fun b => b.flatten.length)) parts.flatten.flatten.flatten w = .ok w' ∧
      w'.writes = w.writes ++ parts.map (fun p => filterBlock o p.flatten.flatten) ∧
      Lists partKey (fun p => filterBlock o p.flatten.flatten) w' (done ++ parts) := by
  -- the partitions done are `before`, and the entries left are those of `parts`
  induction parts generalizing w done before with
  | nil => exact ⟨w, rfl, (List.append_nil _).symm, by rwa [List.append_nil]⟩
  | cons p parts ih =>
    obtain ⟨hp, hblocks⟩ := hne p List.mem_cons_self
    obtain ⟨b, bs, rfl⟩ := List.exists_cons_of_ne_nil hp
    obtain ⟨f, hf, -⟩ := filterOf_spec (flatten_flatten_ne_nil hp hblocks) hbits
      (hfits _ List.mem_cons_self)
    have hsum : ((b :: bs).map fun b => b.flatten.length).sum = (b :: bs).flatten.flatten.length := by
      rw [List.flatten_flatten, List.length_flatten, List.map_map]
      rfl
    have hentries : ((b :: bs) :: parts).flatten.flatten.flatten =
        (b :: bs).flatten.flatten ++ parts.flatten.flatten.flatten := by
      show ((b :: bs) ++ parts.flatten).flatten.flatten = _
      rw [List.flatten_append, List.flatten_append]
    -- the key of a partition is that of its first block in the index
    have hentry : ∃ e, index[before.length]? = some e ∧ e.key = partKey (b :: bs) := by
      have hget : (index.map IndexEntry.key)[before.length]? = some (blockKey b) := by
        rw [hindex, List.map_append, List.flatten_cons, List.getElem?_append_right (by simp),
          List.length_map, Nat.sub_self]
        rfl
      rw [List.getElem?_map, Option.map_eq_some_iff] at hget
      obtain ⟨e, he, hkey⟩ := hget
      exact ⟨e, he, hkey.trans (partKey_cons (hblocks b List.mem_cons_self) bs).symm⟩
    obtain ⟨e, he, hkey⟩ := hentry
    have hstore : plainBlock (encodeFilter (some f)) .filter =
        filterBlock o (b :: bs).flatten.flatten := by rw [filterBlock, hf]
    obtain ⟨w', hw', hwrites, hlists⟩ := ih (before ++ (b :: bs))
      (fun q hq => hne q (List.mem_cons_of_mem _ hq)) (fun q hq => hfits q (List.mem_cons_of_mem _ hq))
      (by rw [hindex, List.flatten_cons, List.append_assoc]) (hw.write (b :: bs))
    refine ⟨w', ?_, ?_, ?_⟩
    · rw [List.map_cons, writeFilterPartitions, hsum, hentries, List.take_left, List.drop_left, hf,
        ok_bind]
      dsimp only
      rw [he, hstore]
      dsimp only
      rw [hkey, List.length_map]
      rw [List.length_append] at hw'
      exact hw'
    · rw [hwrites, Listing.write, List.append_assoc, List.singleton_append, List.map_cons]
    · rwa [List.append_assoc, List.singleton_append] at hlists

end

end LSMEngine.Format
