import LSMEngine.Format.Fields
import LSMEngine.Format.Model.Bloom
/-!
# Format — filters have no false negatives

Adding keys to a filter only sets bits (`Filter.Grows`), so a key that
was added keeps all its probes set and is never ruled out
(`addAll_spec`). The probes stay inside the array unless its length in
bits is zero in 32 bits, where every probe divides by zero
(`newFilter_sound_iff`).
-/

namespace LSMEngine.Format

variable {f g : Filter} {bitsPerKey : ℤ}

namespace Filter

/-! ## Bits -/

theorem and_or_absorb (a b : UInt8) : a &&& (a ||| b) = a := by
  rw [← UInt8.toBitVec_inj, UInt8.toBitVec_and, UInt8.toBitVec_or]
  ext i hi
  simp only [BitVec.getElem_and, BitVec.getElem_or]
  cases a.toBitVec[i] <;> rfl

/-- The other filter has the shape of this one, and all its bits. -/
structure Grows (f g : Filter) : Prop where
  k : g.k = f.k
  length : g.bits.length = f.bits.length
  bits : ∀ (i : ℕ) (a : UInt8), f.bits[i]? = some a →
    ∃ b : UInt8, g.bits[i]? = some b ∧ b &&& a = a

theorem Grows.refl (f : Filter) : f.Grows f :=
  ⟨rfl, rfl, fun _ a ha => ⟨a, ha, UInt8.and_self⟩⟩

theorem Grows.trans {h : Filter} (hfg : f.Grows g) (hgh : g.Grows h) : f.Grows h := by
  refine ⟨hgh.k.trans hfg.k, hgh.length.trans hfg.length, fun i a ha => ?_⟩
  obtain ⟨b, hb, hba⟩ := hfg.bits i a ha
  obtain ⟨c, hc, hcb⟩ := hgh.bits i b hb
  refine ⟨c, hc, ?_⟩
  rw [← hba, ← UInt8.and_assoc, hcb]

/-- A bit that is set. -/
def IsSet (f : Filter) (bit : ℕ) : Prop :=
  ∃ b, f.bits[bit / 8]? = some b ∧ b &&& mask bit ≠ 0

theorem IsSet.mono {bit : ℕ} (h : f.IsSet bit) (hfg : f.Grows g) : g.IsSet bit := by
  obtain ⟨a, ha, hbit⟩ := h
  obtain ⟨b, hb, hba⟩ := hfg.bits _ a ha
  refine ⟨b, hb, fun hzero => hbit ?_⟩
  rw [← hba, UInt8.and_comm b a, UInt8.and_assoc, hzero, UInt8.and_zero]

theorem mask_ne_zero (bit : ℕ) : mask bit ≠ 0 := by
  have hall : ∀ r < 8, (1 <<< UInt8.ofNat r : UInt8) ≠ 0 := by decide
  exact hall _ (Nat.mod_lt _ (by decide))

/-- Setting a bit. -/
theorem grows_set {bit : ℕ} {byte : UInt8} (h : f.bits[bit / 8]? = some byte) :
    f.Grows { f with bits := f.bits.set (bit / 8) (byte ||| mask bit) } ∧
      IsSet { f with bits := f.bits.set (bit / 8) (byte ||| mask bit) } bit := by
  obtain ⟨hlt, rfl⟩ := List.getElem?_eq_some_iff.mp h
  refine ⟨⟨rfl, List.length_set, fun i a ha => ?_⟩, ?_⟩
  · by_cases hi : bit / 8 = i
    · subst hi
      rw [h] at ha
      refine ⟨_, List.getElem?_set_self hlt, ?_⟩
      rw [← Option.some.inj ha, UInt8.and_comm, and_or_absorb]
    · exact ⟨a, by rw [List.getElem?_set_ne hi]; exact ha, UInt8.and_self⟩
  · refine ⟨_, List.getElem?_set_self hlt, ?_⟩
    rw [UInt8.or_comm, UInt8.and_comm, and_or_absorb]
    exact mask_ne_zero bit

/-! ## Probes -/

/-- A probe lies inside the array. -/
theorem probe_spec (h : f.bitLen ≠ 0) (key : Bytes) (i : ℕ) :
    ∃ bit, f.probe key i = .ok bit ∧ bit / 8 < f.bits.length := by
  refine ⟨_, if_neg h, ?_⟩
  have hn : f.bitLen.toNat = f.bits.length * 8 % 2 ^ 32 := UInt32.toNat_ofNat'
  have hpos : 0 < f.bitLen.toNat := Nat.pos_of_ne_zero fun h0 =>
    h (UInt32.toNat_inj.mp (h0.trans UInt32.toNat_zero.symm))
  have hle : f.bits.length * 8 % 2 ^ 32 ≤ f.bits.length * 8 := Nat.mod_le _ _
  rw [UInt64.toNat_mod, UInt32.toNat_toUInt64]
  have hlt := Nat.mod_lt
    ((hashKey key).1 + UInt64.ofNat i * (hashKey key).2).toNat hpos
  omega

theorem byteOf_spec {bit : ℕ} (h : bit / 8 < f.bits.length) :
    ∃ b, f.byteOf bit = .ok b ∧ f.bits[bit / 8]? = some b := by
  refine ⟨f.bits[bit / 8], ?_, List.getElem?_eq_getElem h⟩
  rw [byteOf, byteAt, List.getElem?_eq_getElem h]

/-- A filter of the same shape has the same probes. -/
theorem Grows.probe (h : f.Grows g) (key : Bytes) (i : ℕ) : g.probe key i = f.probe key i := by
  have hlen : g.bitLen = f.bitLen := congrArg (fun n => UInt32.ofNat (n * 8)) h.length
  rw [Filter.probe, Filter.probe, hlen]

theorem Grows.bitLen (h : f.Grows g) : g.bitLen = f.bitLen :=
  congrArg (fun n => UInt32.ofNat (n * 8)) h.length

/-- The probes of a key are set. -/
def Probed (f : Filter) (key : Bytes) (is : List ℕ) : Prop :=
  ∀ i ∈ is, ∃ bit, f.probe key i = .ok bit ∧ f.IsSet bit

theorem Probed.mono {key : Bytes} {is : List ℕ} (h : f.Probed key is) (hfg : f.Grows g) :
    g.Probed key is := by
  intro i hi
  obtain ⟨bit, hprobe, hset⟩ := h i hi
  exact ⟨bit, (hfg.probe key i).trans hprobe, hset.mono hfg⟩

theorem addLoop_spec (h : f.bitLen ≠ 0) (key : Bytes) (is : List ℕ) :
    ∃ g, f.addLoop key is = .ok g ∧ f.Grows g ∧ g.Probed key is := by
  induction is generalizing f with
  | nil => exact ⟨f, rfl, .refl f, fun i hi => absurd hi List.not_mem_nil⟩
  | cons i is ih =>
    obtain ⟨bit, hprobe, hlt⟩ := probe_spec h key i
    obtain ⟨byte, hbyte, hget⟩ := byteOf_spec hlt
    obtain ⟨hgrows, hset⟩ := grows_set hget
    obtain ⟨g, hg, hgrows', hprobed⟩ := ih (hgrows.bitLen ▸ h)
    refine ⟨g, ?_, hgrows.trans hgrows', fun j hj => ?_⟩
    · rw [addLoop, hprobe, ok_bind, hbyte, ok_bind, hg]
    · rcases List.mem_cons.mp hj with rfl | hj
      · exact ⟨bit, ((hgrows.trans hgrows').probe key j).trans hprobe, hset.mono hgrows'⟩
      · exact hprobed j hj

/-- **Adding keys** sets their probes and keeps what was set. -/
theorem addAll_spec (h : f.bitLen ≠ 0) (keys : List Bytes) :
    ∃ g, f.addAll keys = .ok g ∧ f.Grows g ∧
      ∀ key ∈ keys, g.Probed key (List.range f.k.toNat) := by
  induction keys generalizing f with
  | nil => exact ⟨f, rfl, .refl f, fun key hkey => absurd hkey List.not_mem_nil⟩
  | cons key keys ih =>
    obtain ⟨g, hg, hgrows, hprobed⟩ := addLoop_spec h key (List.range f.k.toNat)
    obtain ⟨g', hg', hgrows', hall⟩ := ih (hgrows.bitLen ▸ h)
    refine ⟨g', ?_, hgrows.trans hgrows', fun key' hkey' => ?_⟩
    · rw [addAll, add, hg, ok_bind, hg']
    · rcases List.mem_cons.mp hkey' with rfl | hmem
      · exact hprobed.mono hgrows'
      · exact hgrows.k ▸ hall key' hmem

/-! ## Lookups -/

theorem mayContainLoop_of_probed {key : Bytes} {is : List ℕ} (h : f.Probed key is) :
    f.mayContainLoop key is = .ok true := by
  induction is with
  | nil => rfl
  | cons i is ih =>
    obtain ⟨bit, hprobe, b, hget, hset⟩ := h i List.mem_cons_self
    have hbyte : f.byteOf bit = .ok b := by rw [byteOf, byteAt, hget]
    rw [mayContainLoop, hprobe, ok_bind, hbyte, ok_bind, if_neg hset]
    exact ih fun j hj => h j (List.mem_cons_of_mem _ hj)

theorem mayContainLoop_ok (h : f.bitLen ≠ 0) (key : Bytes) (is : List ℕ) :
    ∃ b, f.mayContainLoop key is = .ok b := by
  induction is with
  | nil => exact ⟨true, rfl⟩
  | cons i is ih =>
    obtain ⟨bit, hprobe, hlt⟩ := probe_spec h key i
    obtain ⟨byte, hbyte, -⟩ := byteOf_spec hlt
    rw [mayContainLoop, hprobe, ok_bind, hbyte, ok_bind]
    split
    · exact ⟨false, rfl⟩
    · exact ih

/-- A filter with bits in its array answers. -/
theorem mayContain_ok (h : f.bitLen ≠ 0) (key : Bytes) : ∃ b, f.mayContain key = .ok b :=
  mayContainLoop_ok h key _

theorem decodeFilter_encode (h : f.bits ≠ []) : decodeFilter f.encode = some f := by
  obtain ⟨k, bits⟩ := f
  obtain ⟨b, bs, rfl⟩ := List.exists_cons_of_ne_nil h
  rfl

/-- A filter that has probes, but no bits in 32 bits, panics at every
key. -/
theorem panic_of_bitLen (h : f.bitLen = 0) (hk : f.k ≠ 0) (key : Bytes) :
    f.add key = .error .panic ∧ f.mayContain key = .error .panic := by
  have hpos : f.k.toNat ≠ 0 := fun h0 => hk (UInt8.toNat_inj.mp h0)
  obtain ⟨n, hn⟩ := Nat.exists_eq_add_one_of_ne_zero hpos
  rw [add, mayContain, hn, List.range_succ_eq_map, addLoop, mayContainLoop, probe, if_pos h]
  exact ⟨rfl, rfl⟩

theorem bitLen_eq_zero_iff (f : Filter) : f.bitLen = 0 ↔ f.bits.length * 8 % 2 ^ 32 = 0 := by
  rw [bitLen, ← UInt32.toNat_inj, UInt32.toNat_ofNat', UInt32.toNat_zero]

end Filter

/-! ## New filters -/

/-- There is at least one probe. -/
theorem filterProbes_ne_zero (bitsPerKey : ℤ) : filterProbes bitsPerKey ≠ 0 := by
  unfold filterProbes
  dsimp only
  generalize truncate _ = n
  generalize hk : (if 30 < (if n < 1 then 1 else n) then 30 else if n < 1 then 1 else n) = k
  have hrange : 1 ≤ k ∧ k ≤ 30 := by
    rw [← hk]
    split <;> split <;> omega
  intro hzero
  have hmod := congrArg UInt8.toNat hzero
  rw [UInt8.toNat_ofNat', UInt8.toNat_zero] at hmod
  omega

theorem canMake_iff {elemSize n : ℤ} : canMake elemSize n ↔ 0 ≤ n ∧ elemSize * n ≤ 2 ^ 48 :=
  decide_eq_true_iff

/-- A filter that `NewFilter` makes has a probe, and the bytes its two
arguments ask for. -/
theorem k_of_newFilter {keys : ℤ} (h : newFilter keys bitsPerKey = .ok (some f)) :
    f.k ≠ 0 ∧ (f.bits.length : ℤ) = filterByteLen keys bitsPerKey := by
  unfold newFilter at h
  split at h
  · cases h
  · split at h
    · next hmake =>
      cases h
      rw [List.length_replicate]
      exact ⟨filterProbes_ne_zero bitsPerKey, Int.toNat_of_nonneg (canMake_iff.mp hmake).1⟩
    · cases h

/-- What `NewFilter` makes. -/
theorem newFilter_eq {keys : ℤ} (hkeys : 0 < keys) (hbits : 0 < bitsPerKey)
    (hlen : canMake 1 (filterByteLen keys bitsPerKey)) :
    newFilter keys bitsPerKey = .ok (some
      ⟨List.replicate (filterByteLen keys bitsPerKey).toNat 0, filterProbes bitsPerKey⟩) := by
  rw [newFilter, if_neg (by omega), if_pos hlen]

theorem exists_newFilter {keys : ℤ} (hkeys : 0 < keys) (hbits : 0 < bitsPerKey)
    (hlen : canMake 1 (filterByteLen keys bitsPerKey)) :
    ∃ f, newFilter keys bitsPerKey = .ok (some f) ∧
      f.bits.length = (filterByteLen keys bitsPerKey).toNat :=
  ⟨_, newFilter_eq hkeys hbits hlen, List.length_replicate⟩

/-- **Filters have no false negatives and do not fault**, exactly if the
length of the array in bits is not a multiple of `2 ^ 32`; the number of
keys and the bits for each give that length. The filter may be stored and
loaded again at any time. -/
theorem newFilter_sound_iff {keys bitsPerKey : ℤ} {f : Filter}
    (hnew : newFilter keys bitsPerKey = .ok (some f)) :
    ((∀ ks ks' : List Bytes, ∃ g g', f.addAll ks = .ok g ∧ decodeFilter g.encode = some g ∧
      g.addAll ks' = .ok g' ∧ (∀ key, ∃ b, g'.mayContain key = .ok b) ∧
      ∀ key ∈ ks ++ ks', g'.mayContain key = .ok true) ↔
    f.bits.length * 8 % 2 ^ 32 ≠ 0) ∧
    (f.bits.length : ℤ) = filterByteLen keys bitsPerKey := by
  rw [Ne, ← f.bitLen_eq_zero_iff]
  refine ⟨⟨?_, ?_⟩, (k_of_newFilter hnew).2⟩
  · intro hall hzero
    obtain ⟨g, -, hadd, -⟩ := hall [[]] []
    rw [Filter.addAll, (Filter.panic_of_bitLen hzero (k_of_newFilter hnew).1 []).1] at hadd
    cases hadd
  · intro hbits ks ks'
    obtain ⟨g, hg, hgrows, hprobed⟩ := Filter.addAll_spec hbits ks
    have hbits' : g.bitLen ≠ 0 := hgrows.bitLen ▸ hbits
    obtain ⟨g', hg', hgrows', hprobed'⟩ := Filter.addAll_spec hbits' ks'
    refine ⟨g, g', hg, Filter.decodeFilter_encode fun hnil => hbits' ?_, hg',
      Filter.mayContain_ok (hgrows'.bitLen ▸ hbits'), fun key hkey => ?_⟩
    · rw [Filter.bitLen, hnil]
      rfl
    · rw [Filter.mayContain, hgrows'.k]
      refine Filter.mayContainLoop_of_probed ?_
      rcases List.mem_append.mp hkey with hkey | hkey
      · exact (hgrows.k ▸ hprobed key hkey).mono hgrows'
      · exact hprobed' key hkey

theorem newFilter_sound_ten : ∃ f, newFilter 1 10 = .ok (some f) ∧
    ∀ ks ks' : List Bytes, ∃ g g', f.addAll ks = .ok g ∧ decodeFilter g.encode = some g ∧
      g.addAll ks' = .ok g' ∧ (∀ key, ∃ b, g'.mayContain key = .ok b) ∧
      ∀ key ∈ ks ++ ks', g'.mayContain key = .ok true :=
  have hnew : newFilter 1 10 = .ok (some ⟨List.replicate 8 0, 6⟩) := by decide +kernel
  ⟨_, hnew, (newFilter_sound_iff hnew).1.mpr (by decide)⟩

/-- **A filter of 512 MiB divides by zero**, at the first key. -/
theorem newFilter_panics : ∃ f, newFilter (2 ^ 28) 16 = .ok (some f) ∧
    f.add [] = .error .panic ∧ f.mayContain [] = .error .panic := by
  have hbytes : filterByteLen (2 ^ 28) 16 = 2 ^ 29 := by decide
  obtain ⟨f, hnew, hlen⟩ := exists_newFilter (show (0 : ℤ) < 2 ^ 28 by omega)
    (show (0 : ℤ) < 16 by omega) (by rw [hbytes]; decide)
  refine ⟨f, hnew, Filter.panic_of_bitLen ?_ (k_of_newFilter hnew).1 []⟩
  rw [hbytes] at hlen
  rw [Filter.bitLen_eq_zero_iff]
  omega

end LSMEngine.Format
