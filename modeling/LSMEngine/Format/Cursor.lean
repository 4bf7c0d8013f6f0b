import LSMEngine.Format.Fields
import LSMEngine.Format.Model.Block
/-!
# Format — scans of a data block

The data of a block is a sequence of pieces, each an entry behind a
number of bytes it shares with the key before it. A cursor that stands
at a piece (`At`) gives its entry and moves on to the next one, so the
loops of `FindView` and `Seek` are searches in the list of entries
(`findLoop_of_at`, `seekLoop_of_at`).
-/

namespace LSMEngine.Format

/-! ## Common prefixes -/

theorem commonPrefixLen_le (a b : Bytes) : commonPrefixLen a b ≤ b.length := by
  fun_induction commonPrefixLen a b with
  | case1 a as bs ih =>
    rw [List.length_cons]
    omega
  | case2 => omega
  | case3 => omega
  | case4 => omega

theorem take_commonPrefixLen (a b : Bytes) :
    a.take (commonPrefixLen a b) = b.take (commonPrefixLen a b) := by
  fun_induction commonPrefixLen a b with
  | case1 a as bs ih => rw [List.take_succ_cons, List.take_succ_cons, ih]
  | case2 => rw [List.take_zero, List.take_zero]
  | case3 => rw [List.take_zero, List.take_zero]
  | case4 => rw [List.take_zero, List.take_zero]

/-! ## One entry -/

/-- An entry as it is stored behind `shared` bytes of the key before it. -/
def encodeEntry (shared : ℕ) (e : Entry) : Bytes :=
  entryHeader shared (e.key.length - shared) e ++ (e.key.drop shared ++ e.value)

theorem length_entryHeader (shared unshared : ℕ) (e : Entry) :
    (entryHeader shared unshared e).length = 21 := by
  simp only [entryHeader, List.length_append, length_leBytes, List.length_singleton]

theorem length_encodeEntry (shared : ℕ) (e : Entry) :
    (encodeEntry shared e).length = 21 + (e.key.length - shared) + e.value.length := by
  rw [encodeEntry, List.length_append, List.length_append, List.length_drop, length_entryHeader]
  omega

theorem tombstone_flag (b : Bool) : decide ((if b then 1 else 0 : UInt8) &&& 1 = 1) = b := by
  cases b <;> rfl

/-- The fields of a header, read at their places behind `pre`. -/
theorem fields_entryHeader (pre rest : Bytes) (shared unshared : ℕ) (e : Entry) :
    uint32At (pre ++ (entryHeader shared unshared e ++ rest)) pre.length =
        .ok (UInt32.ofNat shared) ∧
      uint32At (pre ++ (entryHeader shared unshared e ++ rest)) (pre.length + 4) =
        .ok (UInt32.ofNat unshared) ∧
      uint32At (pre ++ (entryHeader shared unshared e ++ rest)) (pre.length + 8) =
        .ok (UInt32.ofNat e.value.length) ∧
      uint64At (pre ++ (entryHeader shared unshared e ++ rest)) (pre.length + 12) = .ok e.seq ∧
      byteAt (pre ++ (entryHeader shared unshared e ++ rest)) (pre.length + 20) =
        .ok (if e.tombstone then 1 else 0) := by
  have hfields : pre ++ (entryHeader shared unshared e ++ rest) = [pre, leBytes 4 shared,
      leBytes 4 unshared, leBytes 4 e.value.length, leBytes 8 e.seq.toNat,
      [if e.tombstone then 1 else 0], rest].flatten := by
    simp [entryHeader]
  rw [hfields]
  exact ⟨uint32At_field (k := 1) rfl (by simp), uint32At_field (k := 2) rfl (by simp),
    uint32At_field (k := 3) rfl (by simp), uint64At_field (k := 4) rfl (by simp),
    byteAt_field (k := 5) rfl (by simp)⟩

theorem encodeEntry_eq (pre post : Bytes) (shared : ℕ) (e : Entry) :
    pre ++ (encodeEntry shared e ++ post) =
      [pre, entryHeader shared (e.key.length - shared) e, e.key.drop shared, e.value,
        post].flatten := by
  simp [encodeEntry]

/-- The rest of the key, read behind the header. -/
theorem sub_suffix (pre post : Bytes) (shared : ℕ) (e : Entry) :
    sub (pre ++ (encodeEntry shared e ++ post)) (pre.length + 21)
      (pre.length + 21 + (e.key.length - shared)) = .ok (e.key.drop shared) := by
  rw [encodeEntry_eq]
  refine sub_field (k := 2) rfl ?_ (by rw [List.length_drop])
  simp [length_entryHeader]

/-- The value, read behind the key. -/
theorem sub_value (pre post : Bytes) (shared : ℕ) (e : Entry) :
    sub (pre ++ (encodeEntry shared e ++ post)) (pre.length + 21 + (e.key.length - shared))
      (pre.length + 21 + (e.key.length - shared) + e.value.length) = .ok e.value := by
  rw [encodeEntry_eq]
  refine sub_field (k := 3) rfl ?_ rfl
  simp [length_entryHeader, Nat.add_assoc]

/-- **A cursor at an entry** returns it, if the key before it has the
bytes it shares. -/
theorem next_encodeEntry {pre post : Bytes} {c : Cursor} {e : Entry} {shared : ℕ}
    (hoff : c.offset = pre.length) (hlim : pre.length + (encodeEntry shared e).length ≤ c.limit)
    (hshared : shared ≤ e.key.length) (hlast : c.lastKey.take shared = e.key.take shared)
    (hk : e.key.length < 2 ^ 32) (hv : e.value.length < 2 ^ 32) :
    c.next (pre ++ (encodeEntry shared e ++ post)) =
      .ok (some (e.view, ⟨pre.length + (encodeEntry shared e).length, c.limit, e.key⟩)) := by
  have hlen := length_encodeEntry shared e
  have hle : shared ≤ c.lastKey.length := by
    have := congrArg List.length hlast
    rw [List.length_take, List.length_take] at this
    omega
  have hs := toNat_ofNat_uint32 (n := shared) (by omega)
  have hu := toNat_ofNat_uint32 (n := e.key.length - shared) (by omega)
  have hvl := toNat_ofNat_uint32 hv
  have hsuffix := sub_suffix pre post shared e
  have hvalue := sub_value pre post shared e
  obtain ⟨h₀, h₁, h₂, h₃, h₄⟩ := fields_entryHeader pre
    (e.key.drop shared ++ e.value ++ post) shared (e.key.length - shared) e
  rw [← List.append_assoc (entryHeader _ _ _), ← encodeEntry] at h₀ h₁ h₂ h₃ h₄
  rw [Cursor.next, hoff, if_neg (by omega)]
  simp only [h₀, h₁, h₂, h₃, h₄, ok_bind, entryHeaderSize, hs, hu, hvl, hsuffix, hvalue,
    tombstone_flag]
  rw [failIf_neg (by omega), failIf_neg (by omega), failIf_neg (by omega)]
  simp only [ok_bind]
  rw [hlast, List.take_append_drop, hlen]
  simp only [← Nat.add_assoc]
  rfl

/-! ## Pieces -/

/-- The data of a block: entries, each behind a number of shared bytes. -/
def encodePieces (ps : List (ℕ × Entry)) : Bytes := ps.flatMap fun p => encodeEntry p.1 p.2

theorem encodePieces_cons (p : ℕ × Entry) (ps : List (ℕ × Entry)) :
    encodePieces (p :: ps) = encodeEntry p.1 p.2 ++ encodePieces ps := rfl

theorem encodePieces_append (ps qs : List (ℕ × Entry)) :
    encodePieces (ps ++ qs) = encodePieces ps ++ encodePieces qs := List.flatMap_append

/-- Every entry has the bytes it shares in common with the key before
it. -/
def Linked : Bytes → List (ℕ × Entry) → Prop
  | _, [] => True
  | last, (shared, e) :: ps =>
    shared ≤ e.key.length ∧ last.take shared = e.key.take shared ∧ Linked e.key ps

theorem Linked.append {last : Bytes} {ps qs : List (ℕ × Entry)} (hps : Linked last ps)
    (hqs : ∀ last, Linked last qs) : Linked last (ps ++ qs) := by
  induction ps generalizing last with
  | nil => exact hqs last
  | cons p ps ih => exact ⟨hps.1, hps.2.1, ih hps.2.2⟩

/-- The lengths of the entries fit the fields of the header. -/
def Short (e : Entry) : Prop := e.key.length < 2 ^ 32 ∧ e.value.length < 2 ^ 32

/-- The cursor stands at the first of the pieces and stops behind the
last. -/
structure At (data : Bytes) (c : Cursor) (ps : List (ℕ × Entry)) : Prop where
  split : ∃ pre post, data = pre ++ (encodePieces ps ++ post) ∧ c.offset = pre.length ∧
    c.limit = pre.length + (encodePieces ps).length
  linked : Linked c.lastKey ps
  short : ∀ p ∈ ps, Short p.2

variable {data : Bytes} {c : Cursor} {ps : List (ℕ × Entry)}

theorem At.next_nil (h : At data c []) : c.next data = .ok none := by
  obtain ⟨pre, post, -, hoff, hlim⟩ := h.split
  rw [Cursor.next, if_pos]
  rw [hoff, hlim]
  exact le_rfl

theorem At.next_cons {p : ℕ × Entry} (h : At data c (p :: ps)) :
    ∃ c', c.next data = .ok (some (p.2.view, c')) ∧ At data c' ps := by
  obtain ⟨pre, post, hdata, hoff, hlim⟩ := h.split
  obtain ⟨hshared, hlast, hlinked⟩ := h.linked
  obtain ⟨hk, hv⟩ := h.short p List.mem_cons_self
  rw [encodePieces_cons, List.append_assoc] at hdata
  rw [encodePieces_cons, List.length_append] at hlim
  refine ⟨_, hdata ▸ next_encodeEntry hoff (by omega) hshared hlast hk hv, ⟨?_, hlinked, ?_⟩⟩
  · refine ⟨pre ++ encodeEntry p.1 p.2, post, ?_, ?_, ?_⟩
    · rw [hdata, List.append_assoc]
    · rw [List.length_append]
    · rw [hlim, List.length_append]
      omega
  · exact fun q hq => h.short q (List.mem_cons_of_mem p hq)

/-! ## Loops -/

/-- **The loop of `FindView`** finds the first entry with the key, in
entries that are in order. -/
theorem findLoop_of_at (key : Bytes) {fuel : ℕ} (h : At data c ps) (hfuel : ps.length ≤ fuel)
    (hsorted : (ps.map Prod.snd).Pairwise fun a b => a.key ≤ b.key) :
    Block.findLoop data key fuel c =
      .ok (((ps.map Prod.snd).find? fun e => e.key = key).map Entry.view) := by
  induction ps generalizing c fuel with
  | nil =>
    cases fuel with
    | zero => rfl
    | succ fuel =>
      rw [Block.findLoop, h.next_nil]
      rfl
  | cons p ps ih =>
    obtain ⟨fuel, rfl⟩ : ∃ n, fuel = n + 1 := ⟨fuel - 1, by rw [List.length_cons] at hfuel; omega⟩
    obtain ⟨c', hnext, h'⟩ := h.next_cons
    rw [List.map_cons, List.pairwise_cons] at hsorted
    rw [Block.findLoop, hnext, ok_bind, List.map_cons]
    by_cases hkey : p.2.key = key
    · rw [List.find?_cons_of_pos (by simpa using hkey)]
      exact if_pos hkey
    · rw [List.find?_cons_of_neg (by simpa using hkey)]
      refine (if_neg hkey).trans ?_
      by_cases hlt : key < p.2.key
      · -- every later entry is behind the key as well
        have hnone : (ps.map Prod.snd).find? (fun e => decide (e.key = key)) = none := by
          rw [List.find?_eq_none]
          intro e he
          have := hlt.trans_le (hsorted.1 e he)
          simpa using this.ne'
        rw [hnone]
        exact if_pos hlt
      · refine (if_neg hlt).trans ?_
        rw [List.length_cons] at hfuel
        exact ih h' (by omega) hsorted.2

/-- **The loop of `Seek`** stops at the first entry that is not before
the key. -/
theorem seekLoop_of_at (key : Bytes) {fuel : ℕ} (h : At data c ps) (hfuel : ps.length ≤ fuel) :
    match ps.dropWhile fun p => p.2.key < key with
    | [] => Block.seekLoop data key fuel c = .ok none
    | p :: qs => ∃ c', Block.seekLoop data key fuel c = .ok (some (c', p.2.view)) ∧
        At data c' qs := by
  induction ps generalizing c fuel with
  | nil =>
    cases fuel with
    | zero => rfl
    | succ fuel =>
      change Block.seekLoop data key (fuel + 1) c = .ok none
      rw [Block.seekLoop, h.next_nil]
      rfl
  | cons p ps ih =>
    obtain ⟨fuel, rfl⟩ : ∃ n, fuel = n + 1 := ⟨fuel - 1, by rw [List.length_cons] at hfuel; omega⟩
    obtain ⟨c', hnext, h'⟩ := h.next_cons
    rw [List.length_cons] at hfuel
    rw [Block.seekLoop, hnext, ok_bind]
    by_cases hlt : p.2.key < key
    · rw [List.dropWhile_cons_of_pos (by simpa using hlt)]
      have hnot : ¬ key ≤ p.2.view.key := not_le.mpr hlt
      simp only [hnot, if_false]
      exact ih h' (by omega)
    · rw [List.dropWhile_cons_of_neg (by simpa using hlt)]
      exact ⟨c', if_pos (not_lt.mp hlt), h'⟩

end LSMEngine.Format
