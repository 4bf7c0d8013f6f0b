import LSMEngine.Memory.Model.Arena
import Mathlib.Algebra.BigOperators.Group.List.Basic
import Mathlib.Data.List.Basic
/-!
# Memory — allocations do not overlap

What an arena hands out of its current block ends at the offset, and
what is left of the block is reserved and not yet used. So a new slice is
disjoint from the ones before it, and the bytes in use stay below those
reserved (`Sound`). Blocks of their own and blocks kept by `Reset` fall
under the same invariant, which every call keeps (`Sound.step`).
-/

namespace LSMEngine.Memory

/-! ## Bytes -/

section Bytes

variable {b src : Bytes} {off i : ℕ}

theorem length_overwrite (h : off + src.length ≤ b.length) :
    (overwrite b off src).length = b.length := by
  simp only [overwrite, List.length_append, List.length_take, List.length_drop]
  omega

/-- A byte after a copy: one of the source where it has been copied, and
the old one elsewhere. -/
theorem getElem?_overwrite (h : off + src.length ≤ b.length) :
    (overwrite b off src)[i]? =
      if off ≤ i ∧ i < off + src.length then src[i - off]? else b[i]? := by
  have hlen : (b.take off).length = off := List.length_take_of_le (by omega)
  unfold overwrite
  split
  · next hi =>
    rw [List.getElem?_append_right (by omega), hlen, List.getElem?_append_left (by omega)]
  · next hi =>
    rcases Nat.lt_or_ge i off with hlt | hge
    · rw [List.getElem?_append_left (by omega), List.getElem?_take_of_lt hlt]
    · rw [List.getElem?_append_right (by omega), hlen, List.getElem?_append_right (by omega),
        List.getElem?_drop]
      congr 1
      omega

end Bytes

/-! ## Slices -/

/-- No byte in common. -/
def Slice.Disjoint (s t : Slice) : Prop :=
  s.block ≠ t.block ∨ s.off + s.len ≤ t.off ∨ t.off + t.len ≤ s.off

variable {a : Arena} {s t : Slice} {src : Bytes} {n m block : ℕ}

namespace Arena

section

variable (h : s.off + src.length ≤ a.size s.block)
include h

theorem bytes_fill (block : ℕ) :
    (a.fill s src).bytes block =
      if s.block = block then overwrite (a.bytes block) s.off src else a.bytes block := by
  rw [bytes, fill]
  dsimp only
  rw [List.getElem?_modify]
  split
  · next heq =>
    subst heq
    rw [bytes]
    cases hb : a.heap[s.block]? with
    | some b => rfl
    | none =>
      -- nothing is copied to a block that is not there
      rw [size, bytes, hb, Option.getD_none, List.length_nil] at h
      rw [List.eq_nil_of_length_eq_zero (l := src) (by omega), show s.off = 0 by omega]
      rfl
  · rw [bytes]
    cases a.heap[block]? <;> rfl

theorem size_fill (block : ℕ) : (a.fill s src).size block = a.size block := by
  rw [size, bytes_fill h]
  split
  · next heq =>
    subst heq
    exact length_overwrite h
  · rfl

/-- A copy reads back. -/
theorem read_fill_self (hlen : s.len = src.length) : (a.fill s src).read s = src := by
  refine List.ext_getElem? fun i => ?_
  rw [read, bytes_fill h, if_pos rfl, List.getElem?_take, List.getElem?_drop, getElem?_overwrite h]
  split
  · rw [if_pos (by omega), Nat.add_sub_cancel_left]
  · rw [List.getElem?_eq_none (by omega)]

/-- And the copies elsewhere stay. -/
theorem read_fill_of_disjoint (hlen : s.len = src.length) (hdisj : t.Disjoint s) :
    (a.fill s src).read t = a.read t := by
  rw [read, read, bytes_fill h]
  split
  · next heq =>
    have hcut := hdisj.resolve_left fun hne => hne heq.symm
    refine List.ext_getElem? fun i => ?_
    rw [List.getElem?_take, List.getElem?_take]
    split
    · rw [List.getElem?_drop, List.getElem?_drop, getElem?_overwrite (heq ▸ h), if_neg (by omega)]
    · rfl
  · rfl

end

theorem bytes_hold (h : block < a.heap.length) (n : ℕ) :
    (a.hold n).bytes block = a.bytes block := by
  rw [bytes, hold, bytes]
  dsimp only
  rw [List.getElem?_append_left h]

theorem size_hold (h : block < a.heap.length) (n : ℕ) : (a.hold n).size block = a.size block :=
  congrArg List.length (bytes_hold h n)

theorem read_hold (h : s.block < a.heap.length) (n : ℕ) : (a.hold n).read s = a.read s := by
  rw [read, bytes_hold h, read]

theorem size_hold_self (a : Arena) (n : ℕ) : (a.hold n).size a.heap.length = n := by
  simp [size, bytes, hold]

end Arena

/-! ## The invariant -/

/-- What is left of the current block. -/
def Arena.left (a : Arena) : ℤ := a.cur.elim 0 fun block => a.size block - a.off

/-- **An arena in use**, of which some reserved bytes are spare: they
belong to a block nothing has been handed out of. -/
structure Sound (spare : ℕ) (u : Use) : Prop where
  blockSize : 0 < u.arena.opt.blockSize
  nodup : u.arena.blocks.Nodup
  made : ∀ b ∈ u.arena.blocks, b < u.arena.heap.length
  cur : ∀ b, u.arena.cur = some b →
    b ∈ u.arena.blocks ∧ (u.arena.size b : ℤ) = u.arena.opt.blockSize ∧ u.arena.off ≤ u.arena.size b
  inside : ∀ s ∈ u.handed, s.block ∈ u.arena.blocks ∧ s.off + s.len ≤ u.arena.size s.block ∧
    (u.arena.cur = some s.block → s.off + s.len ≤ u.arena.off)
  disjoint : u.handed.Pairwise Slice.Disjoint
  used : u.arena.usedBytes = ((u.handed.map Slice.len).sum : ℕ)
  reserved : u.arena.reservedBytes = ((u.arena.blocks.map u.arena.size).sum : ℕ)
  slack : u.arena.usedBytes + u.arena.left + spare ≤ u.arena.reservedBytes
  copied : ∀ c ∈ u.copies, c.1 ∈ u.handed ∧ u.arena.read c.1 = c.2

/-- A block nothing has been handed out of. -/
structure Unused (u : Use) (block : ℕ) : Prop where
  mem : block ∈ u.arena.blocks
  handed : ∀ s ∈ u.handed, s.block ≠ block
  cur : u.arena.cur ≠ some block

/-- A slice is handed out, with the arena as it is then. -/
def Use.hand (u : Use) (a : Arena) (s : Slice) : Use :=
  { u with arena := a, handed := u.handed ++ [s] }

namespace Sound

variable {u : Use} {spare : ℕ}

theorem new (opt : Options) : Sound 0 ⟨newArena opt, [], []⟩ where
  blockSize := by
    change 0 < if opt.blockSize ≤ 0 then 256 * 1024 else opt.blockSize
    split <;> omega
  nodup := List.nodup_nil
  made _ h := absurd h List.not_mem_nil
  cur _ h := by cases h
  inside _ h := absurd h List.not_mem_nil
  disjoint := .nil
  used := rfl
  reserved := rfl
  slack := le_rfl
  copied _ h := absurd h List.not_mem_nil

theorem left_nonneg (h : Sound spare u) : 0 ≤ u.arena.left := by
  unfold Arena.left
  cases hcur : u.arena.cur with
  | none => exact le_rfl
  | some b =>
    have hoff := (h.cur b hcur).2.2
    rw [Option.elim_some]
    omega

/-! ## Blocks -/

/-- **A new block** changes none of the old ones. -/
theorem hold (h : Sound 0 u) (n : ℕ) :
    Sound n { u with arena := u.arena.hold n } ∧
      Unused { u with arena := u.arena.hold n } u.arena.heap.length := by
  have hsize : ∀ b ∈ u.arena.blocks, (u.arena.hold n).size b = u.arena.size b := fun b hb =>
    Arena.size_hold (h.made b hb) n
  have hnew : u.arena.heap.length ∉ u.arena.blocks := fun hmem =>
    absurd (h.made _ hmem) (lt_irrefl _)
  refine ⟨⟨h.blockSize, ?_, fun b hb => ?_, fun b hb => ?_, fun s hs => ?_, h.disjoint, h.used,
    ?_, ?_, fun c hc => ?_⟩, List.mem_append_right _ (List.mem_singleton_self _), fun s hs heq => ?_,
    fun hcur => hnew (h.cur _ hcur).1⟩
  · exact List.nodup_append.mpr ⟨h.nodup, List.pairwise_singleton _ _, fun b hb c hc heq =>
      hnew (List.mem_singleton.mp hc ▸ heq ▸ hb)⟩
  · have hlen : (u.arena.hold n).heap.length = u.arena.heap.length + 1 := List.length_append
    change b < (u.arena.hold n).heap.length
    rcases List.mem_append.mp hb with hb | hb
    · have := h.made b hb
      omega
    · have := List.mem_singleton.mp hb
      omega
  · obtain ⟨hblock, hb₁, hb₂⟩ := h.cur b hb
    have hkeep := hsize b hblock
    refine ⟨List.mem_append_left _ hblock, ?_, hb₂.trans_eq hkeep.symm⟩
    change ((u.arena.hold n).size b : ℤ) = u.arena.opt.blockSize
    rw [hkeep, hb₁]
  · obtain ⟨hblock, hend, hcur⟩ := h.inside s hs
    exact ⟨List.mem_append_left _ hblock, hend.trans_eq (hsize _ hblock).symm, hcur⟩
  · have hres := h.reserved
    change u.arena.reservedBytes + (n : ℤ) =
      (((u.arena.blocks ++ [u.arena.heap.length]).map (u.arena.hold n).size).sum : ℕ)
    rw [List.map_append, List.map_congr_left hsize, List.sum_append, List.map_singleton,
      List.sum_singleton, Arena.size_hold_self]
    omega
  · have hleft : (u.arena.hold n).left = u.arena.left := by
      unfold Arena.left
      change u.arena.cur.elim 0 _ = _
      cases hcur : u.arena.cur with
      | none => rfl
      | some b =>
        rw [Option.elim_some, Option.elim_some, hsize b (h.cur b hcur).1]
        rfl
    have hslack := h.slack
    change u.arena.usedBytes + (u.arena.hold n).left + (n : ℤ) ≤ u.arena.reservedBytes + (n : ℤ)
    omega
  · obtain ⟨hmem, hread⟩ := h.copied c hc
    exact ⟨hmem, (Arena.read_hold (h.made _ (h.inside _ hmem).1) n).trans hread⟩
  · exact hnew (heq ▸ (h.inside s hs).1)

/-- An unused block of the usual size becomes the current one. -/
theorem switch (h : Sound spare u) (hb : Unused u block) (hspare : u.arena.size block = spare)
    (hsize : (spare : ℤ) = u.arena.opt.blockSize) :
    Sound 0 { u with arena := { u.arena with cur := some block, off := 0 } } := by
  have hleft := h.left_nonneg
  refine ⟨h.blockSize, h.nodup, h.made, fun b hcur => ?_, fun s hs => ?_, h.disjoint, h.used,
    h.reserved, ?_, h.copied⟩
  · obtain rfl := Option.some.inj hcur
    refine ⟨hb.mem, ?_, Nat.zero_le _⟩
    change (u.arena.size block : ℤ) = u.arena.opt.blockSize
    rw [hspare, hsize]
  · obtain ⟨hblock, hend, -⟩ := h.inside s hs
    exact ⟨hblock, hend, fun hcur => absurd (Option.some.inj hcur).symm (hb.handed s hs)⟩
  · have hslack := h.slack
    change u.arena.usedBytes + ((u.arena.size block : ℤ) - (0 : ℕ)) + (0 : ℕ) ≤
      u.arena.reservedBytes
    omega

/-! ## Slices -/

/-- A slice that is disjoint from the others can be handed out, if the
bytes it takes are left or spare. -/
theorem hand (h : Sound spare u) {a : Arena} {s : Slice} (hheap : a.heap = u.arena.heap)
    (hopt : a.opt = u.arena.opt) (hblocks : a.blocks = u.arena.blocks)
    (hreserved : a.reservedBytes = u.arena.reservedBytes)
    (hused : a.usedBytes = u.arena.usedBytes + s.len)
    (hcur : a.cur = u.arena.cur) (hoff : u.arena.off ≤ a.off)
    (hfit : ∀ b, a.cur = some b → a.off ≤ a.size b)
    (hslack : s.len + a.left ≤ u.arena.left + spare)
    (hs : s.block ∈ a.blocks ∧ s.off + s.len ≤ a.size s.block ∧
      (a.cur = some s.block → s.off + s.len ≤ a.off))
    (hdisj : ∀ t ∈ u.handed, t.Disjoint s) : Sound 0 (u.hand a s) := by
  have hsize : a.size = u.arena.size := by
    funext b
    rw [Arena.size, Arena.bytes, hheap]
    rfl
  have hread : a.read = u.arena.read := by
    funext t
    rw [Arena.read, Arena.bytes, hheap]
    rfl
  refine ⟨?_, ?_, fun b hb => ?_, fun b hb => ?_, fun t ht => ?_, ?_, ?_, ?_, ?_, fun c hc => ?_⟩
  · exact hopt ▸ h.blockSize
  · exact hblocks ▸ h.nodup
  · exact hheap ▸ h.made b (hblocks ▸ hb)
  · obtain ⟨hblock, hb₁, -⟩ := h.cur b (hcur ▸ hb)
    exact ⟨hblocks ▸ hblock, hsize ▸ hopt ▸ hb₁, hfit b hb⟩
  · rcases List.mem_append.mp ht with ht | ht
    · obtain ⟨hblock, hend, hbelow⟩ := h.inside t ht
      exact ⟨hblocks ▸ hblock, hsize ▸ hend, fun hb => (hbelow (hcur ▸ hb)).trans hoff⟩
    · exact List.mem_singleton.mp ht ▸ hs
  · refine List.pairwise_append.mpr ⟨h.disjoint, List.pairwise_singleton _ _, fun t ht t' ht' => ?_⟩
    exact List.mem_singleton.mp ht' ▸ hdisj t ht
  · have hsum := h.used
    change a.usedBytes = (((u.handed ++ [s]).map Slice.len).sum : ℕ)
    rw [List.map_append, List.sum_append, List.map_singleton, List.sum_singleton]
    omega
  · change a.reservedBytes = ((a.blocks.map a.size).sum : ℕ)
    rw [hreserved, hblocks, hsize, h.reserved]
  · have hroom := h.slack
    change a.usedBytes + a.left + (0 : ℕ) ≤ a.reservedBytes
    omega
  · obtain ⟨hmem, hold⟩ := h.copied c hc
    exact ⟨List.mem_append_left _ hmem, hread ▸ hold⟩

/-- **A slice of the current block.** -/
theorem bump (h : Sound 0 u) (hcur : u.arena.cur = some block)
    (hn : u.arena.off + n ≤ u.arena.size block) :
    Sound 0 (u.hand (u.arena.bump block n).2 ⟨block, u.arena.off, n⟩) := by
  refine h.hand rfl rfl rfl rfl rfl hcur.symm (Nat.le_add_right _ _) (fun b hb => ?_) ?_
    ⟨(h.cur block hcur).1, hn, fun _ => le_rfl⟩ fun t ht => ?_
  · exact Option.some.inj hb ▸ hn
  · have hleft : u.arena.left = u.arena.size block - u.arena.off := by
      rw [Arena.left, hcur, Option.elim_some]
    change (n : ℤ) + ((u.arena.size block : ℤ) - ((u.arena.off + n : ℕ) : ℤ)) ≤
      u.arena.left + (0 : ℕ)
    omega
  · by_cases hb : t.block = block
    · exact .inr (.inl ((h.inside t ht).2.2 (hb ▸ hcur)))
    · exact .inl hb

/-- **A block of its own.** -/
theorem own (h : Sound n u) (hb : Unused u block) (hsize : u.arena.size block = n) :
    Sound 0 (u.hand { u.arena with usedBytes := u.arena.usedBytes + n } ⟨block, 0, n⟩) := by
  refine h.hand rfl rfl rfl rfl rfl rfl le_rfl (fun b hcur => (h.cur b hcur).2.2) ?_
    ⟨hb.mem, ?_, fun hcur => absurd hcur hb.cur⟩ fun t ht => .inl (hb.handed t ht)
  · change (n : ℤ) + u.arena.left ≤ u.arena.left + n
    omega
  · change 0 + n ≤ u.arena.size block
    omega

/-- A copy goes where no other copy is. -/
theorem fill (h : Sound 0 u) (hs : s ∈ u.handed) (hlen : s.len = src.length)
    (hdisj : ∀ c ∈ u.copies, c.1.Disjoint s) :
    Sound 0 { u with arena := u.arena.fill s src, copies := u.copies ++ [(s, src)] } := by
  have hend : s.off + src.length ≤ u.arena.size s.block := hlen ▸ (h.inside s hs).2.1
  have hsize : (u.arena.fill s src).size = u.arena.size := funext (Arena.size_fill hend)
  have hleft : (u.arena.fill s src).left = u.arena.left := by
    rw [Arena.left, hsize]
    rfl
  refine ⟨h.blockSize, h.nodup, fun b hb => ?_, ?_, ?_, h.disjoint, h.used, ?_, ?_, fun c hc => ?_⟩
  · change b < (u.arena.heap.modify _ _).length
    rw [List.length_modify]
    exact h.made b hb
  · exact hsize ▸ h.cur
  · exact hsize ▸ h.inside
  · exact hsize ▸ h.reserved
  · exact hleft ▸ h.slack
  · rcases List.mem_append.mp hc with hc | hc
    · obtain ⟨hmem, hread⟩ := h.copied c hc
      exact ⟨hmem, (Arena.read_fill_of_disjoint hend hlen (hdisj c hc)).trans hread⟩
    · rw [List.mem_singleton.mp hc]
      exact ⟨hs, Arena.read_fill_self hend hlen⟩

/-- **`Reset`** keeps a block of the usual size or none. -/
theorem reset (h : Sound spare u) : Sound 0 ⟨u.arena.reset, [], []⟩ := by
  have hfind : ∀ b, u.arena.reset.cur = some b →
      b ∈ u.arena.blocks ∧ (u.arena.size b : ℤ) = u.arena.opt.blockSize := by
    intro b hb
    refine ⟨List.mem_of_find?_eq_some hb, ?_⟩
    simpa using List.find?_some hb
  have hblocks : u.arena.reset.blocks = u.arena.reset.cur.toList := rfl
  have hreserved : u.arena.reset.reservedBytes =
      ((u.arena.reset.cur.map u.arena.size).getD 0 : ℕ) := rfl
  have hleft : u.arena.reset.left =
      u.arena.reset.cur.elim 0 fun b => (u.arena.size b : ℤ) - (0 : ℕ) := rfl
  refine ⟨h.blockSize, ?_, fun b hb => ?_, fun b hb => ?_, fun _ hs => absurd hs List.not_mem_nil,
    .nil, rfl, ?_, ?_, fun _ hc => absurd hc List.not_mem_nil⟩
  · rw [hblocks]
    cases u.arena.reset.cur <;> simp
  · rw [hblocks] at hb
    exact h.made b (hfind b (Option.mem_toList.mp hb)).1
  · refine ⟨?_, (hfind b hb).2, Nat.zero_le _⟩
    rw [hblocks, hb]
    exact List.mem_singleton_self b
  · rw [hblocks, hreserved]
    cases u.arena.reset.cur with
    | none => rfl
    | some b => exact congrArg Nat.cast (Nat.add_zero _).symm
  · change (0 : ℤ) + u.arena.reset.left + (0 : ℕ) ≤ u.arena.reset.reservedBytes
    rw [hleft, hreserved]
    cases u.arena.reset.cur with
    | none => exact le_rfl
    | some b =>
      simp only [Option.elim_some, Option.map_some, Option.getD_some]
      omega

end Sound

/-! ## Calls -/

/-- **What `Alloc` comes to**: nothing is handed out, or a block of its
own, or a part of a new or of the current block. -/
theorem alloc_cases {n : ℤ} {room : Bool} {dst : Option Slice} {b : Arena}
    (h : a.alloc n room = some (dst, b)) :
    (dst = none ∧ ∃ d, b = { a with hardDenied := d }) ∨
    (dst = some ⟨a.heap.length, 0, n.toNat⟩ ∧
      b = { a.hold n.toNat with usedBytes := a.usedBytes + n.toNat }) ∨
    (n ≤ a.opt.blockSize ∧ dst = some ⟨a.heap.length, 0, n.toNat⟩ ∧
      b = (Arena.bump { a.hold a.opt.blockSize.toNat with cur := some a.heap.length, off := 0 }
        a.heap.length n.toNat).2) ∨
    ∃ block, a.cur = some block ∧ a.off + n.toNat ≤ a.size block ∧
      dst = some ⟨block, a.off, n.toNat⟩ ∧ b = (a.bump block n.toNat).2 := by
  unfold Arena.alloc at h
  split at h
  · obtain ⟨rfl, rfl⟩ := Prod.mk.inj (Option.some.inj h)
    exact .inl ⟨rfl, a.hardDenied, rfl⟩
  · next hpos =>
    have hn : (n.toNat : ℤ) = n := Int.toNat_of_nonneg (by omega)
    split at h
    · obtain ⟨rfl, rfl⟩ := Prod.mk.inj (Option.some.inj h)
      exact .inl ⟨rfl, _, rfl⟩
    · split at h
      · split at h
        · obtain ⟨rfl, rfl⟩ := Prod.mk.inj (Option.some.inj h)
          exact .inr (.inl ⟨rfl, by rw [hn]⟩)
        · cases h
      · next hle =>
        split at h
        · split at h
          · obtain ⟨rfl, rfl⟩ := Prod.mk.inj (Option.some.inj h)
            exact .inr (.inr (.inl ⟨not_lt.mp hle, rfl, rfl⟩))
          · cases h
        · next hfull =>
          obtain ⟨block, hcur, hmap⟩ := Option.map_eq_some_iff.mp h
          obtain ⟨rfl, rfl⟩ := Prod.mk.inj hmap
          rw [Arena.isFull, hcur, Option.all_some, decide_eq_true_eq, not_lt] at hfull
          exact .inr (.inr (.inr ⟨block, hcur, hfull, rfl, rfl⟩))

namespace Sound

variable {u : Use}

/-- **`Alloc`**, and what it hands out. -/
theorem alloc (h : Sound 0 u) {n : ℤ} {room : Bool} {dst : Option Slice} {b : Arena}
    (hb : u.arena.alloc n room = some (dst, b)) :
    Sound 0 { u with arena := b, handed := u.handed ++ dst.toList } ∧
      ∀ s, dst = some s → s.len = n.toNat := by
  rcases alloc_cases hb with
    ⟨rfl, d, rfl⟩ | ⟨rfl, rfl⟩ | ⟨hle, rfl, rfl⟩ | ⟨block, hcur, hn, rfl, rfl⟩
  · refine ⟨?_, fun s hs => by cases hs⟩
    rw [Option.toList_none, List.append_nil]
    exact ⟨h.blockSize, h.nodup, h.made, h.cur, h.inside, h.disjoint, h.used, h.reserved, h.slack,
      h.copied⟩
  · obtain ⟨hhold, hunused⟩ := h.hold n.toNat
    exact ⟨hhold.own hunused (Arena.size_hold_self _ _), fun s hs => (Option.some.inj hs) ▸ rfl⟩
  · obtain ⟨hhold, hunused⟩ := h.hold u.arena.opt.blockSize.toNat
    have hsize := Arena.size_hold_self u.arena u.arena.opt.blockSize.toNat
    have hpos := h.blockSize
    have hcur := hhold.switch hunused hsize (by change _ = u.arena.opt.blockSize; omega)
    refine ⟨hcur.bump rfl ?_, fun s hs => (Option.some.inj hs) ▸ rfl⟩
    change 0 + n.toNat ≤ (u.arena.hold _).size _
    omega
  · exact ⟨h.bump hcur hn, fun s hs => (Option.some.inj hs) ▸ rfl⟩

/-- **`AllocCopy`.** -/
theorem allocCopy (h : Sound 0 u) {room : Bool} {dst : Option Slice} {b : Arena}
    (hb : u.arena.allocCopy src room = some (dst, b)) :
    Sound 0 ⟨b, u.handed ++ dst.toList, u.copies ++ dst.toList.map fun s => (s, src)⟩ := by
  unfold Arena.allocCopy at hb
  split at hb
  · obtain ⟨rfl, rfl⟩ := Prod.mk.inj (Option.some.inj hb)
    simpa using h
  · obtain ⟨⟨dst', c⟩, halloc, hc⟩ := Option.map_eq_some_iff.mp hb
    obtain ⟨rfl, rfl⟩ := Prod.mk.inj hc
    obtain ⟨hsound, hlen⟩ := h.alloc halloc
    cases dst' with
    | none => simpa using hsound
    | some s =>
      refine hsound.fill (List.mem_append_right _ List.mem_cons_self) (hlen s rfl) fun c hc => ?_
      exact (List.pairwise_append.mp hsound.disjoint).2.2 c.1 (h.copied c hc).1 s List.mem_cons_self

/-- **Every call keeps it.** -/
theorem step (h : Sound 0 u) (call : Call) : Sound 0 (u.step call) := by
  cases call with
  | alloc n room =>
    rw [Use.step]
    split
    · next hb => exact (h.alloc hb).1
    · exact h
  | allocCopy src room =>
    rw [Use.step]
    split
    · next hb => exact h.allocCopy hb
    · exact h
  | reset => exact h.reset

theorem run (opt : Options) (calls : List Call) : Sound 0 (Use.run opt calls) := by
  have hall : ∀ u, Sound 0 u → Sound 0 (calls.foldl Use.step u) := by
    induction calls with
    | nil => exact fun _ h => h
    | cons call calls ih => exact fun u h => ih _ (h.step call)
  exact hall _ (new opt)

end Sound

/-- **Allocations do not overlap.** After any calls, the slices handed out
since the last `Reset` are disjoint and inside the blocks held, what was
copied there reads back, and the counters are the sums they stand for;
and `Alloc` hands out as many bytes as it is asked for. -/
theorem arena_disjoint (opt : Options) (calls : List Call) :
    (Use.run opt calls).handed.Pairwise Slice.Disjoint ∧
      (∀ s ∈ (Use.run opt calls).handed, s.block ∈ (Use.run opt calls).arena.blocks ∧
        s.off + s.len ≤ (Use.run opt calls).arena.size s.block) ∧
      (∀ c ∈ (Use.run opt calls).copies, c.1 ∈ (Use.run opt calls).handed ∧
        (Use.run opt calls).arena.read c.1 = c.2) ∧
      (Use.run opt calls).arena.blocks.Nodup ∧
      (Use.run opt calls).arena.usedBytes = (((Use.run opt calls).handed.map Slice.len).sum : ℕ) ∧
      (Use.run opt calls).arena.usedBytes ≤ (Use.run opt calls).arena.reservedBytes ∧
      (Use.run opt calls).arena.reservedBytes =
        (((Use.run opt calls).arena.blocks.map (Use.run opt calls).arena.size).sum : ℕ) ∧
      ∀ n room s a, (Use.run opt calls).arena.alloc n room = some (some s, a) →
        s.len = n.toNat := by
  have h := Sound.run opt calls
  refine ⟨h.disjoint, fun s hs => ⟨(h.inside s hs).1, (h.inside s hs).2.1⟩, h.copied, h.nodup,
    h.used, ?_, h.reserved, fun n room s a ha => (h.alloc ha).2 s rfl⟩
  have hslack := h.slack
  have hleft := h.left_nonneg
  omega

/-- Two slices of one block, and one that has a block of its own. -/
theorem arena_disjoint_three :
    (Use.run ⟨8, 0⟩ [.alloc 3 true, .allocCopy [1, 2] true, .alloc 20 true]).handed =
        [⟨0, 0, 3⟩, ⟨0, 3, 2⟩, ⟨1, 0, 20⟩] ∧
      [⟨0, 0, 3⟩, ⟨0, 3, 2⟩, ⟨1, 0, 20⟩].Pairwise Slice.Disjoint :=
  ⟨rfl, (arena_disjoint ⟨8, 0⟩ [.alloc 3 true, .allocCopy [1, 2] true, .alloc 20 true]).1⟩

end LSMEngine.Memory
