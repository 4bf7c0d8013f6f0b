import LSMEngine.Common.Recency
import LSMEngine.Common.Runs
import LSMEngine.Format.Model.Reader
/-!
# The accounting of the caches

The caches of index and filter blocks hold what is in use, as much of it
as fits, and their size is the total of what they hold: an `Add` under a
known key takes off the size of the value that goes and puts on that of
the new one.

`BlockCache.Add` does neither, and evicts nothing then, so that its size
is the one of blocks that are gone. It accounts for what it holds as long
as a block is only replaced by one of the same size (`caches_account`),
and otherwise can hold more than its capacity (`replaced_block_uncounted`).
-/

namespace LSMEngine.Format.Cache

open Recency (Call held others room)

variable {α : Type} {size : α → ℤ} {cap : ℤ} {l : List (UInt64 × α)} {c : Lru UInt64 α}
  {add : Lru UInt64 α → UInt64 → α → Lru UInt64 α} {keep : α → Bool}
  {C : Lru UInt64 α → Call UInt64 α → Prop} {calls : List (Call UInt64 α)}

/-! ## Calls -/

/-- A call on a cache. -/
def act (add : Lru UInt64 α → UInt64 → α → Lru UInt64 α) (c : Lru UInt64 α) :
    Call UInt64 α → Option (Lru UInt64 α)
  | .get key => some (c.get key).2
  | .add key v => some (add c key v)

/-- The call is a lookup, or adds a value that is kept. -/
def kept (keep : α → Bool) : Call UInt64 α → Bool
  | .get _ => true
  | .add _ v => keep v

/-- What is in use after some calls. -/
def inUse (size : α → ℤ) (cap : ℤ) (keep : α → Bool) (calls : List (Call UInt64 α)) :
    List (UInt64 × α) :=
  (calls.filter (kept keep)).foldl (Recency.step size cap) []

/-- The last value that was added under a key. -/
def lastAdded (keep : α → Bool) (calls : List (Call UInt64 α)) : UInt64 → Option α :=
  (calls.filter (kept keep)).foldl Recency.last fun _ => none

/-- **A cache in order** after some calls: it holds what is in use, the
most recent first, with a key in its map for each; its size is the total
of what it holds, and within its capacity; and a lookup gives the last
value that was added under a key that it has. -/
structure InOrder (size : α → ℤ) (cap : ℤ) (keep : α → Bool) (calls : List (Call UInt64 α))
    (c : Lru UInt64 α) : Prop where
  slots : c.slots.map (fun s => (s.key, s.value)) = inUse size cap keep calls
  keys : c.items.Perm (c.slots.map Slot.key) ∧ c.items.Nodup
  size : c.size = (c.slots.map fun s => size s.value).sum
  bounded : c.size ≤ cap
  last : ∀ key, (c.get key).1 = if key ∈ c.items then lastAdded keep calls key else none

/-- **An `Add` that accounts** for what it adds, under a condition. -/
structure Accounts (size : α → ℤ) (keep : α → Bool)
    (add : Lru UInt64 α → UInt64 → α → Lru UInt64 α) (C : Lru UInt64 α → Call UInt64 α → Prop) :
    Prop where
  skips : ∀ c key v, keep v = false → add c key v = c
  adds : ∀ {c l key v}, keep v = true → c.Exact size l → 0 ≤ c.cap →
    Recency.total size l ≤ c.cap → C c (.add key v) →
    (add c key v).Exact size (room size c.cap ((key, v) :: others key l))
  cap : ∀ c key v, (add c key v).cap = c.cap

theorem cap_get (c : Lru UInt64 α) (key : UInt64) : (c.get key).2.cap = c.cap := by
  rw [Lru.get]
  split <;> rfl

/-- **Every run accounts** for what is in use. -/
theorem exact_run (hadd : Accounts size keep add C) (h : c.Exact size l) (hcap : 0 ≤ c.cap)
    (hle : Recency.total size l ≤ c.cap) (hC : Along (act add) C c calls) :
    ∃ c', runs (act add) c calls = some c' ∧ c'.cap = c.cap ∧
      c'.Exact size ((calls.filter (kept keep)).foldl (Recency.step size c.cap) l) ∧
      Recency.total size ((calls.filter (kept keep)).foldl (Recency.step size c.cap) l) ≤
        c.cap := by
  induction calls generalizing c l with
  | nil => exact ⟨c, rfl, rfl, h, hle⟩
  | cons call calls ih =>
    have hC₀ : C c call := hC [] call calls c rfl rfl
    have hle' := Recency.total_step_le h.nodup hcap hle call
    -- one call, which may be one that adds nothing
    obtain ⟨c₁, hact, hcap₁, hnext⟩ : ∃ c₁, act add c call = some c₁ ∧ c₁.cap = c.cap ∧
        (kept keep call = true ∧ c₁.Exact size (Recency.step size c.cap l call) ∨
          kept keep call = false ∧ c₁ = c) := by
      cases call with
      | get key => exact ⟨_, rfl, cap_get c key, Or.inl ⟨rfl, (h.get key).2⟩⟩
      | add key v =>
        refine ⟨_, rfl, hadd.cap c key v, ?_⟩
        rcases hkeep : keep v
        · exact Or.inr ⟨hkeep, hadd.skips c key v hkeep⟩
        · exact Or.inl ⟨hkeep, hadd.adds hkeep h hcap hle hC₀⟩
    rw [runs, hact, Option.bind_some, ← hcap₁]
    rcases hnext with ⟨hkeep, hexact⟩ | ⟨hkeep, rfl⟩
    · rw [List.filter_cons_of_pos hkeep, List.foldl_cons]
      rw [← hcap₁] at hexact hle' hcap
      exact ih hexact hcap hle' (hC.tail hact)
    · rw [List.filter_cons_of_neg (by rw [hkeep]; decide)]
      exact ih h hcap hle (hC.tail hact)

/-- **A cache that starts empty is in order** after every run. -/
theorem inOrder_run (hadd : Accounts size keep add C) (hnew : Lru.new cap = some c)
    (hC : Along (act add) C c calls) :
    ∃ c', runs (act add) c calls = some c' ∧ InOrder size cap keep calls c' := by
  rw [Lru.new] at hnew
  split at hnew
  · cases hnew
  next hcap =>
  obtain rfl := Option.some.inj hnew
  have hempty : Lru.Exact size [] (⟨cap, 0, [], []⟩ : Lru UInt64 α) :=
    ⟨rfl, List.Perm.refl _, List.nodup_nil, rfl⟩
  obtain ⟨c', hrun, hcap', hexact, hle⟩ := exact_run hadd hempty (by show 0 ≤ cap; omega)
    (by show 0 ≤ cap; omega) hC
  have hkeys : c'.slots.map Slot.key = (inUse size cap keep calls).map Prod.fst := by
    rw [hexact.slots, List.map_map]
    rfl
  refine ⟨c', hrun, ?_, ⟨hkeys ▸ hexact.items, hexact.items.nodup_iff.mpr hexact.nodup⟩, ?_,
    hexact.total.trans_le hle, fun key => ?_⟩
  · rw [hexact.slots, List.map_map]
    exact List.map_id _
  · rw [hexact.total, hexact.slots, List.map_map]
    rfl
  · rw [(hexact.get key).1]
    rcases hheld : held key (inUse size cap keep calls) with _ | p
    · have hnot : key ∉ c'.items := fun hmem => by
        obtain ⟨p, hp, rfl⟩ := List.mem_map.mp (hexact.items.mem_iff.mp hmem)
        exact List.find?_eq_none.mp hheld p hp (decide_eq_true rfl)
      rw [if_neg hnot]
      exact congrArg (Option.map Prod.snd) hheld
    · obtain ⟨hp, rfl⟩ := Recency.held_eq_some hheld
      rw [if_pos (hexact.items.mem_iff.mpr (List.mem_map_of_mem hp))]
      refine (congrArg (Option.map Prod.snd) hheld).trans ?_
      exact (Recency.last_of_mem (fun _ hmem => absurd hmem List.not_mem_nil) p hp).symm

/-! ## The three caches -/

theorem cap_evictLoop (fuel : ℕ) (c : Lru UInt64 α) : (Lru.evictLoop fuel c).cap = c.cap := by
  induction fuel generalizing c with
  | zero => rfl
  | succ fuel ih =>
    rw [Lru.evictLoop]
    split
    · rfl
    split
    · rfl
    · rw [ih]

/-- **An `Add` that counts** the size of what it replaces. -/
theorem accounts_addSized (hsize : ∀ v, 0 ≤ size v) :
    Accounts size (fun _ => true) (addSized size) fun _ _ => True where
  skips _ _ _ h := by cases h
  adds {c l key v} _ h hcap _ _ := by
    rw [addSized, h.find_eq]
    rcases hheld : held key l with _ | p
    · exact h.push hsize hcap hheld v
    · exact h.replace hsize hcap hheld v
  cap c key v := by
    rw [addSized]
    split
    · exact cap_evictLoop _ _
    · exact cap_evictLoop _ _

theorem indexEntriesSize_nonneg (entries : List IndexEntry) : 0 ≤ indexEntriesSize entries := by
  rw [indexEntriesSize]
  induction entries with
  | nil => exact le_refl 0
  | cons e entries ih =>
    rw [List.map_cons, List.sum_cons]
    omega

theorem accounts_addIndex :
    Accounts indexEntriesSize (fun v => decide (v ≠ [])) addIndex fun _ _ => True where
  skips c key v h := if_pos (not_not.mp (of_decide_eq_false h))
  adds {c l key v} h := by
    rw [addIndex, if_neg (of_decide_eq_true h)]
    exact (accounts_addSized indexEntriesSize_nonneg).adds rfl
  cap c key v := by
    rw [addIndex]
    split
    · rfl
    · exact (accounts_addSized indexEntriesSize_nonneg).cap c key v

/-- The size of a block. -/
def blockSize (blk : Block) : ℤ := blk.dataLen

/-- **The condition on a call**: a block is replaced by one of its size. -/
def SameSize (c : Lru UInt64 Block) : Call UInt64 Block → Prop
  | .get _ => True
  | .add key blk => (c.find key).all (fun s => blockSize s.value = blockSize blk) = true

instance (c : Lru UInt64 Block) : ∀ call, Decidable (SameSize c call)
  | .get _ => inferInstanceAs (Decidable True)
  | .add _ _ => inferInstanceAs (Decidable (_ = true))

theorem accounts_addBlock : Accounts blockSize (fun _ => true) addBlock SameSize where
  skips _ _ _ h := by cases h
  adds {c l key v} _ h hcap hle hsame := by
    have hsize : ∀ blk, 0 ≤ blockSize blk := fun blk => Int.natCast_nonneg _
    rw [SameSize, h.find_eq] at hsame
    rw [addBlock, h.find_eq]
    rcases hheld : held key l with _ | p
    · exact h.push hsize hcap hheld v
    · rw [hheld] at hsame
      obtain ⟨-, rfl⟩ := Recency.held_eq_some hheld
      have heq : blockSize p.2 = blockSize v := of_decide_eq_true hsame
      have htotal : Recency.total blockSize ((p.1, v) :: others p.1 l) =
          Recency.total blockSize l := by
        rw [← Recency.total_perm (Recency.perm_of_held hheld h.nodup), Recency.total_cons,
          Recency.total_cons, heq]
      rw [Recency.room_of_le hsize (htotal.trans_le hle)]
      have hfront := h.toFront hheld v (h.total.trans htotal.symm)
      rw [← heq] at hfront
      exact hfront
  cap c key v := by
    rw [addBlock]
    split
    · rfl
    · exact cap_evictLoop _ _

/-- **The caches account for what they hold.** With a positive capacity,
each cache is in order after every run of calls, the cache of data blocks
if no block is replaced by one of another size. -/
theorem caches_account (hcap : 0 < cap) :
    (∀ calls, Along (act addBlock) SameSize ⟨cap, 0, [], []⟩ calls →
      ∃ c, runs (act addBlock) ⟨cap, 0, [], []⟩ calls = some c ∧
        InOrder blockSize cap (fun _ => true) calls c) ∧
      (∀ calls, ∃ c, runs (act addIndex) ⟨cap, 0, [], []⟩ calls = some c ∧
        InOrder indexEntriesSize cap (fun v => decide (v ≠ [])) calls c) ∧
      ∀ calls, ∃ c, runs (act addFilter) ⟨cap, 0, [], []⟩ calls = some c ∧
        InOrder bloomFilterSize cap (fun _ => true) calls c := by
  have hnew : ∀ {α : Type}, Lru.new cap = some (⟨cap, 0, [], []⟩ : Lru UInt64 α) :=
    if_neg (not_le_of_gt hcap)
  have hfilter : Accounts bloomFilterSize (fun _ => true) addFilter fun _ _ => True :=
    accounts_addSized fun f => Int.natCast_nonneg _
  exact ⟨fun calls => inOrder_run accounts_addBlock hnew,
    fun calls => inOrder_run accounts_addIndex hnew (along_true _ _ _),
    fun calls => inOrder_run hfilter hnew (along_true _ _ _)⟩

/-- The block of an entry with a value of so many bytes. -/
def lone (n : ℕ) : Block := ⟨appendEntry [] 0 1 ⟨[1], List.replicate n 7, false, 1⟩, [0], [[1]]⟩

example : decode ((newBuilder 16 false 16 16).add ⟨[1], [7, 7], false, 1⟩).finish = .ok (lone 2) := by
  decide +kernel

/-- A block of 24 bytes is added, and replaced by another one of its size;
a third one does not fit with them. -/
def sameSizes : List (Call UInt64 Block) :=
  [.add 1 (lone 2), .add 2 (lone 2), .get 1, .add 1 (lone 2), .add 3 (lone 2)]

theorem caches_account_sameSizes :
    ∃ c, runs (act addBlock) ⟨50, 0, [], []⟩ sameSizes = some c ∧
      InOrder blockSize 50 (fun _ => true) sameSizes c :=
  (caches_account (by decide : (0 : ℤ) < 50)).1 sameSizes
    (along_of_check (by decide +kernel : check (act addBlock) SameSize _ sameSizes = true))

/-- **A block that is replaced by a larger one** is not counted: a cache
for 50 bytes holds 100, and gives its size as 24. -/
theorem replaced_block_uncounted :
    (runs (act addBlock) ⟨50, 0, [], []⟩ [.add 1 (lone 2), .add 1 (lone 78)]).map
      (fun c => (c.size, (c.slots.map fun s => blockSize s.value).sum)) = some (24, 100) := by
  decide +kernel

end LSMEngine.Format.Cache
