import Mathlib.Algebra.Order.Ring.Int
import Mathlib.Data.List.Basic
/-!
# Least recently used caches

A cache with a capacity: a list of slots, the most recently used first,
a map that says which keys have a slot, and the total size of the slots.
What every value in the cache has in common (`Lru.All`) is kept by every
operation that adds nothing else, so a cached read returns a value that
was read (`fetch_cases`).
-/

namespace LSMEngine

/-- A cached value. -/
structure Slot (κ α : Type) where
  key : κ
  value : α
  size : ℤ
  deriving DecidableEq, Repr

/-- The cache: the slots by recency, and the keys of the map. -/
structure Lru (κ α : Type) where
  cap : ℤ
  size : ℤ
  slots : List (Slot κ α)
  items : List κ
  deriving DecidableEq, Repr

namespace Lru

variable {κ α : Type} [DecidableEq κ]

/-- A cache with room for something; `none` is no cache. -/
def new (cap : ℤ) : Option (Lru κ α) := if cap ≤ 0 then none else some ⟨cap, 0, [], []⟩

/-- The slot under a key that the map has. -/
def find (c : Lru κ α) (key : κ) : Option (Slot κ α) :=
  if key ∈ c.items then c.slots.find? fun s => s.key = key else none

/-- A slot at the front instead of the one under its key. -/
def toFront (c : Lru κ α) (s : Slot κ α) : Lru κ α :=
  { c with slots := s :: c.slots.filter fun t => t.key ≠ s.key }

/-- A lookup makes the slot the most recent one. -/
def get (c : Lru κ α) (key : κ) : Option α × Lru κ α :=
  match c.find key with
  | some s => (some s.value, c.toFront s)
  | none => (none, c)

/-- The slots from the back are dropped until the rest fits. -/
def evictLoop : ℕ → Lru κ α → Lru κ α
  | 0, c => c
  | fuel + 1, c =>
    if c.size ≤ c.cap then c
    else
      match c.slots.getLast? with
      | none => c
      | some s =>
        evictLoop fuel
          { c with
            slots := c.slots.dropLast, items := c.items.erase s.key, size := c.size - s.size }

def evict (c : Lru κ α) : Lru κ α := evictLoop c.slots.length c

/-- A new slot at the front. -/
def push (c : Lru κ α) (s : Slot κ α) : Lru κ α :=
  evict { c with slots := s :: c.slots, items := s.key :: c.items, size := c.size + s.size }

/-! ## What the values have in common -/

/-- Every value in the cache is one the relation allows under its key. -/
def All (Q : κ → α → Prop) (c : Lru κ α) : Prop := ∀ s ∈ c.slots, Q s.key s.value

variable {Q : κ → α → Prop} {c : Lru κ α}

omit [DecidableEq κ] in
theorem all_new {cap : ℤ} (h : new cap = some c) : All Q c := by
  unfold new at h
  split at h
  · cases h
  · obtain rfl := Option.some.inj h
    exact fun s hs => absurd hs List.not_mem_nil

theorem find_some {key : κ} {s : Slot κ α} (h : c.find key = some s) :
    s ∈ c.slots ∧ s.key = key := by
  unfold find at h
  split at h
  · exact ⟨List.mem_of_find?_eq_some h, by simpa using List.find?_some h⟩
  · cases h

theorem All.toFront (h : All Q c) {s : Slot κ α} (hs : Q s.key s.value) : All Q (c.toFront s) := by
  intro t ht
  rcases List.mem_cons.mp ht with rfl | ht
  · exact hs
  · exact h t (List.mem_of_mem_filter ht)

theorem All.get (h : All Q c) (key : κ) : All Q (c.get key).2 := by
  unfold Lru.get
  split
  · next s hs => exact h.toFront (h s (find_some hs).1)
  · exact h

/-- A hit is one of the values. -/
theorem All.of_get (h : All Q c) {key : κ} {v : α} (hv : (c.get key).1 = some v) : Q key v := by
  unfold Lru.get at hv
  split at hv
  · next s hs =>
    obtain ⟨hmem, hkey⟩ := find_some hs
    obtain rfl := Option.some.inj hv
    exact hkey ▸ h s hmem
  · cases hv

theorem All.evictLoop (fuel : ℕ) (h : All Q c) : All Q (evictLoop fuel c) := by
  induction fuel generalizing c with
  | zero => exact h
  | succ fuel ih =>
    unfold Lru.evictLoop
    split
    · exact h
    · split
      · exact h
      · exact ih fun t ht => h t (List.dropLast_subset c.slots ht)

theorem All.push (h : All Q c) {s : Slot κ α} (hs : Q s.key s.value) : All Q (c.push s) := by
  refine All.evictLoop _ fun t ht => ?_
  rcases List.mem_cons.mp ht with rfl | ht
  · exact hs
  · exact h t ht

/-! ## Reads through a cache -/

/-- A read through a cache that may be missing: what a successful read
returns is added to the cache. -/
def fetch {ε : Type} (c : Option (Lru κ α)) (add : Lru κ α → κ → α → Lru κ α) (key : κ)
    (read : Except ε α) : Except ε α × Option (Lru κ α) :=
  match c with
  | none => (read, none)
  | some c =>
    match c.get key with
    | (some v, c) => (.ok v, some c)
    | (none, c) =>
      match read with
      | .error e => (.error e, some c)
      | .ok v => (.ok v, some (add c key v))

/-- **What a read through a cache returns**: a value of the cache, or
what was read. Values that the relation allows keep the cache so. -/
theorem fetch_cases {ε : Type} {c : Option (Lru κ α)} (add : Lru κ α → κ → α → Lru κ α)
    (key : κ) (read : Except ε α) (hc : ∀ d ∈ c, All Q d)
    (hread : ∀ v, read = .ok v → Q key v)
    (hadd : ∀ d v, All Q d → Q key v → All Q (add d key v)) :
    ((∃ v, (fetch c add key read).1 = .ok v ∧ Q key v) ∨ (fetch c add key read).1 = read) ∧
      ∀ d ∈ (fetch c add key read).2, All Q d := by
  unfold fetch
  split
  · exact ⟨.inr rfl, fun d hd => by cases hd⟩
  · next c =>
    have hall : All Q c := hc c rfl
    split
    · next v d hget =>
      have hd := hall.get key
      rw [hget] at hd
      refine ⟨.inl ⟨v, rfl, hall.of_get (congrArg Prod.fst hget)⟩, fun d' hd' => ?_⟩
      obtain rfl := Option.some.inj hd'
      exact hd
    · next d hget =>
      have hd := hall.get key
      rw [hget] at hd
      split
      · refine ⟨.inr rfl, fun d' hd' => ?_⟩
        obtain rfl := Option.some.inj hd'
        exact hd
      · next v =>
        refine ⟨.inr rfl, fun d' hd' => ?_⟩
        obtain rfl := Option.some.inj hd'
        exact hadd d v hd (hread v rfl)

end Lru

end LSMEngine
