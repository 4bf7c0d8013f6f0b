import LSMEngine.Common.Lru
import Mathlib.Algebra.BigOperators.Group.List.Basic
import Mathlib.Data.List.Nodup
import Mathlib.Logic.Function.Basic
/-!
# What a least recently used cache holds

The keys that are in use with their values, the most recent first. A call
puts a key in front (`Recency.step`), and what does not fit any more goes,
from the back: the longest part from the front that fits stays (`room`).

A cache accounts for such a list (`Lru.Exact`) if its slots are those of
the list, its map has their keys, and its size is the total of theirs.
Lookups, new slots and new values under a known key keep that, if each
slot has the size of its value.
-/

namespace LSMEngine

variable {κ α : Type} [DecidableEq κ] {size : α → ℤ} {l : List (κ × α)} {key : κ} {v : α} {cap : ℤ}
  {p : κ × α}

namespace Recency

/-- A call on a cache. -/
inductive Call (κ α : Type)
  | get (key : κ)
  | add (key : κ) (value : α)

/-- The total size. -/
def total (size : α → ℤ) (l : List (κ × α)) : ℤ := (l.map fun p => size p.2).sum

/-- The longest part from the front that fits. -/
def room (size : α → ℤ) : ℤ → List (κ × α) → List (κ × α)
  | _, [] => []
  | cap, p :: l => if size p.2 ≤ cap then p :: room size (cap - size p.2) l else []

/-- The other keys. -/
def others (key : κ) (l : List (κ × α)) : List (κ × α) := l.filter fun p => p.1 ≠ key

/-- What is held under a key. -/
def held (key : κ) (l : List (κ × α)) : Option (κ × α) := l.find? fun p => p.1 = key

/-- What is held after a call: a key that is looked up and found, and a
key that gets a value, is the most recent one. -/
def step (size : α → ℤ) (cap : ℤ) (l : List (κ × α)) : Call κ α → List (κ × α)
  | .get key => ((held key l).map fun p => p :: others key l).getD l
  | .add key v => room size cap ((key, v) :: others key l)

omit [DecidableEq κ] in
theorem total_cons (size : α → ℤ) (p : κ × α) (l : List (κ × α)) :
    total size (p :: l) = size p.2 + total size l := List.sum_cons

omit [DecidableEq κ] in
theorem total_append (size : α → ℤ) (l l' : List (κ × α)) :
    total size (l ++ l') = total size l + total size l' := by
  rw [total, List.map_append, List.sum_append]
  rfl

omit [DecidableEq κ] in
theorem total_nonneg (h : ∀ v, 0 ≤ size v) (l : List (κ × α)) : 0 ≤ total size l := by
  induction l with
  | nil => exact le_refl 0
  | cons p l ih =>
    have := h p.2
    rw [total_cons]
    omega

omit [DecidableEq κ] in
theorem total_perm {l' : List (κ × α)} (h : l.Perm l') : total size l = total size l' :=
  (h.map fun p : κ × α => size p.2).sum_eq

/-! ## What fits -/

omit [DecidableEq κ] in
theorem room_of_le (h : ∀ v, 0 ≤ size v) (hle : total size l ≤ cap) : room size cap l = l := by
  induction l generalizing cap with
  | nil => rfl
  | cons p l ih =>
    rw [total_cons] at hle
    have := total_nonneg h l
    rw [room, if_pos (by omega), ih (by omega)]

omit [DecidableEq κ] in
/-- What does not fit goes from the back. -/
theorem room_concat (p : κ × α) (hlt : cap < total size (l ++ [p])) :
    room size cap (l ++ [p]) = room size cap l := by
  induction l generalizing cap with
  | nil =>
    rw [List.nil_append, total_cons] at hlt
    have : total size ([] : List (κ × α)) = 0 := rfl
    rw [List.nil_append, room, room, if_neg (by omega)]
  | cons q l ih =>
    rw [List.cons_append, total_cons] at hlt
    rw [List.cons_append, room, room]
    split
    · rw [ih (by omega)]
    · rfl

omit [DecidableEq κ] in
theorem total_room_le (hcap : 0 ≤ cap) : total size (room size cap l) ≤ cap := by
  induction l generalizing cap with
  | nil => exact hcap
  | cons p l ih =>
    rw [room]
    split
    · have hrest : total size (room size (cap - size p.2) l) ≤ cap - size p.2 := ih (by omega)
      rw [total_cons]
      omega
    · exact hcap

omit [DecidableEq κ] in
theorem room_sublist : (room size cap l).Sublist l := by
  induction l generalizing cap with
  | nil => exact List.Sublist.refl _
  | cons p l ih =>
    rw [room]
    split
    · exact ih.cons_cons p
    · exact List.nil_sublist _

/-! ## One key in front -/

theorem held_eq_some (h : held key l = some p) : p ∈ l ∧ p.1 = key :=
  ⟨List.mem_of_find?_eq_some h, by simpa using List.find?_some h⟩

/-- A key that is held is one of the list, beside the others. -/
theorem perm_of_held (h : held key l = some p) (hl : (l.map Prod.fst).Nodup) :
    (p :: others key l).Perm l := by
  obtain ⟨hmem, rfl⟩ := held_eq_some h
  obtain ⟨as, bs, rfl⟩ := List.append_of_mem hmem
  rw [List.map_append, List.map_cons, List.nodup_middle, List.nodup_cons, List.mem_append] at hl
  have hothers : others p.1 (as ++ p :: bs) = as ++ bs := by
    rw [others, List.filter_append, List.filter_cons_of_neg (by simp), List.filter_eq_self.mpr,
      List.filter_eq_self.mpr]
    · exact fun q hq => decide_eq_true fun heq =>
        hl.1 (Or.inr (heq ▸ List.mem_map_of_mem (f := Prod.fst) hq))
    · exact fun q hq => decide_eq_true fun heq =>
        hl.1 (Or.inl (heq ▸ List.mem_map_of_mem (f := Prod.fst) hq))
  rw [hothers]
  exact List.perm_middle.symm

theorem others_of_not_held (h : held key l = none) : others key l = l :=
  List.filter_eq_self.mpr fun p hp => decide_eq_true
    fun heq => List.find?_eq_none.mp h p hp (decide_eq_true heq)

/-! ## Calls -/

/-- The last values that are added under the keys. -/
def last (f : κ → Option α) : Call κ α → κ → Option α
  | .get _ => f
  | .add key v => Function.update f key (some v)

/-- What is held after a call was held before, or is what it adds. -/
theorem mem_step {call : Call κ α} (h : p ∈ step size cap l call) :
    p ∈ l ∧ (∀ key v, call = .add key v → p.1 ≠ key) ∨ call = .add p.1 p.2 := by
  cases call with
  | get key =>
    refine Or.inl ⟨?_, fun _ _ hadd => by cases hadd⟩
    rw [step] at h
    rcases hheld : held key l with _ | q
    · rwa [hheld] at h
    · rw [hheld] at h
      rcases List.mem_cons.mp h with rfl | h
      · exact (held_eq_some hheld).1
      · exact List.mem_of_mem_filter h
  | add key v =>
    rcases List.mem_cons.mp (room_sublist.subset h) with rfl | h
    · exact Or.inr rfl
    · refine Or.inl ⟨List.mem_of_mem_filter h, ?_⟩
      rintro _ _ ⟨⟩
      exact of_decide_eq_true (List.mem_filter.mp h).2

/-- **What is held is what was added last.** -/
theorem last_of_mem {calls : List (Call κ α)} {f : κ → Option α} (hf : ∀ p ∈ l, f p.1 = some p.2) :
    ∀ p ∈ calls.foldl (step size cap) l, calls.foldl last f p.1 = some p.2 := by
  induction calls generalizing l f with
  | nil => exact hf
  | cons call calls ih =>
    refine ih fun p hp => ?_
    rcases mem_step hp with ⟨hmem, hother⟩ | rfl
    · cases call with
      | get _ => exact hf p hmem
      | add key v => exact (Function.update_of_ne (hother key v rfl) _ f).trans (hf p hmem)
    · exact Function.update_self p.1 (some p.2) f

theorem total_step_le (hl : (l.map Prod.fst).Nodup) (hcap : 0 ≤ cap) (hle : total size l ≤ cap)
    (call : Call κ α) : total size (step size cap l call) ≤ cap := by
  cases call with
  | get key =>
    rw [step]
    rcases hheld : held key l with _ | p
    · exact hle
    · exact (total_perm (perm_of_held hheld hl)).le.trans hle
  | add key v => exact total_room_le hcap

end Recency

namespace Lru

open Recency

/-- **The cache accounts for what it holds.** -/
structure Exact (size : α → ℤ) (l : List (κ × α)) (c : Lru κ α) : Prop where
  slots : c.slots = l.map fun p => ⟨p.1, p.2, size p.2⟩
  items : c.items.Perm (l.map Prod.fst)
  nodup : (l.map Prod.fst).Nodup
  total : c.size = Recency.total size l

namespace Exact

variable {c : Lru κ α} (h : Exact size l c)
include h

theorem find_eq (key : κ) : c.find key = (held key l).map fun p => ⟨p.1, p.2, size p.2⟩ := by
  have hfind : (c.slots.find? fun s => s.key = key) =
      (held key l).map fun p => ⟨p.1, p.2, size p.2⟩ := by
    rw [h.slots, List.find?_map]
    rfl
  rw [Lru.find, hfind]
  split
  · rfl
  next hkey =>
  rcases hheld : held key l with _ | p
  · rfl
  · obtain ⟨hmem, rfl⟩ := held_eq_some hheld
    exact absurd (h.items.mem_iff.mpr (List.mem_map_of_mem (f := Prod.fst) hmem)) hkey

/-- A slot at the front instead of the one under its key. -/
theorem toFront (hp : held key l = some p) (v : α) {n : ℤ}
    (hn : n = Recency.total size ((key, v) :: others key l)) :
    Exact size ((key, v) :: others key l) { c.toFront ⟨key, v, size v⟩ with size := n } := by
  have hperm := perm_of_held hp h.nodup
  have hkeys : (((key, v) :: others key l).map Prod.fst).Perm (l.map Prod.fst) := by
    have := hperm.map Prod.fst
    rwa [List.map_cons, (held_eq_some hp).2] at this
  refine ⟨?_, h.items.trans hkeys.symm, hkeys.nodup_iff.mpr h.nodup, hn⟩
  show _ :: c.slots.filter _ = _
  rw [h.slots, List.filter_map]
  rfl

/-- **A lookup.** -/
theorem get (key : κ) :
    (c.get key).1 = (held key l).map Prod.snd ∧
      Exact size (((held key l).map fun p => p :: others key l).getD l) (c.get key).2 := by
  rw [Lru.get, h.find_eq]
  rcases hp : held key l with _ | p
  · exact ⟨rfl, h⟩
  · obtain ⟨-, rfl⟩ := held_eq_some hp
    have htotal : c.size = Recency.total size ((p.1, p.2) :: others p.1 l) := by
      rw [h.total]
      exact (total_perm (perm_of_held hp h.nodup)).symm
    exact ⟨rfl, h.toFront hp p.2 htotal⟩

section

variable (hsize : ∀ v, 0 ≤ size v) (hcap : 0 ≤ c.cap)
include hsize hcap

/-- **Slots from the back go** until the rest fits. -/
theorem evictLoop :
    ∀ fuel, l.length ≤ fuel → Exact size (room size c.cap l) (evictLoop fuel c) := by
  intro fuel
  induction fuel generalizing c l with
  | zero =>
    intro hlen
    obtain rfl := List.eq_nil_of_length_eq_zero (Nat.le_zero.mp hlen)
    exact h
  | succ fuel ih =>
    intro hlen
    rw [Lru.evictLoop]
    split
    · next hfits =>
      rw [room_of_le hsize (h.total ▸ hfits)]
      exact h
    next hfull =>
    rw [h.total] at hfull
    -- the oldest stands last; an empty list fits any room
    obtain rfl | ⟨l₀, p, hl⟩ := List.eq_nil_or_concat l
    · exact absurd hcap hfull
    rw [List.concat_eq_append] at hl
    subst hl
    have hslots : c.slots = (l₀.map fun p => ⟨p.1, p.2, size p.2⟩) ++ [⟨p.1, p.2, size p.2⟩] := by
      rw [h.slots, List.map_append, List.map_singleton]
    rw [hslots, List.getLast?_concat, List.dropLast_concat, room_concat p (by omega)]
    have hkeys := h.nodup
    rw [List.map_append, List.map_singleton] at hkeys
    have hitems := h.items
    rw [List.map_append, List.map_singleton] at hitems
    have hrest : Exact size l₀ { c with
        slots := l₀.map fun p => ⟨p.1, p.2, size p.2⟩
        items := c.items.erase p.1
        size := c.size - size p.2 } := by
      refine ⟨rfl, ?_, (List.nodup_append.mp hkeys).1, ?_⟩
      · have := (hitems.trans List.perm_append_comm).erase p.1
        rwa [List.singleton_append, List.erase_cons_head] at this
      · have htotal := total_append size l₀ [p]
        have hone : Recency.total size [p] = size p.2 := List.sum_singleton
        show c.size - size p.2 = _
        rw [h.total]
        omega
    rw [List.length_append, List.length_singleton] at hlen
    have hdone := ih hrest hcap (by omega)
    exact hdone

/-- **A new slot.** -/
theorem push (hkey : held key l = none) (v : α) :
    Exact size (room size c.cap ((key, v) :: others key l)) (c.push ⟨key, v, size v⟩) := by
  rw [others_of_not_held hkey]
  have hnew : Exact size ((key, v) :: l) { c with
      slots := ⟨key, v, size v⟩ :: c.slots, items := key :: c.items, size := c.size + size v } := by
    refine ⟨?_, h.items.cons key, List.nodup_cons.mpr ⟨fun hmem => ?_, h.nodup⟩, ?_⟩
    · rw [h.slots, List.map_cons]
    · obtain ⟨p, hp, heq⟩ := List.mem_map.mp hmem
      exact List.find?_eq_none.mp hkey p hp (decide_eq_true heq)
    · show c.size + size v = _
      rw [total_cons, h.total, Int.add_comm]
  refine hnew.evictLoop hsize hcap _ ?_
  rw [List.length_cons, List.length_cons, h.slots, List.length_map]

/-- **A new value** under a known key, with its size. -/
theorem replace (hp : held key l = some p) (v : α) :
    Exact size (room size c.cap ((key, v) :: others key l))
      (Lru.evict { c.toFront ⟨key, v, size v⟩ with size := c.size - size p.2 + size v }) := by
  have htotal : Recency.total size l = size p.2 + Recency.total size (others key l) :=
    (total_perm (perm_of_held hp h.nodup)).symm.trans (total_cons size p _)
  have hnew := h.toFront hp v (n := c.size - size p.2 + size v) (by
    have := total_cons size (key, v) (others key l)
    rw [h.total, htotal, this]
    show _ = size v + _
    omega)
  refine hnew.evictLoop hsize hcap _ ?_
  rw [hnew.slots, List.length_map]

end

end Exact

end Lru

end LSMEngine
