import Mathlib.Algebra.Order.Ring.Nat
import Mathlib.Data.List.Basic
/-!
# Layers of versions

A store that keeps several versions of a key keeps them in layers, and
reads the layers in a fixed order: the first layer that has the key
answers. That answer is the newest version there is exactly when every
layer is at least as recent as the layers behind it (`Recent`), and then
it depends on the versions alone and not on how they are spread over the
layers (`firstHit_congr`).
-/

namespace LSMEngine

variable {κ ν β : Type*} [LinearOrder β]

/-- What one layer answers for a key. -/
abbrev Layer (κ ν : Type*) := κ → Option ν

/-- The answer of the first layer that has the key. -/
def firstHit (ls : List (Layer κ ν)) (k : κ) : Option ν := ls.findSome? fun l => l k

/-- Where both layers have a key, the first has it in a version that is
no older. -/
def Fresher (rank : ν → β) (l l' : Layer κ ν) : Prop :=
  ∀ k v w, l k = some v → l' k = some w → rank w ≤ rank v

/-- Every layer is fresher than those behind it. -/
def Recent (rank : ν → β) (ls : List (Layer κ ν)) : Prop := ls.Pairwise (Fresher rank)

/-- A version of the key that some layer has, and none has a newer one. -/
structure IsNewest (rank : ν → β) (ls : List (Layer κ ν)) (k : κ) (v : ν) : Prop where
  held : ∃ l ∈ ls, l k = some v
  newest : ∀ l ∈ ls, ∀ w, l k = some w → rank w ≤ rank v

variable {rank : ν → β} {ls ls' : List (Layer κ ν)} {k : κ} {v w : ν}

omit [LinearOrder β] in
theorem firstHit_eq_none : firstHit ls k = none ↔ ∀ l ∈ ls, l k = none := by
  simp [firstHit]

omit [LinearOrder β] in
theorem firstHit_cons (l : Layer κ ν) (ls : List (Layer κ ν)) (k : κ) :
    firstHit (l :: ls) k = (l k).or (firstHit ls k) := by
  simp only [firstHit, List.findSome?_cons]
  cases l k <;> rfl

/-- **The first layer that has a key has its newest version.** -/
theorem isNewest_of_firstHit (h : Recent rank ls) (hit : firstHit ls k = some v) :
    IsNewest rank ls k v := by
  induction ls with
  | nil => cases hit
  | cons l ls ih =>
    obtain ⟨hl, hls⟩ := List.pairwise_cons.mp h
    rw [firstHit_cons] at hit
    cases hk : l k with
    | some x =>
      obtain rfl : x = v := by simpa [hk] using hit
      refine ⟨⟨l, List.mem_cons_self, hk⟩, ?_⟩
      intro l' hl' w hw
      rcases List.mem_cons.mp hl' with rfl | hl'
      · rw [hk] at hw
        exact le_of_eq (congrArg rank (Option.some.inj hw).symm)
      · exact hl l' hl' k x w hk hw
    | none =>
      rw [hk, Option.none_or] at hit
      obtain ⟨⟨l', hl', hv⟩, hmax⟩ := ih hls hit
      refine ⟨⟨l', List.mem_cons_of_mem _ hl', hv⟩, ?_⟩
      intro l'' hl'' w hw
      rcases List.mem_cons.mp hl'' with rfl | hl''
      · rw [hk] at hw
        cases hw
      · exact hmax l'' hl'' w hw

/-- The ranks of the versions of a key tell them apart. -/
def RankDetermines (rank : ν → β) (ls : List (Layer κ ν)) (k : κ) : Prop :=
  ∀ l ∈ ls, ∀ l' ∈ ls, ∀ v w, l k = some v → l' k = some w → rank v = rank w → v = w

/-- **The answer is the newest version**, and the only one. -/
theorem firstHit_eq_some_iff (h : Recent rank ls) (hrank : RankDetermines rank ls k) :
    firstHit ls k = some v ↔ IsNewest rank ls k v := by
  refine ⟨isNewest_of_firstHit h, fun hv => ?_⟩
  obtain ⟨l, hl, hlk⟩ := hv.held
  cases hit : firstHit ls k with
  | none =>
    rw [firstHit_eq_none.mp hit l hl] at hlk
    cases hlk
  | some w =>
    have hw := isNewest_of_firstHit h hit
    obtain ⟨l', hl', hlk'⟩ := hw.held
    have hle := hv.newest l' hl' w hlk'
    have hge := hw.newest l hl v hlk
    rw [hrank l' hl' l hl w v hlk' hlk (le_antisymm hle hge)]

/-- **Two ways of keeping the same newest versions read alike.** -/
theorem firstHit_congr (h : Recent rank ls) (h' : Recent rank ls')
    (hrank : RankDetermines rank ls' k)
    (hsame : ∀ v, IsNewest rank ls k v → IsNewest rank ls' k v)
    (hnone : (∀ l ∈ ls, l k = none) → ∀ l ∈ ls', l k = none) :
    firstHit ls' k = firstHit ls k := by
  cases hit : firstHit ls k with
  | none => exact firstHit_eq_none.mpr (hnone (firstHit_eq_none.mp hit))
  | some v => exact (firstHit_eq_some_iff h' hrank).mpr (hsame v (isNewest_of_firstHit h hit))

end LSMEngine
