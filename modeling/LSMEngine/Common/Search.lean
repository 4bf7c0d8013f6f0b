import Mathlib.Algebra.Order.Ring.Nat
import Mathlib.Data.List.TakeWhile
/-!
# Binary search

`sort.Search` finds the first index at which a predicate holds, provided
that it holds from there on (`search_eq`). On the elements of a list it
cuts the list in two (`search_list`).
-/

namespace LSMEngine

/-- The loop of `sort.Search`. -/
def searchLoop (f : ℕ → Bool) : ℕ → ℕ → ℕ → ℕ
  | 0, i, _ => i
  | fuel + 1, i, j =>
    if i < j then
      if f ((i + j) / 2) then searchLoop f fuel i ((i + j) / 2)
      else searchLoop f fuel ((i + j) / 2 + 1) j
    else i

/-- `sort.Search`. -/
def search (n : ℕ) (f : ℕ → Bool) : ℕ := searchLoop f n 0 n

/-- The loop closes in on the place where the predicate turns. -/
theorem searchLoop_eq {f : ℕ → Bool} {fuel i j r : ℕ} (hfuel : j - i ≤ fuel) (hir : i ≤ r)
    (hrj : r ≤ j) (hbelow : ∀ x, x < r → f x = false) (habove : ∀ x, r ≤ x → x < j → f x = true) :
    searchLoop f fuel i j = r := by
  induction fuel generalizing i j with
  | zero =>
    rw [searchLoop]
    omega
  | succ fuel ih =>
    rw [searchLoop]
    split
    · next hij =>
      -- the middle is below the turn or not
      by_cases hmid : (i + j) / 2 < r
      · rw [hbelow _ hmid, if_neg Bool.false_ne_true]
        exact ih (by omega) (by omega) hrj habove
      · rw [habove ((i + j) / 2) (by omega) (by omega), if_pos rfl]
        exact ih (by omega) hir (by omega) fun x hx hxj => habove x hx (by omega)
    · omega

/-- **The first index at which the predicate holds.** -/
theorem search_eq {n r : ℕ} {f : ℕ → Bool} (hr : r ≤ n) (hbelow : ∀ x, x < r → f x = false)
    (habove : ∀ x, r ≤ x → x < n → f x = true) : search n f = r :=
  searchLoop_eq (by omega) (Nat.zero_le r) hr hbelow habove

theorem searchLoop_le {f : ℕ → Bool} {fuel i j : ℕ} (hij : i ≤ j) : searchLoop f fuel i j ≤ j := by
  induction fuel generalizing i j with
  | zero => exact hij
  | succ fuel ih =>
    rw [searchLoop]
    split
    · split
      · exact le_trans (ih (by omega)) (by omega)
      · exact ih (by omega)
    · exact hij

/-- Whatever the predicate, the index is among those searched or right
behind them. -/
theorem search_le (n : ℕ) (f : ℕ → Bool) : search n f ≤ n :=
  searchLoop_le (Nat.zero_le n)

section Lists

variable {α : Type*} {l : List α} {p : α → Bool}

/-- What follows the elements without the property has it, if the
property is kept from one element to the next. -/
theorem of_mem_dropWhile_not (h : l.Pairwise fun a b => p a = true → p b = true) {x : α}
    (hx : x ∈ l.dropWhile fun y => !p y) : p x = true := by
  induction l with
  | nil => cases hx
  | cons y l ih =>
    rw [List.pairwise_cons] at h
    by_cases hy : p y = true
    · rw [List.dropWhile_cons_of_neg (by simp [hy])] at hx
      rcases List.mem_cons.mp hx with rfl | hx
      · exact hy
      · exact h.1 x hx hy
    · rw [List.dropWhile_cons_of_pos (by simp [hy])] at hx
      exact ih h.2 hx

/-- **The search in a list** cuts it where the property begins. -/
theorem search_list (h : l.Pairwise fun a b => p a = true → p b = true) :
    ∃ as bs, l = as ++ bs ∧ search l.length (fun i => (l[i]?).any p) = as.length ∧
      (∀ a ∈ as, p a = false) ∧ ∀ b ∈ bs, p b = true := by
  have hbelow : ∀ a ∈ l.takeWhile fun y => !p y, p a = false := fun a ha => by
    simpa using List.mem_takeWhile_imp ha
  refine ⟨l.takeWhile fun y => !p y, l.dropWhile fun y => !p y,
    List.takeWhile_append_dropWhile.symm, ?_, hbelow, fun b => of_mem_dropWhile_not h⟩
  have hsplit := List.takeWhile_append_dropWhile (p := fun y => !p y) (l := l)
  refine search_eq (List.takeWhile_sublist _).length_le (fun i hi => ?_) fun i hi hil => ?_
  · -- an element of the first part
    have hget : l[i]? = (l.takeWhile fun y => !p y)[i]? := by
      conv_lhs => rw [← hsplit]
      exact List.getElem?_append_left hi
    rw [hget, List.getElem?_eq_getElem hi, Option.any_some]
    exact hbelow _ (List.getElem_mem hi)
  · -- one of the second
    have hget : l[i]? = (l.dropWhile fun y => !p y)[i - (l.takeWhile fun y => !p y).length]? := by
      conv_lhs => rw [← hsplit]
      exact List.getElem?_append_right hi
    obtain ⟨x, hx⟩ : ∃ x, l[i]? = some x := ⟨_, List.getElem?_eq_getElem hil⟩
    rw [hx, Option.any_some]
    exact of_mem_dropWhile_not h (List.mem_of_getElem? (hget ▸ hx))

end Lists

end LSMEngine
