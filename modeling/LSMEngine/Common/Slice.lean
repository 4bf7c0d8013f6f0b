import Mathlib.Algebra.Order.Ring.Nat
import Mathlib.Data.List.Basic
/-!
# Slices

`b[i:j]` of a byte slice, with the bounds the language checks. A buffer
that is put together from parts gives the parts back.
-/

namespace LSMEngine

variable {α : Type*}

/-- `b[i:j]`, which faults out of bounds. -/
def slice (b : List α) (i j : ℕ) : Option (List α) :=
  if i ≤ j ∧ j ≤ b.length then some ((b.drop i).take (j - i)) else none

theorem slice_of_le {b : List α} {i j : ℕ} (hij : i ≤ j) (hj : j ≤ b.length) :
    slice b i j = some ((b.drop i).take (j - i)) := if_pos ⟨hij, hj⟩

/-- **A part of a buffer.** -/
theorem slice_append {x y z : List α} {i j : ℕ} (hi : i = x.length) (hj : j = i + y.length) :
    slice (x ++ (y ++ z)) i j = some y := by
  subst hi hj
  rw [slice_of_le (Nat.le_add_right _ _) (by simp only [List.length_append]; omega), List.drop_left,
    Nat.add_sub_cancel_left, List.take_left]

/-- A buffer of parts, around one of them. -/
theorem flatten_around {fs : List (List α)} {f : List α} {k : ℕ} (hf : fs[k]? = some f) :
    fs.flatten = (fs.take k).flatten ++ (f ++ (fs.drop (k + 1)).flatten) := by
  obtain ⟨hk, rfl⟩ := List.getElem?_eq_some_iff.mp hf
  rw [← List.flatten_cons, ← List.drop_eq_getElem_cons hk, ← List.flatten_append,
    List.take_append_drop]

/-- **A part of a buffer of parts**, between the lengths of those before
it and its end. -/
theorem slice_flatten {fs : List (List α)} {f : List α} {k i j : ℕ} (hf : fs[k]? = some f)
    (hi : (fs.take k).flatten.length = i) (hj : i + f.length = j) :
    slice fs.flatten i j = some f := by
  rw [flatten_around hf]
  exact slice_append hi.symm hj.symm

end LSMEngine
