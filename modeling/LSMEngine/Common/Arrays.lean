import Mathlib.Algebra.Order.Ring.Nat
import Mathlib.Data.List.Basic
/-!
# Arrays and the slices that share them

A slice is a reference: an array and how many of its elements, from the
first on, belong to the slice. The array may be longer, up to the
capacity of the slice, and other slices may refer to it. Appending writes
behind the elements of the slice if the array has room there, and moves
to a new array otherwise; what is written in place, every slice of the
array sees.

A slice that no other one shares its array with behaves as a list of its
own (`read_push`, `read_update`), and leaves the others alone
(`read_push_of_ne`, `read_update_of_ne`).
-/

namespace LSMEngine

/-- A slice from the start of an array. -/
structure SliceRef where
  arr : ℕ
  len : ℕ
  deriving DecidableEq, Repr

/-- The arrays there are, each as long as its capacity. -/
abbrev Arrays (α : Type) := List (List α)

namespace Arrays

variable {α : Type} {h : Arrays α} {r r' : SliceRef} {l spare : List α} {a : α}

def array (h : Arrays α) (i : ℕ) : List α := h[i]?.getD []

/-- The elements of a slice. -/
def read (h : Arrays α) (r : SliceRef) : List α := (h.array r.arr).take r.len

/-- `cap`. -/
def cap (h : Arrays α) (r : SliceRef) : ℕ := (h.array r.arr).length

/-- A new array, with room behind the elements. -/
def alloc (h : Arrays α) (l spare : List α) : Arrays α × SliceRef :=
  (h ++ [l ++ spare], ⟨h.length, l.length⟩)

/-- `append` of one element. If the array is full, the new one has the
room that `grow` gives for the old capacity and the new length. -/
def push (grow : ℕ → ℕ → List α) (h : Arrays α) (r : SliceRef) (a : α) : Arrays α × SliceRef :=
  if r.len < h.cap r then (h.modify r.arr fun l => l.set r.len a, ⟨r.arr, r.len + 1⟩)
  else h.alloc (h.read r ++ [a]) (grow (h.cap r) (r.len + 1))

/-- Every element of the slice is rewritten in place. -/
def update (f : α → α) (h : Arrays α) (r : SliceRef) : Arrays α :=
  h.modify r.arr fun l => (l.take r.len).map f ++ l.drop r.len

/-- The slice is one of an array there is. -/
def Valid (h : Arrays α) (r : SliceRef) : Prop := r.arr < h.length ∧ r.len ≤ h.cap r

/-! ## New arrays -/

theorem array_append_of_lt (hlt : r.arr < h.length) (l : List α) :
    array (h ++ [l]) r.arr = h.array r.arr := by
  rw [array, array, List.getElem?_append_left hlt]

theorem read_alloc (h : Arrays α) (l spare : List α) :
    (h.alloc l spare).1.read (h.alloc l spare).2 = l := by
  simp [alloc, read, array]

theorem valid_alloc (h : Arrays α) (l spare : List α) :
    (h.alloc l spare).1.Valid (h.alloc l spare).2 := by
  simp [alloc, Valid, cap, array]

theorem Valid.alloc (hr : h.Valid r) (l spare : List α) : (h.alloc l spare).1.Valid r := by
  refine ⟨?_, ?_⟩
  · simp only [Arrays.alloc, List.length_append]
    exact Nat.lt_add_right _ hr.1
  · rw [cap, Arrays.alloc, array_append_of_lt hr.1]
    exact hr.2

/-- A new array changes no slice. -/
theorem read_alloc_of_valid (hr : h.Valid r) (l spare : List α) :
    (h.alloc l spare).1.read r = h.read r := by
  rw [read, Arrays.alloc, array_append_of_lt hr.1, read]

/-! ## Writing in place -/

theorem array_modify_self (hlt : r.arr < h.length) (f : List α → List α) :
    array (h.modify r.arr f) r.arr = f (h.array r.arr) := by
  rw [array, array, List.getElem?_modify_eq, List.getElem?_eq_getElem hlt]
  rfl

theorem array_modify_of_ne {i : ℕ} (hne : r.arr ≠ i) (f : List α → List α) :
    array (h.modify r.arr f) i = h.array i := by
  simp [array, hne]

/-- **A slice is rewritten**, and with it one of its array that is no
longer. -/
theorem read_update_of_le (hr : h.Valid r) (harr : r'.arr = r.arr) (hle : r'.len ≤ r.len)
    (f : α → α) : (h.update f r).read r' = (h.read r').map f := by
  have hlen : r'.len ≤ ((h.array r.arr).take r.len).length := by
    rw [List.length_take]
    exact le_min hle (le_trans hle hr.2)
  rw [read, harr, update, array_modify_self hr.1, List.take_append_of_le_length
    (by rw [List.length_map]; exact hlen), ← List.map_take, List.take_take, min_eq_left hle, read,
    harr]

theorem read_update (hr : h.Valid r) (f : α → α) : (h.update f r).read r = (h.read r).map f :=
  read_update_of_le hr rfl (le_refl _) f

theorem read_update_of_ne (hne : r.arr ≠ r'.arr) (f : α → α) :
    (h.update f r).read r' = h.read r' := by
  rw [read, update, array_modify_of_ne hne, read]

theorem cap_update (hr : h.Valid r) (f : α → α) (r' : SliceRef) :
    (h.update f r).cap r' = h.cap r' := by
  unfold cap update
  by_cases hne : r.arr = r'.arr
  · rw [← hne, array_modify_self hr.1, List.length_append, List.length_map, List.length_take,
      List.length_drop]
    have := hr.2
    unfold cap at this
    omega
  · rw [array_modify_of_ne hne]

theorem Valid.update (hr' : h.Valid r') (hr : h.Valid r) (f : α → α) : (h.update f r).Valid r' := by
  refine ⟨?_, ?_⟩
  · rw [Arrays.update, List.length_modify]
    exact hr'.1
  · rw [cap_update hr]
    exact hr'.2

/-! ## Appending -/

variable {grow : ℕ → ℕ → List α}

theorem push_of_lt (hlt : r.len < h.cap r) :
    push grow h r a = (h.modify r.arr fun l => l.set r.len a, ⟨r.arr, r.len + 1⟩) := if_pos hlt

theorem push_of_full (hfull : ¬r.len < h.cap r) :
    push grow h r a = h.alloc (h.read r ++ [a]) (grow (h.cap r) (r.len + 1)) := if_neg hfull

/-- **A slice grows by the element.** -/
theorem read_push (hr : h.Valid r) :
    (push grow h r a).1.read (push grow h r a).2 = h.read r ++ [a] := by
  by_cases hlt : r.len < h.cap r
  · have hset := array_modify_self hr.1 fun l => l.set r.len a
    have hlen : r.len < (h.array r.arr).length := hlt
    simp only [push_of_lt hlt, read]
    rw [hset, List.take_add_one, List.take_set, List.getElem?_set_self hlen,
      List.set_eq_of_length_le (List.length_take_le _ _)]
    rfl
  · rw [push_of_full hlt, read_alloc]

/-- What was in the slice stays where it was. -/
theorem read_push_self (hr : h.Valid r) : (push grow h r a).1.read r = h.read r := by
  by_cases hlt : r.len < h.cap r
  · have hset := array_modify_self hr.1 fun l => l.set r.len a
    simp only [push_of_lt hlt, read]
    rw [hset, List.take_set, List.set_eq_of_length_le (List.length_take_le _ _)]
  · rw [push_of_full hlt, read_alloc_of_valid hr]

theorem valid_push (hr : h.Valid r) : (push grow h r a).1.Valid (push grow h r a).2 := by
  by_cases hlt : r.len < h.cap r
  · rw [push_of_lt hlt]
    refine ⟨?_, ?_⟩
    · rw [List.length_modify]
      exact hr.1
    · rw [cap, array_modify_self hr.1, List.length_set]
      exact hlt
  · rw [push_of_full hlt]
    exact valid_alloc _ _ _

/-- It leaves alone the slices of other arrays, and all of them if it
moves. -/
theorem read_push_of_ne (hr' : h.Valid r') (hne : r.arr ≠ r'.arr ∨ ¬r.len < h.cap r) :
    (push grow h r a).1.read r' = h.read r' := by
  by_cases hlt : r.len < h.cap r
  · rw [push_of_lt hlt, read, array_modify_of_ne (hne.resolve_right (not_not.mpr hlt)), read]
  · rw [push_of_full hlt, read_alloc_of_valid hr']

theorem Valid.push (hr' : h.Valid r') (hr : h.Valid r) : (push grow h r a).1.Valid r' := by
  by_cases hlt : r.len < h.cap r
  · rw [push_of_lt hlt]
    refine ⟨?_, ?_⟩
    · rw [List.length_modify]
      exact hr'.1
    · have hle := hr'.2
      unfold cap at hle ⊢
      by_cases hne : r.arr = r'.arr
      · rw [← hne] at hle ⊢
        rw [array_modify_self hr.1, List.length_set]
        exact hle
      · rw [array_modify_of_ne hne]
        exact hle
  · rw [push_of_full hlt]
    exact hr'.alloc _ _

end Arrays

end LSMEngine
