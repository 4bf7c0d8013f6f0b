import Mathlib.Algebra.Order.Ring.Nat
import Mathlib.Data.List.Basic
import Mathlib.Data.List.Nodup
/-!
# Chains of pointers

A linked list in a heap: `next` gives the successor of a cell, or of
the head of the list, which is `none` here. `Linked next x l` says that
the cells behind `x` are those of `l`, in order.

What a search does on such a list is told by the list: `walk` stops at
the last cell of its first part (`walk_eq`), and `follow` collects it
(`follow_eq`). A cell linked in between two parts is found between them
(`linked_insert`).
-/

namespace LSMEngine

variable {ι : Type} {next next' : Option ι → Option ι} {x : Option ι}

/-- The cells behind one, in order. -/
def Linked (next : Option ι → Option ι) : Option ι → List ι → Prop
  | x, [] => next x = none
  | x, i :: is => next x = some i ∧ Linked next (some i) is

/-- The last cell with all cells up to it satisfying a test, from a cell
on. -/
def walk (next : Option ι → Option ι) (p : ι → Bool) : ℕ → Option ι → Option ι
  | 0, x => x
  | fuel + 1, x =>
    match next x with
    | none => x
    | some i => if p i then walk next p fuel (some i) else x

/-- The cells behind one. -/
def follow (next : Option ι → Option ι) : ℕ → Option ι → List ι
  | 0, _ => []
  | fuel + 1, x =>
    match next x with
    | none => []
    | some i => i :: follow next fuel (some i)

/-- The last cell of a chain is one of its cells, or where it starts. -/
theorem or_getLast?_cons (j : ι) (js : List ι) (x : Option ι) :
    (j :: js).getLast?.or x = js.getLast?.or (some j) := by
  cases js with
  | nil => rfl
  | cons k ks =>
    rw [List.getLast?_cons_cons, List.getLast?_eq_some_getLast (List.cons_ne_nil k ks)]
    rfl

theorem linked_append {l l' : List ι} :
    Linked next x (l ++ l') → Linked next (l.getLast?.or x) l' := by
  induction l generalizing x with
  | nil => exact id
  | cons i is ih =>
    rintro ⟨-, h⟩
    rw [or_getLast?_cons]
    exact ih h

/-- The successor of the last cell of a part is the first of the next. -/
theorem next_of_linked {l : List ι} (h : Linked next x l) : next x = l.head? := by
  cases l with
  | nil => exact h
  | cons i is => exact h.1

/-- A walk stops behind the part that satisfies the test. -/
theorem walk_eq {p : ι → Bool} {l l' : List ι} {fuel : ℕ} (h : Linked next x (l ++ l'))
    (hl : ∀ i ∈ l, p i = true) (hl' : ∀ i ∈ l', p i = false) (hfuel : l.length ≤ fuel) :
    walk next p fuel x = l.getLast?.or x := by
  induction fuel generalizing x l with
  | zero =>
    rw [List.length_eq_zero_iff.mp (Nat.le_zero.mp hfuel)]
    rfl
  | succ fuel ih =>
    rw [walk, next_of_linked h]
    rcases l with - | ⟨i, is⟩
    · rcases l' with - | ⟨i, is⟩
      · rfl
      · exact if_neg (by simp [hl' i List.mem_cons_self])
    · rw [List.length_cons] at hfuel
      rw [or_getLast?_cons]
      exact (if_pos (hl i List.mem_cons_self)).trans
        (ih h.2 (fun j hj => hl j (List.mem_cons_of_mem _ hj)) (by omega))

theorem follow_eq {l : List ι} {fuel : ℕ} (h : Linked next x l) (hfuel : l.length ≤ fuel) :
    follow next fuel x = l := by
  induction fuel generalizing x l with
  | zero => rw [List.length_eq_zero_iff.mp (by omega : l.length = 0)]; rfl
  | succ fuel ih =>
    rw [follow, next_of_linked h]
    cases l with
    | nil => rfl
    | cons i is =>
      rw [List.length_cons] at hfuel
      dsimp only [List.head?_cons]
      rw [ih h.2 (by omega)]

/-- A chain depends on the successors of its cells only. -/
theorem Linked.congr {l : List ι} (h : Linked next x l) (hx : next' x = next x)
    (hl : ∀ i ∈ l, next' (some i) = next (some i)) : Linked next' x l := by
  induction l generalizing x with
  | nil => exact hx.trans h
  | cons i is ih =>
    exact ⟨hx.trans h.1, ih h.2 (hl i List.mem_cons_self)
      fun j hj => hl j (List.mem_cons_of_mem _ hj)⟩

/-- **A cell is linked in** behind the last cell of the first part. -/
theorem linked_insert {l l' : List ι} {i : ι} (h : Linked next x (l ++ l'))
    (hnodup : (l ++ l').Nodup) (hi : i ∉ l ++ l') (hx : ∀ j, x = some j → j ∉ l ++ l' ∧ j ≠ i)
    (hlast : next' (l.getLast?.or x) = some i)
    (hnew : next' (some i) = next (l.getLast?.or x))
    (hrest : ∀ y, y ≠ l.getLast?.or x → y ≠ some i → next' y = next y) :
    Linked next' x (l ++ i :: l') := by
  induction l generalizing x with
  | nil =>
    refine ⟨hlast, ?_⟩
    -- what follows the new cell is what followed the last of the first part
    have hsame : ∀ j ∈ l', next' (some j) = next (some j) := by
      intro j hj
      refine hrest _ (fun hjx => (hx j hjx.symm).1 hj) fun hji => ?_
      obtain rfl := Option.some.inj hji
      exact hi hj
    cases l' with
    | nil => exact hnew.trans h
    | cons j js =>
      exact ⟨hnew.trans h.1, h.2.congr (hsame j List.mem_cons_self)
        fun k hk => hsame k (List.mem_cons_of_mem _ hk)⟩
  | cons j js ih =>
    rw [or_getLast?_cons] at hlast hnew hrest
    obtain ⟨hj, hnodup'⟩ := List.nodup_cons.mp hnodup
    have hnext : next' x = next x := by
      refine hrest x (fun hxt => ?_) fun hxi => (hx i hxi).2 rfl
      cases hjs : js.getLast? with
      | none =>
        rw [hjs] at hxt
        exact (hx j hxt).1 List.mem_cons_self
      | some k =>
        rw [hjs] at hxt
        exact (hx k hxt).1 (List.mem_cons_of_mem _
          (List.mem_append_left _ (List.mem_of_getLast? hjs)))
    refine ⟨hnext.trans h.1, ih h.2 hnodup' (fun hm => hi (List.mem_cons_of_mem _ hm)) ?_
      hlast hnew hrest⟩
    rintro k hk
    obtain rfl := Option.some.inj hk
    exact ⟨hj, fun hji => hi (hji ▸ List.mem_cons_self)⟩

end LSMEngine
