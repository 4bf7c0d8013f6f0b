import Mathlib.Algebra.Order.Ring.Nat
import Mathlib.Data.List.Basic
import Mathlib.Data.List.Forall2
/-!
# Lists

One element of a list, looked up, replaced or taken out, as a cut of the
list around it; a list cut into chunks of one length; and two lists side
by side.
-/

namespace LSMEngine

variable {α β : Type*} {l : List α} {i : ℕ} {a : α}

theorem exists_split_of_getElem (h : l[i]? = some a) :
    ∃ as bs, l = as ++ a :: bs ∧ (∀ b, l.set i b = as ++ b :: bs) ∧ l.eraseIdx i = as ++ bs := by
  obtain ⟨hi, rfl⟩ := List.getElem?_eq_some_iff.mp h
  refine ⟨l.take i, l.drop (i + 1), ?_, ?_, ?_⟩
  · rw [← List.drop_eq_getElem_cons hi, List.take_append_drop]
  · intro b
    rw [List.set_eq_take_append_cons_drop, if_pos hi]
  · rw [List.eraseIdx_eq_take_drop_succ]

/-- One element counts by itself. -/
theorem exists_mem_of_getElem (h : l[i]? = some a) (P : α → Prop) :
    (∃ x ∈ l, P x) ↔ P a ∨ ∃ x ∈ l.eraseIdx i, P x := by
  obtain ⟨as, bs, hl, -, herase⟩ := exists_split_of_getElem h
  rw [herase, hl]
  simp only [List.mem_append, List.mem_cons, or_and_right, exists_or, exists_eq_left]
  exact or_left_comm

/-- So does what it is replaced by. -/
theorem exists_mem_set (h : l[i]? = some a) (b : α) (P : α → Prop) :
    (∃ x ∈ l.set i b, P x) ↔ P b ∨ ∃ x ∈ l.eraseIdx i, P x := by
  obtain ⟨as, bs, -, hset, herase⟩ := exists_split_of_getElem h
  rw [herase, hset]
  simp only [List.mem_append, List.mem_cons, or_and_right, exists_or, exists_eq_left]
  exact or_left_comm

/-- One element counts by itself, and so does the rest. -/
theorem perm_cons_eraseIdx (h : l[i]? = some a) : l.Perm (a :: l.eraseIdx i) := by
  obtain ⟨as, bs, hl, -, herase⟩ := exists_split_of_getElem h
  rw [herase, hl]
  exact List.perm_middle

/-- Where an element of a list with one more at its end is. -/
theorem split_concat {as bs : List α} {x b : α} (heq : l ++ [x] = as ++ b :: bs) :
    (bs = [] ∧ b = x ∧ l = as) ∨ ∃ cs, bs = cs ++ [x] ∧ l = as ++ b :: cs := by
  rcases List.eq_nil_or_concat bs with rfl | ⟨cs, y, rfl⟩
  · obtain ⟨rfl, hx⟩ := List.append_inj' heq rfl
    exact .inl ⟨rfl, (List.singleton_inj.mp hx).symm, rfl⟩
  · rw [List.concat_eq_append, ← List.cons_append, ← List.append_assoc] at heq
    obtain ⟨rfl, hx⟩ := List.append_inj' heq rfl
    obtain rfl := List.singleton_inj.mp hx
    exact .inr ⟨cs, List.concat_eq_append, rfl⟩

/-- A list that begins another one grows by the next element. -/
theorem concat_isPrefix {l₁ l₂ : List α} (h : l₁ <+: l₂) (hnext : l₂[l₁.length]? = some a) :
    l₁ ++ [a] <+: l₂ := by
  obtain ⟨rest, rfl⟩ := h
  rw [List.getElem?_append_right (le_refl _), Nat.sub_self] at hnext
  obtain ⟨tail, rfl⟩ := List.head?_eq_some_iff.mp (List.head?_eq_getElem?.trans hnext)
  exact ⟨tail, by rw [List.append_assoc, List.singleton_append]⟩

/-- A condition that only turns off is not met by what is left once it
has. -/
theorem dropWhile_eq_filter {p : α → Bool} (h : l.Pairwise fun a b => p b → p a) :
    l.dropWhile p = l.filter fun a => !p a := by
  induction h with
  | nil => rfl
  | @cons a l ha _ ih =>
    by_cases hp : p a = true
    · rw [List.dropWhile_cons_of_pos hp, List.filter_cons_of_neg (by rw [hp]; decide), ih]
    · have hall : l.filter (fun a => !p a) = l := List.filter_eq_self.mpr fun b hb => by
        rw [Bool.not_eq_true']
        exact Bool.eq_false_iff.mpr fun hpb => hp (ha b hb hpb)
      rw [List.dropWhile_cons_of_neg hp, List.filter_cons_of_pos (by simpa using hp), hall]

theorem findSome?_congr {f g : α → Option β} (h : ∀ a ∈ l, f a = g a) :
    l.findSome? f = l.findSome? g := by
  have hmap := congrArg (List.findSome? id) (List.map_congr_left h)
  rw [List.findSome?_map, List.findSome?_map] at hmap
  exact hmap

/-! ## Chunks -/

/-- The loop that cuts off `n` elements at a time. -/
def chunksLoop (n : ℕ) : ℕ → List α → List (List α)
  | 0, _ => []
  | _ + 1, [] => []
  | fuel + 1, x :: l => (x :: l).take n :: chunksLoop n fuel ((x :: l).drop n)

/-- A list in chunks of `n` elements, the last one of what is left. -/
def chunks (n : ℕ) (l : List α) : List (List α) := chunksLoop n l.length l

theorem flatten_chunksLoop {n : ℕ} (hn : 0 < n) {fuel : ℕ} (hfuel : l.length ≤ fuel) :
    (chunksLoop n fuel l).flatten = l := by
  induction fuel generalizing l with
  | zero => rw [List.length_eq_zero_iff.mp (Nat.le_zero.mp hfuel)]; rfl
  | succ fuel ih =>
    match l, hfuel with
    | [], _ => rfl
    | x :: l, hfuel =>
      have hdrop : ((x :: l).drop n).length ≤ fuel := by
        rw [List.length_drop]
        omega
      rw [chunksLoop, List.flatten_cons, ih hdrop, List.take_append_drop]

/-- **The chunks make up the list.** -/
theorem flatten_chunks {n : ℕ} (hn : 0 < n) (l : List α) : (chunks n l).flatten = l :=
  flatten_chunksLoop hn le_rfl

theorem ne_nil_of_mem_chunksLoop {n : ℕ} (hn : 0 < n) {fuel : ℕ} {c : List α}
    (hc : c ∈ chunksLoop n fuel l) : c ≠ [] := by
  induction fuel generalizing l with
  | zero => cases hc
  | succ fuel ih =>
    match l, hc with
    | x :: l, hc =>
      rcases List.mem_cons.mp hc with rfl | hc
      · intro hnil
        have := congrArg List.length hnil
        rw [List.length_take, List.length_cons, List.length_nil] at this
        omega
      · exact ih hc

theorem ne_nil_of_mem_chunks {n : ℕ} (hn : 0 < n) {c : List α} (hc : c ∈ chunks n l) : c ≠ [] :=
  ne_nil_of_mem_chunksLoop hn hc

theorem chunksLoop_map (f : α → β) (n fuel : ℕ) (l : List α) :
    chunksLoop n fuel (l.map f) = (chunksLoop n fuel l).map (List.map f) := by
  induction fuel generalizing l with
  | zero => rfl
  | succ fuel ih =>
    match l with
    | [] => rfl
    | x :: l =>
      rw [List.map_cons, chunksLoop, chunksLoop, List.map_cons, ← List.map_cons, ← List.map_take,
        ← List.map_drop, ih]

theorem chunks_map (f : α → β) (n : ℕ) (l : List α) :
    chunks n (l.map f) = (chunks n l).map (List.map f) := by
  rw [chunks, List.length_map, chunksLoop_map, chunks]

/-! ## Side by side -/

variable {γ : Type*} {R R' : α → β → Prop} {S : β → γ → Prop} {u : List β} {v : List γ}

section

variable (h : List.Forall₂ R l u)
include h

theorem forall₂_imp_mem (himp : ∀ a ∈ l, ∀ b ∈ u, R a b → R' a b) : List.Forall₂ R' l u := by
  induction h with
  | nil => exact .nil
  | cons hab _ ih =>
    refine .cons (himp _ List.mem_cons_self _ List.mem_cons_self hab) (ih fun a ha b hb => ?_)
    exact himp a (List.mem_cons_of_mem _ ha) b (List.mem_cons_of_mem _ hb)

theorem exists_of_forall₂_left (ha : a ∈ l) : ∃ b ∈ u, R a b := by
  induction h with
  | nil => exact absurd ha List.not_mem_nil
  | cons hab _ ih =>
    rcases List.mem_cons.mp ha with rfl | ha
    · exact ⟨_, List.mem_cons_self, hab⟩
    · obtain ⟨b, hb, hR⟩ := ih ha
      exact ⟨b, List.mem_cons_of_mem _ hb, hR⟩

theorem forall₂_comp (h' : List.Forall₂ S u v) :
    List.Forall₂ (fun a c => ∃ b ∈ u, R a b ∧ S b c) l v := by
  induction h generalizing v with
  | nil =>
    cases h'
    exact .nil
  | cons hab _ ih =>
    cases h' with
    | cons hbc h' =>
      refine .cons ⟨_, List.mem_cons_self, hab, hbc⟩ ((ih h').imp ?_)
      rintro a c ⟨b, hb, hR, hS⟩
      exact ⟨b, List.mem_cons_of_mem _ hb, hR, hS⟩

theorem forall₂_chunksLoop (n fuel : ℕ) :
    List.Forall₂ (List.Forall₂ R) (chunksLoop n fuel l) (chunksLoop n fuel u) := by
  induction fuel generalizing l u with
  | zero => exact .nil
  | succ fuel ih =>
    cases h with
    | nil => exact .nil
    | cons hab h =>
      exact .cons (List.forall₂_take n (.cons hab h)) (ih (List.forall₂_drop n (.cons hab h)))

/-- Lists side by side are so in chunks. -/
theorem forall₂_chunks (n : ℕ) : List.Forall₂ (List.Forall₂ R) (chunks n l) (chunks n u) := by
  rw [chunks, chunks, h.length_eq]
  exact forall₂_chunksLoop h n _

end

end LSMEngine
