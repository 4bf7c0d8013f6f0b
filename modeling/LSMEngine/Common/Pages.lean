import Mathlib.Algebra.Order.Ring.Nat
import Mathlib.Data.List.Basic
import Mathlib.Order.Lattice
/-!
# Logs that are read in pages

A log of items, each with a key, from which old items go as new ones
come. Who reads it asks for the items beyond a key, gets a page of them
(`page`), and asks beyond the last key of the page the next time
(`nextKey`). If the keys ascend, no item is passed over: what the log
holds is still ahead of the reader, or the reader has it
(`Reader.Follows`). Reading keeps that, and so does every item that comes
with a key beyond those before, whatever goes.
-/

namespace LSMEngine

variable {α κ : Type*} [LinearOrder κ] {key : α → κ} {l l' : List α} {a : α}
  {offset offset' : κ} {limit : ℕ}

/-- The keys ascend. -/
def Ascending (key : α → κ) (l : List α) : Prop := l.Pairwise fun a b => key a < key b

/-- At most so many of the items beyond a key. -/
def page (key : α → κ) (offset : κ) (limit : ℕ) (l : List α) : List α :=
  (l.filter fun a => offset < key a).take limit

/-- The last key of a page, or the one before it. -/
def nextKey (key : α → κ) (offset : κ) (p : List α) : κ := (p.getLast?.map key).getD offset

omit [LinearOrder κ] in
theorem nextKey_append_singleton (key : α → κ) (offset : κ) (p : List α) (a : α) :
    nextKey key offset (p ++ [a]) = key a := by
  rw [nextKey, List.getLast?_append, List.getLast?_singleton]
  rfl

omit [LinearOrder κ] in
theorem nextKey_cons (key : α → κ) (offset : κ) (a : α) (p : List α) :
    nextKey key offset (a :: p) = nextKey key (key a) p := by
  rw [nextKey, nextKey, List.getLast?_cons]
  rcases p.getLast? with _ | b <;> rfl

theorem page_cons_of_le (h : key a ≤ offset) :
    page key offset limit (a :: l) = page key offset limit l := by
  rw [page, List.filter_cons_of_neg (by simpa using h), page]

theorem page_cons_of_lt (h : offset < key a) :
    page key offset (limit + 1) (a :: l) = a :: page key offset limit l := by
  rw [page, List.filter_cons_of_pos (by simpa using h), List.take_succ_cons, page]

/-! ## Ascending logs -/

theorem Ascending.sublist (h : Ascending key l) (hl : l'.Sublist l) : Ascending key l' :=
  List.Pairwise.sublist hl h

theorem Ascending.append_singleton (h : Ascending key l) (ha : ∀ b ∈ l, key b < key a) :
    Ascending key (l ++ [a]) := by
  rw [Ascending, List.pairwise_append]
  refine ⟨h, List.pairwise_singleton _ a, fun b hb c hc => ?_⟩
  rw [List.mem_singleton.mp hc]
  exact ha b hb

/-- The last key is the largest. -/
theorem Ascending.le_getLast (h : Ascending key l) (ha : a ∈ l) :
    ∃ b, l.getLast? = some b ∧ key a ≤ key b := by
  obtain rfl | ⟨l₀, b, hl⟩ := List.eq_nil_or_concat l
  · exact absurd ha List.not_mem_nil
  rw [hl, List.concat_eq_append] at h ha ⊢
  refine ⟨b, List.getLast?_concat, ?_⟩
  rcases List.mem_append.mp ha with ha | ha
  · exact le_of_lt ((List.pairwise_append.mp h).2.2 a ha b List.mem_cons_self)
  · rw [List.mem_singleton.mp ha]

/-- **A page leaves nothing out.** What is beyond the key, but not beyond
the last key of the page, is on the page. -/
theorem Ascending.mem_page (h : Ascending key l) (ha : a ∈ l) (hbeyond : offset < key a)
    (hle : key a ≤ nextKey key offset (page key offset limit l)) : a ∈ page key offset limit l := by
  have hfilter : Ascending key (l.filter fun a => offset < key a) := h.sublist List.filter_sublist
  have hmem : a ∈ l.filter fun a => offset < key a :=
    List.mem_filter.mpr ⟨ha, decide_eq_true hbeyond⟩
  rw [page] at hle ⊢
  rw [← List.take_append_drop limit (l.filter fun a => offset < key a)] at hfilter hmem
  rcases List.mem_append.mp hmem with hmem | hmem
  · exact hmem
  · -- items behind the page have larger keys than the last one on it
    obtain hnil | ⟨p, b, hp⟩ := List.eq_nil_or_concat
      ((l.filter fun a => offset < key a).take limit)
    · rw [hnil] at hle
      exact absurd hle (not_le_of_gt hbeyond)
    · rw [List.concat_eq_append] at hp
      rw [hp] at hfilter hle
      rw [nextKey_append_singleton] at hle
      have := (List.pairwise_append.mp hfilter).2.2 b
        (List.mem_append_right _ List.mem_cons_self) a hmem
      exact absurd hle (not_le_of_gt this)

/-! ## Readers -/

/-- Who reads a log: where they started, the key they ask beyond, and what
they have. -/
structure Reader (α κ : Type*) where
  start : κ
  offset : κ
  received : List α
  deriving DecidableEq, Repr

namespace Reader

variable {r : Reader α κ}

/-- The reader takes a page. -/
def take (key : α → κ) (r : Reader α κ) (p : List α) : Reader α κ :=
  { r with offset := nextKey key r.offset p, received := r.received ++ p }

/-- **The reader follows the log.** What it holds beyond the start is still
ahead, or the reader has it; and the reader is not beyond its end. -/
structure Follows (key : α → κ) (l : List α) (r : Reader α κ) : Prop where
  kept : ∀ a ∈ l, r.start < key a → a ∈ r.received ∨ r.offset < key a
  bounded : r.offset = r.start ∨ ∃ a, l.getLast? = some a ∧ r.offset ≤ key a

theorem follows_of_start (h : r.offset = r.start) : Follows key l r :=
  ⟨fun _ _ hstart => Or.inr (h ▸ hstart), Or.inl h⟩

/-- **Reading a page** keeps it. -/
theorem Follows.take (h : Follows key l r) (hl : Ascending key l) (limit : ℕ) :
    Follows key l (r.take key (page key r.offset limit l)) := by
  refine ⟨fun a ha hstart => ?_, ?_⟩
  · rcases h.kept a ha hstart with hreceived | hahead
    · exact Or.inl (List.mem_append_left _ hreceived)
    · rcases lt_or_ge (nextKey key r.offset (page key r.offset limit l)) (key a) with hlt | hle
      · exact Or.inr hlt
      · exact Or.inl (List.mem_append_right _ (hl.mem_page ha hahead hle))
  · obtain hnil | ⟨p, b, hp⟩ := List.eq_nil_or_concat (page key r.offset limit l)
    · rw [hnil]
      exact h.bounded
    · rw [List.concat_eq_append] at hp
      have hb : b ∈ page key r.offset limit l := by
        rw [hp]
        exact List.mem_append_right _ List.mem_cons_self
      refine Or.inr ?_
      rw [Reader.take, hp, nextKey_append_singleton]
      exact hl.le_getLast (List.mem_filter.mp (List.mem_of_mem_take hb)).1

/-- **An item that comes** with a key beyond the others keeps it. -/
theorem Follows.push (h : Follows key l r) (ha : ∀ b ∈ l, key b < key a) :
    Follows key (l ++ [a]) r := by
  have hbehind : r.offset = r.start ∨ r.offset < key a := by
    refine h.bounded.imp_right ?_
    rintro ⟨b, hb, hle⟩
    exact lt_of_le_of_lt hle (ha b (List.mem_of_getLast? hb))
  refine ⟨fun b hb hstart => ?_, hbehind.imp_right fun hlt => ⟨a, List.getLast?_concat, hlt.le⟩⟩
  rcases List.mem_append.mp hb with hb | hb
  · exact h.kept b hb hstart
  · rw [List.mem_singleton.mp hb] at hstart ⊢
    exact Or.inr (hbehind.elim (fun heq => heq ▸ hstart) id)

/-- **Items that go** keep it, if the last one stays. -/
theorem Follows.drop (h : Follows key l r) {k : ℕ} (hk : k < l.length) :
    Follows key (l.drop k) r := by
  refine ⟨fun b hb hstart => h.kept b (List.mem_of_mem_drop hb) hstart, ?_⟩
  rw [List.getLast?_drop, if_neg (not_le_of_gt hk)]
  exact h.bounded

end Reader

end LSMEngine
