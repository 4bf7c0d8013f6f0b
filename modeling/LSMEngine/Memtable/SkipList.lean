import LSMEngine.Common.Search
import LSMEngine.Memtable.Model.SkipList
import Mathlib.Data.List.Dedup
import Mathlib.Data.List.Induction
/-!
# Memtable — the levels of a skip list

A skip list stands for an order of its nodes (`Rep`): by strictly
increasing keys, and such that the chain of every level is the part of
the order whose towers reach the level. A key cuts the order in two
(`Cut`). Its search ends, on every level, at the last node of the chain
before the cut (`tip`), so that the node `findPrev` returns is the last
one before the key at all.

A new node goes behind the tips of its levels, which puts it into every
one of these chains at the cut (`rep_insert`). So every run of writes
ends in a skip list of the latest entries (`levels_upserts`).
-/

namespace LSMEngine.Memtable

variable {i j : ℕ} {f : Bytes → Option Entry}

namespace SkipList

variable {s t : SkipList} {order before behind : List ℕ} {k : Bytes}

/-- The levels of a node, or of the head. -/
def tower (s : SkipList) : Option ℕ → ℕ
  | none => s.head.length
  | some j => (s.nodes[j]?.map fun node => node.next.length).getD 0

/-- The part of an order that takes part in a level. -/
def chain (s : SkipList) (order : List ℕ) (i : ℕ) : List ℕ :=
  order.filter fun j => i < s.tower (some j)

/-- **The order of a skip list.** -/
structure Rep (s : SkipList) (order : List ℕ) : Prop where
  linked : ∀ i, Linked (s.next i) none (s.chain order i)
  sorted : order.Pairwise fun a b => s.keyOf a < s.keyOf b
  mem : ∀ j, j ∈ order ↔ j < s.nodes.length
  head : s.head.length = skiplistMaxLevel
  level : 1 ≤ s.level ∧ s.level ≤ skiplistMaxLevel
  tower : ∀ j < s.nodes.length, 1 ≤ s.tower (some j) ∧ s.tower (some j) ≤ s.level
  length : s.length = s.nodes.length

/-- The nodes before a key, and those from it on. -/
structure Cut (s : SkipList) (k : Bytes) (before behind : List ℕ) : Prop where
  before : ∀ j ∈ before, s.keyOf j < k
  behind : ∀ j ∈ behind, k ≤ s.keyOf j

theorem rep_new : Rep new [] where
  linked i := by
    change (List.replicate skiplistMaxLevel (none : Option ℕ))[i]?.join = none
    rw [List.getElem?_replicate]
    split <;> rfl
  sorted := List.Pairwise.nil
  mem j := ⟨fun h => absurd h List.not_mem_nil, fun h => absurd h (Nat.not_lt_zero j)⟩
  head := List.length_replicate
  level := ⟨le_rfl, by decide⟩
  tower j h := absurd h (Nat.not_lt_zero j)
  length := rfl

theorem chain_append (s : SkipList) (l l' : List ℕ) (i : ℕ) :
    s.chain (l ++ l') i = s.chain l i ++ s.chain l' i := List.filter_append ..

theorem mem_chain {l : List ℕ} : j ∈ s.chain l i ↔ j ∈ l ∧ i < s.tower (some j) := by
  rw [chain, List.mem_filter, decide_eq_true_eq]

namespace Rep

section

variable (h : Rep s order)
include h

theorem nodup : order.Nodup :=
  h.sorted.imp fun hlt heq => absurd (heq ▸ hlt) (lt_irrefl _)

theorem length_order : order.length = s.nodes.length := by
  have hperm : order.Perm (List.range s.nodes.length) := by
    refine (List.perm_ext_iff_of_nodup h.nodup List.nodup_range).mpr fun j => ?_
    rw [h.mem, List.mem_range]
  rw [hperm.length_eq, List.length_range]

theorem length_chain_le (i : ℕ) : (s.chain order i).length ≤ s.nodes.length :=
  h.length_order ▸ List.length_filter_le ..

/-- Every node is on the lowest level. -/
theorem chain_zero {l : List ℕ} (hl : ∀ j ∈ l, j ∈ order) : s.chain l 0 = l := by
  refine List.filter_eq_self.mpr fun j hj => decide_eq_true ?_
  have := h.tower j ((h.mem j).mp (hl j hj))
  omega

/-- Above the level of the list nothing is linked. -/
theorem chain_of_le {l : List ℕ} (hl : ∀ j ∈ l, j ∈ order) (hi : s.level ≤ i) :
    s.chain l i = [] := by
  refine List.filter_eq_nil_iff.mpr fun j hj => ?_
  have := h.tower j ((h.mem j).mp (hl j hj))
  rw [decide_eq_true_eq]
  omega

theorem exists_cut (k : Bytes) :
    ∃ before behind, order = before ++ behind ∧ Cut s k before behind := by
  have hsorted : order.Pairwise fun a b =>
      decide (k ≤ s.keyOf a) = true → decide (k ≤ s.keyOf b) = true := by
    refine h.sorted.imp fun {a b} hab ha => ?_
    rw [decide_eq_true_eq] at ha ⊢
    exact ha.trans hab.le
  obtain ⟨before, behind, hsplit, -, hbefore, hbehind⟩ := search_list hsorted
  exact ⟨before, behind, hsplit, fun j hj => not_le.mp (of_decide_eq_false (hbefore j hj)),
    fun j hj => of_decide_eq_true (hbehind j hj)⟩

end

end Rep

/-! ## Searching -/

/-- The last node of a level before a key. -/
def tip (s : SkipList) (before : List ℕ) (i : ℕ) : Option ℕ := (s.chain before i).getLast?

theorem mem_of_tip (h : s.tip before i = some j) : j ∈ before ∧ i < s.tower (some j) :=
  mem_chain.mp (List.mem_of_getLast? h)

theorem linked_tip (h : Rep s (before ++ behind)) (i : ℕ) :
    Linked (s.next i) (s.tip before i) (s.chain behind i) := by
  have hlinked := h.linked i
  rw [chain_append] at hlinked
  have hrest := linked_append hlinked
  rwa [Option.or_none] at hrest

theorem walk_tip (h : Rep s (before ++ behind)) (hcut : Cut s k before behind) (i : ℕ) :
    walk (s.next i) (fun j => s.keyOf j < k) s.nodes.length (s.tip before (i + 1)) =
      s.tip before i := by
  have hlen := h.length_chain_le i
  have hlinked := h.linked i
  rw [chain_append] at hlen hlinked
  have hbefore : ∀ j ∈ s.chain before i, decide (s.keyOf j < k) = true := fun j hj =>
    decide_eq_true (hcut.before j (mem_chain.mp hj).1)
  have hbehind : ∀ j ∈ s.chain behind i, decide (s.keyOf j < k) = false := fun j hj =>
    decide_eq_false (not_lt.mpr (hcut.behind j (mem_chain.mp hj).1))
  rw [List.length_append] at hlen
  cases htip : s.tip before (i + 1) with
  | none =>
    rw [walk_eq hlinked hbefore hbehind (by omega), Option.or_none]
    rfl
  | some j =>
    -- the node the level above is left at stands on this level too
    obtain ⟨hj, htower⟩ := mem_of_tip htip
    obtain ⟨pre, rest, hsplit⟩ := List.append_of_mem (mem_chain.mpr ⟨hj, Nat.lt_of_succ_lt htower⟩)
    rw [hsplit, List.append_cons, List.append_assoc] at hlinked
    have hrest := linked_append hlinked
    rw [List.getLast?_concat, Option.or_none] at hrest
    rw [hsplit, List.length_append, List.length_cons] at hlen
    rw [walk_eq hrest (fun a ha => hbefore a ?_) hbehind (by omega), tip, hsplit,
      List.getLast?_append, or_getLast?_cons]
    rw [hsplit]
    exact List.mem_append_right _ (List.mem_cons_of_mem _ ha)

/-- **No search reads past a tower.** From a node that is on a level a
walk comes to such nodes only. A search starts at the head, which is on
every level, and goes down. -/
theorem lt_tower_walk (h : Rep s order) {x : Option ℕ} (hx : i < s.tower x) (p : ℕ → Bool)
    (fuel : ℕ) : i < s.tower (walk (s.next i) p fuel x) := by
  have hnext : ∀ {x j}, i < s.tower x → s.next i x = some j → i < s.tower (some j) := by
    intro x j hx hj
    suffices hmem : j ∈ s.chain order i from (mem_chain.mp hmem).2
    cases x with
    | none => exact List.mem_of_head? ((next_of_linked (h.linked i)).symm.trans hj)
    | some a =>
      have ha : a < s.nodes.length := by
        by_contra hge
        rw [tower, List.getElem?_eq_none (not_lt.mp hge)] at hx
        exact absurd hx (Nat.not_lt_zero i)
      obtain ⟨pre, rest, hsplit⟩ := List.append_of_mem (mem_chain.mpr ⟨(h.mem a).mpr ha, hx⟩)
      have hlinked := h.linked i
      rw [hsplit, List.append_cons] at hlinked
      have hrest := linked_append hlinked
      rw [List.getLast?_concat] at hrest
      rw [hsplit]
      exact List.mem_append_right _
        (List.mem_cons_of_mem _ (List.mem_of_head? ((next_of_linked hrest).symm.trans hj)))
  induction fuel generalizing x with
  | zero => exact hx
  | succ fuel ih =>
    rw [walk]
    split
    · exact hx
    · next j hj =>
      split
      · exact ih (hnext hx hj)
      · exact hx

section

variable (h : Rep s (before ++ behind))
include h

theorem findPrevLoop_eq (hcut : Cut s k before behind) (i : ℕ) (update : List (Option ℕ)) :
    s.findPrevLoop k i (s.tip before i) update =
      (s.tip before 0, (List.range i).map (s.tip before) ++ update) := by
  induction i generalizing update with
  | zero => rfl
  | succ i ih =>
    rw [findPrevLoop, walk_tip h hcut, ih, List.range_succ, List.map_append, List.append_assoc]
    rfl

theorem tip_of_le (hi : s.level ≤ i) : s.tip before i = none := by
  rw [tip, h.chain_of_le (fun j hj => List.mem_append_left _ hj) hi]
  rfl

/-- **The search of a key** ends at the tips. -/
theorem findPrev_eq (hcut : Cut s k before behind) :
    s.findPrev k = (s.tip before 0, (List.range s.level).map (s.tip before)) := by
  have hloop := findPrevLoop_eq h hcut s.level []
  rwa [tip_of_le h le_rfl, List.append_nil] at hloop

/-- What is linked behind the search. -/
theorem linked_findPrev (hcut : Cut s k before behind) :
    Linked (s.next 0) (s.findPrev k).1 behind := by
  have hlinked := linked_tip h 0
  rw [h.chain_zero fun j hj => List.mem_append_right _ hj] at hlinked
  rwa [findPrev_eq h hcut]

end

/-! ## Pointers -/

/-- Two lists with the same nodes but for their pointers and entries. -/
structure Same (s t : SkipList) : Prop where
  tower : ∀ x, t.tower x = s.tower x
  keyOf : ∀ j, t.keyOf j = s.keyOf j
  nodes : t.nodes.length = s.nodes.length
  level : t.level = s.level

theorem Same.refl (s : SkipList) : Same s s := ⟨fun _ => rfl, fun _ => rfl, rfl, rfl⟩

theorem Same.trans {u : SkipList} (h : Same s t) (h' : Same t u) : Same s u :=
  ⟨fun x => (h'.tower x).trans (h.tower x), fun j => (h'.keyOf j).trans (h.keyOf j),
    h'.nodes.trans h.nodes, h'.level.trans h.level⟩

/-- A field of the nodes that a change of one leaves alone. -/
theorem map_modify {β : Type} (g : Node → β) {f : Node → Node} (h : ∀ node, g (f node) = g node)
    (nodes : List Node) (m j : ℕ) : (nodes.modify m f)[j]?.map g = nodes[j]?.map g := by
  rw [List.getElem?_modify]
  cases nodes[j]? with
  | none => rfl
  | some node =>
    refine congrArg some ?_
    split
    · exact h node
    · rfl

theorem same_modify (s : SkipList) (m : ℕ) {f : Node → Node}
    (hkey : ∀ node, (f node).key = node.key)
    (hnext : ∀ node, (f node).next.length = node.next.length) :
    Same s { s with nodes := s.nodes.modify m f } := by
  refine ⟨fun x => ?_, fun j => congrArg (·.getD []) (map_modify _ hkey s.nodes m j),
    List.length_modify .., rfl⟩
  cases x with
  | none => rfl
  | some j => exact congrArg (·.getD 0) (map_modify (·.next.length) hnext s.nodes m j)

theorem same_setNext (s : SkipList) (i : ℕ) (x y : Option ℕ) : Same s (s.setNext i x y) := by
  cases x with
  | none =>
    refine ⟨fun z => ?_, fun _ => rfl, rfl, rfl⟩
    cases z with
    | none => exact List.length_set
    | some j => rfl
  | some m => exact same_modify s m (fun _ => rfl) fun _ => List.length_set

theorem entryOf_setNext (s : SkipList) (i : ℕ) (x y : Option ℕ) (j : ℕ) :
    (s.setNext i x y).entryOf j = s.entryOf j := by
  cases x with
  | none => rfl
  | some m => exact map_modify Node.entry (by exact fun _ => rfl) s.nodes m j

section Pointers

variable {i' n : ℕ} {x y z : Option ℕ} {update : List (Option ℕ)}

/-- A pointer that is written is read back, and no other changes. -/
theorem next_setNext (hx : i < s.tower x) :
    (s.setNext i x y).next i' z = if i' = i ∧ z = x then y else s.next i' z := by
  cases x with
  | none =>
    cases z with
    | none =>
      simp only [setNext, next, and_true, List.getElem?_set]
      by_cases hi : i = i'
      · subst hi
        have hlen : i < s.head.length := hx
        simp [hlen]
      · simp [hi, Ne.symm hi]
    | some j => simp [setNext, next]
  | some m =>
    cases z with
    | none => simp [setNext, next]
    | some j =>
      simp only [setNext, next, List.getElem?_modify, Option.some.injEq]
      by_cases hj : m = j
      · subst hj
        cases hnode : s.nodes[m]? with
        | none =>
          rw [tower, hnode] at hx
          exact absurd hx (Nat.not_lt_zero i)
        | some node =>
          have hlen : i < node.next.length := by
            rw [tower, hnode] at hx
            exact hx
          by_cases hi : i = i'
          · subst hi
            simp [hlen]
          · simp [hi, Ne.symm hi]
      · simp [hj, Ne.symm hj]

/-- The new node stands behind `x` on this level. -/
theorem next_link (hn : i < s.tower (some n)) (hx : i < s.tower update[i]?.join) :
    (s.link n update i).next i' z =
      if i' = i ∧ z = update[i]?.join then some n
      else if i' = i ∧ z = some n then s.next i update[i]?.join else s.next i' z := by
  rw [link, next_setNext (by rwa [(same_setNext ..).tower]), next_setNext hn]

/-- **The new node on all its levels.** -/
theorem foldl_link {m : ℕ} (hn : m ≤ s.tower (some n))
    (hupdate : ∀ i < m, i < s.tower update[i]?.join) :
    let t := (List.range m).foldl (fun t i => t.link n update i) s
    Same s t ∧ (∀ j, t.entryOf j = s.entryOf j) ∧ ∀ i z, t.next i z =
      if i < m ∧ z = update[i]?.join then some n
      else if i < m ∧ z = some n then s.next i update[i]?.join else s.next i z := by
  induction m with
  | zero =>
    refine ⟨Same.refl s, fun _ => rfl, fun i z => ?_⟩
    rw [if_neg (by omega), if_neg (by omega)]
    rfl
  | succ m ih =>
    obtain ⟨hsame, hentry, hnext⟩ := ih (by omega) fun i hi => hupdate i (by omega)
    rw [List.range_succ, List.foldl_append, List.foldl_cons, List.foldl_nil]
    refine ⟨(hsame.trans (same_setNext ..)).trans (same_setNext ..), fun j => ?_, fun i z => ?_⟩
    · exact (entryOf_setNext ..).trans ((entryOf_setNext ..).trans (hentry j))
    rw [next_link (by rw [hsame.tower]; omega) (by rw [hsame.tower]; exact hupdate m (by omega)),
      hnext i z, hnext m]
    rcases lt_trichotomy i m with hi | rfl | hi
    · simp only [hi, Nat.lt_succ_of_lt hi, hi.ne, false_and, if_false, true_and]
    · simp only [lt_irrefl, Nat.lt_succ_self, true_and, false_and, if_false]
    · have hi' : ¬ i < m + 1 := by omega
      have hi'' : ¬ i < m := by omega
      simp only [hi', hi'', hi.ne', false_and, if_false]

end Pointers

/-! ## A new node -/

/-- The list with the new node, before it is linked in. -/
def grown (s : SkipList) (entry : Entry) (lvl : ℕ) : SkipList :=
  { s with
    nodes := s.nodes ++ [⟨entry.key, entry, List.replicate lvl none⟩]
    level := max s.level lvl }

section Grown

variable (s : SkipList) (entry : Entry) (lvl : ℕ)

theorem length_nodes_grown : (s.grown entry lvl).nodes.length = s.nodes.length + 1 :=
  List.length_append

theorem getElem?_grown (hj : j ≠ s.nodes.length) : (s.grown entry lvl).nodes[j]? = s.nodes[j]? := by
  rcases lt_or_gt_of_ne hj with hlt | hgt
  · exact List.getElem?_append_left hlt
  · have hlen := length_nodes_grown s entry lvl
    rw [List.getElem?_eq_none (by omega), List.getElem?_eq_none (by omega)]

theorem next_grown {z : Option ℕ} (i : ℕ) (hz : z ≠ some s.nodes.length) :
    (s.grown entry lvl).next i z = s.next i z := by
  cases z with
  | none => rfl
  | some j => rw [next, getElem?_grown _ _ _ fun h => hz (congrArg some h), next]

theorem tower_grown {z : Option ℕ} (hz : z ≠ some s.nodes.length) :
    (s.grown entry lvl).tower z = s.tower z := by
  cases z with
  | none => rfl
  | some j => rw [tower, getElem?_grown _ _ _ fun h => hz (congrArg some h), tower]

theorem keyOf_grown (hj : j ≠ s.nodes.length) : (s.grown entry lvl).keyOf j = s.keyOf j := by
  rw [keyOf, getElem?_grown _ _ _ hj, keyOf]

theorem getElem?_grown_self : (s.grown entry lvl).nodes[s.nodes.length]? =
    some ⟨entry.key, entry, List.replicate lvl none⟩ := List.getElem?_concat_length

theorem tower_grown_self : (s.grown entry lvl).tower (some s.nodes.length) = lvl := by
  rw [tower, getElem?_grown_self]
  exact List.length_replicate

theorem keyOf_grown_self : (s.grown entry lvl).keyOf s.nodes.length = entry.key := by
  rw [keyOf, getElem?_grown_self]
  rfl

theorem entryOf_grown (j : ℕ) : (s.grown entry lvl).entryOf j =
    if j = s.nodes.length then some entry else s.entryOf j := by
  rw [entryOf]
  split
  · next hj =>
    rw [hj, getElem?_grown_self]
    rfl
  · next hj => rw [getElem?_grown _ _ _ hj, entryOf]

end Grown

section

variable (h : Rep s (before ++ behind))
include h

/-- The places where a new node goes in: the tips, also above the level
the list had. -/
theorem update_eq {lvl : ℕ} (hi : i < lvl) :
    ((List.range s.level).map (s.tip before) ++ List.replicate (lvl - s.level) none)[i]?.join =
      s.tip before i := by
  by_cases hlevel : i < s.level
  · rw [List.getElem?_append_left (by rw [List.length_map, List.length_range]; exact hlevel),
      List.getElem?_map, List.getElem?_range hlevel]
    rfl
  · rw [List.getElem?_append_right (by rw [List.length_map, List.length_range]; omega),
      List.length_map, List.length_range, List.getElem?_replicate, if_pos (by omega),
      tip_of_le h (by omega)]
    rfl

theorem lt_tower_tip (hi : i < skiplistMaxLevel) : i < s.tower (s.tip before i) := by
  cases htip : s.tip before i with
  | none => rwa [tower, h.head]
  | some j => exact (mem_of_tip htip).2

theorem tip_ne (i : ℕ) : s.tip before i ≠ some s.nodes.length := by
  intro htip
  have hlt := (h.mem _).mp (List.mem_append_left behind (mem_of_tip htip).1)
  omega

/-- What the pointers are once the new node is linked in. -/
theorem insert_spec (entry : Entry) (lvl : Level) :
    Same (s.grown entry lvl) (s.insert entry lvl ((List.range s.level).map (s.tip before))) ∧
      (∀ j, (s.insert entry lvl ((List.range s.level).map (s.tip before))).entryOf j =
        (s.grown entry lvl).entryOf j) ∧
      ∀ i z, (s.insert entry lvl ((List.range s.level).map (s.tip before))).next i z =
        if i < lvl.1 ∧ z = s.tip before i then some s.nodes.length
        else if i < lvl.1 ∧ z = some s.nodes.length then s.next i (s.tip before i)
        else (s.grown entry lvl).next i z := by
  have hupdate : ∀ i < lvl.1, i < (s.grown entry lvl).tower ((List.range s.level).map
      (s.tip before) ++ List.replicate (lvl.1 - s.level) none)[i]?.join := by
    intro i hi
    have hmax := lvl.2.2
    rw [update_eq h hi, tower_grown s entry lvl (tip_ne h i)]
    exact lt_tower_tip h (by omega)
  obtain ⟨hsame, hentry, hnext⟩ := foldl_link (tower_grown_self s entry lvl).ge hupdate
  refine ⟨⟨hsame.tower, hsame.keyOf, hsame.nodes, hsame.level⟩, hentry, fun i z => ?_⟩
  refine (hnext i z).trans ?_
  by_cases hi : i < lvl.1
  · rw [update_eq h hi, next_grown s entry lvl i (tip_ne h i)]
  · simp only [hi, false_and, if_false]

/-- The chains of the list with the new node. -/
theorem chain_grown {entry : Entry} {lvl : Level} (hsame : Same (s.grown entry lvl) t) (i : ℕ) :
    t.chain (before ++ s.nodes.length :: behind) i =
      s.chain before i ++ ((if i < lvl.1 then [s.nodes.length] else []) ++ s.chain behind i) := by
  have hpart : ∀ l : List ℕ, (∀ j ∈ l, j ∈ before ++ behind) → t.chain l i = s.chain l i := by
    intro l hl
    refine List.filter_congr fun j hj => ?_
    have hlt := (h.mem j).mp (hl j hj)
    rw [hsame.tower, tower_grown s entry lvl fun hc => hlt.ne (Option.some.inj hc)]
  have hself : t.chain [s.nodes.length] i = if i < lvl.1 then [s.nodes.length] else [] := by
    rw [chain, List.filter_cons, hsame.tower, tower_grown_self, List.filter_nil]
    simp only [decide_eq_true_eq]
  rw [← List.singleton_append, chain_append, chain_append, hself,
    hpart before fun j hj => List.mem_append_left _ hj,
    hpart behind fun j hj => List.mem_append_right _ hj]

theorem linked_grown {entry : Entry} {lvl : Level} (hsame : Same (s.grown entry lvl) t)
    (hnext : ∀ i z, t.next i z =
      if i < lvl.1 ∧ z = s.tip before i then some s.nodes.length
      else if i < lvl.1 ∧ z = some s.nodes.length then s.next i (s.tip before i)
      else (s.grown entry lvl).next i z)
    (i : ℕ) : Linked (t.next i) none (t.chain (before ++ s.nodes.length :: behind) i) := by
  have hlinked := h.linked i
  have hnodup : (s.chain (before ++ behind) i).Nodup := h.nodup.filter _
  have hout : s.nodes.length ∉ s.chain (before ++ behind) i := by
    intro hmem
    have hlt := (h.mem _).mp (mem_chain.mp hmem).1
    omega
  rw [chain_append] at hlinked hnodup hout
  rw [chain_grown h hsame]
  by_cases hi : i < lvl.1
  · rw [if_pos hi, List.singleton_append]
    refine linked_insert hlinked hnodup hout (fun j hj => by cases hj) ?_ ?_ fun z hz hzn => ?_
    · rw [Option.or_none]
      exact (hnext i _).trans (if_pos ⟨hi, rfl⟩)
    · rw [Option.or_none, hnext, if_neg fun hc => tip_ne h i hc.2.symm, if_pos ⟨hi, rfl⟩]
      rfl
    · rw [Option.or_none] at hz
      rw [hnext, if_neg fun hc => hz hc.2, if_neg fun hc => hzn hc.2, next_grown _ _ _ _ hzn]
  · have hkept : ∀ z, z ≠ some s.nodes.length → t.next i z = s.next i z := fun z hzn => by
      rw [hnext, if_neg fun hc => hi hc.1, if_neg fun hc => hi hc.1, next_grown _ _ _ _ hzn]
    rw [if_neg hi, List.nil_append]
    refine hlinked.congr (hkept none fun hc => by cases hc) fun j hj => hkept _ fun hc => ?_
    obtain rfl := Option.some.inj hc
    exact hout hj

theorem sorted_grown {entry : Entry} {lvl : Level} (hcut : Cut s entry.key before behind)
    (hfresh : ∀ j ∈ behind, s.keyOf j ≠ entry.key) (hsame : Same (s.grown entry lvl) t) :
    (before ++ s.nodes.length :: behind).Pairwise fun a b => t.keyOf a < t.keyOf b := by
  have hself : t.keyOf s.nodes.length = entry.key :=
    (hsame.keyOf _).trans (keyOf_grown_self s entry lvl)
  have hkey : ∀ j ∈ before ++ behind, t.keyOf j = s.keyOf j := fun j hj =>
    (hsame.keyOf j).trans (keyOf_grown s entry lvl ((h.mem j).mp hj).ne)
  have hsorted : (before ++ behind).Pairwise fun a b => t.keyOf a < t.keyOf b := by
    refine h.sorted.imp_of_mem fun {a b} ha hb hlt => ?_
    rwa [hkey a ha, hkey b hb]
  obtain ⟨hbefore, hbehind, hcross⟩ := List.pairwise_append.mp hsorted
  refine List.pairwise_append.mpr ⟨hbefore, List.pairwise_cons.mpr ⟨?_, hbehind⟩, ?_⟩
  · intro b hb
    rw [hself, hkey b (List.mem_append_right _ hb)]
    exact lt_of_le_of_ne (hcut.behind b hb) (Ne.symm (hfresh b hb))
  · intro a ha b hb
    rcases List.mem_cons.mp hb with rfl | hb
    · rw [hself, hkey a (List.mem_append_left _ ha)]
      exact hcut.before a ha
    · exact hcross a ha b hb

/-- **A new node takes its place in the order.** -/
theorem rep_insert (entry : Entry) (lvl : Level) (hcut : Cut s entry.key before behind)
    (hfresh : ∀ j ∈ behind, s.keyOf j ≠ entry.key) :
    Rep (s.insert entry lvl ((List.range s.level).map (s.tip before)))
      (before ++ s.nodes.length :: behind) := by
  obtain ⟨hsame, -, hnext⟩ := insert_spec h entry lvl
  have hlen := hsame.nodes.trans (length_nodes_grown s entry lvl)
  have hlevel : _ = max s.level lvl.1 := hsame.level
  have hlvl := lvl.2
  have hold := h.level
  refine ⟨linked_grown h hsame hnext, sorted_grown h hcut hfresh hsame, fun j => ?_,
    (hsame.tower none).trans h.head, by omega, fun j hj => ?_, ?_⟩
  · have hmem := h.mem j
    rw [List.mem_append] at hmem
    rw [List.mem_append, List.mem_cons, hlen, Nat.lt_succ_iff_lt_or_eq, ← hmem]
    tauto
  · rw [hsame.tower]
    by_cases hjn : j = s.nodes.length
    · subst hjn
      rw [tower_grown_self]
      omega
    · rw [tower_grown _ _ _ fun hc => hjn (Option.some.inj hc)]
      have := h.tower j (by omega)
      omega
  · rw [hlen, ← h.length]
    rfl

end

/-! ## A new entry in an old node -/

/-- The list with another entry in a node. -/
def replaced (s : SkipList) (j : ℕ) (entry : Entry) : SkipList :=
  { s with nodes := s.nodes.modify j fun node => { node with entry := entry } }

theorem entryOf_replaced (hj : j < s.nodes.length) (entry : Entry) (m : ℕ) :
    (s.replaced j entry).entryOf m = if m = j then some entry else s.entryOf m := by
  simp only [replaced, entryOf, List.getElem?_modify]
  by_cases hm : j = m
  · subst hm
    simp [List.getElem?_eq_getElem hj]
  · simp only [if_neg hm, if_neg (Ne.symm hm)]
    cases s.nodes[m]? <;> rfl

theorem same_replaced (s : SkipList) (j : ℕ) (entry : Entry) : Same s (s.replaced j entry) :=
  same_modify s j (fun _ => rfl) fun _ => rfl

/-- The order stays. -/
theorem rep_replaced (h : Rep s order) (j : ℕ) (entry : Entry) :
    Rep (s.replaced j entry) order := by
  have hsame := same_replaced s j entry
  have hnext : ∀ i z, (s.replaced j entry).next i z = s.next i z := by
    intro i z
    cases z with
    | none => rfl
    | some m =>
      simp only [replaced, next, List.getElem?_modify]
      split <;> cases s.nodes[m]? <;> rfl
  have hchain : ∀ i, (s.replaced j entry).chain order i = s.chain order i := fun i =>
    List.filter_congr fun m _ => by rw [hsame.tower]
  refine ⟨fun i => ?_, ?_, fun m => ?_, h.head, h.level, fun m hm => ?_, ?_⟩
  · rw [hchain]
    exact (h.linked i).congr (hnext i none) fun m _ => hnext i (some m)
  · refine h.sorted.imp fun hlt => ?_
    rwa [hsame.keyOf, hsame.keyOf]
  · rw [hsame.nodes, h.mem]
  · rw [hsame.tower]
    exact h.tower m (hsame.nodes ▸ hm)
  · rw [hsame.nodes, ← h.length]
    rfl

/-! ## The entries -/

/-- **What a skip list holds**: one node for every key the map has an
entry under, with that entry. -/
def Holds (s : SkipList) (f : Bytes → Option Entry) : Prop :=
  ∃ order, Rep s order ∧
    ∀ k e, f k = some e ↔ ∃ j ∈ order, s.keyOf j = k ∧ s.entryOf j = some e

theorem Rep.exists_entry (h : Rep s order) (hj : j ∈ order) : ∃ e, s.entryOf j = some e :=
  ⟨_, congrArg (Option.map Node.entry) (List.getElem?_eq_getElem ((h.mem j).mp hj))⟩

/-- A key is found where the search ends, or nowhere. -/
theorem search_cases (h : Rep s (before ++ behind)) (hcut : Cut s k before behind) :
    (∃ j ∈ before ++ behind, s.next 0 (s.findPrev k).1 = some j ∧ s.keyOf j = k ∧
      s.get k = s.entryOf j) ∨
    (∀ j, s.next 0 (s.findPrev k).1 = some j → s.keyOf j ≠ k) ∧
      (∀ j ∈ before ++ behind, s.keyOf j ≠ k) ∧ s.get k = none := by
  have hfirst := next_of_linked (linked_findPrev h hcut)
  unfold get
  rw [hfirst]
  rcases behind with - | ⟨m, ms⟩
  · refine .inr ⟨fun j hj => (by cases hj), fun j hj => ?_, rfl⟩
    rw [List.append_nil] at hj
    exact (hcut.before j hj).ne
  · by_cases hkey : s.keyOf m = k
    · exact .inl ⟨m, List.mem_append_cons_self, rfl, hkey, if_pos hkey⟩
    · refine .inr ⟨fun j hj => ?_, fun j hj => ?_, if_neg hkey⟩
      · obtain rfl := Option.some.inj hj
        exact hkey
      · rcases List.mem_append.mp hj with hj | hj
        · exact (hcut.before j hj).ne
        · -- the keys behind the first one are greater
          have hle := hcut.behind m List.mem_cons_self
          have hlt := (List.pairwise_cons.mp (List.pairwise_append.mp h.sorted).2.1).1
          rcases List.mem_cons.mp hj with rfl | hj
          · exact hkey
          · exact (hle.trans_lt (hlt j hj)).ne'

/-- **`Get`** finds what the map has. -/
theorem get_eq (h : Holds s f) (k : Bytes) : s.get k = f k := by
  obtain ⟨order, hrep, hf⟩ := h
  obtain ⟨before, behind, rfl, hcut⟩ := hrep.exists_cut k
  rcases search_cases hrep hcut with ⟨j, hj, -, hkey, hget⟩ | ⟨-, hall, hget⟩
  · obtain ⟨e, he⟩ := hrep.exists_entry hj
    rw [hget, he, (hf k e).mpr ⟨j, hj, hkey, he⟩]
  · refine hget.trans (Option.eq_none_iff_forall_ne_some.mpr fun e he => ?_).symm
    obtain ⟨j, hj, hkey, -⟩ := (hf k e).mp he
    exact hall j hj hkey

theorem Rep.eq_of_keyOf (h : Rep s order) {a b : ℕ} (ha : a ∈ order) (hb : b ∈ order)
    (hkey : s.keyOf a = s.keyOf b) : a = b := by
  have hnodup : (order.map s.keyOf).Nodup := List.pairwise_map.mpr (h.sorted.imp fun hlt => hlt.ne)
  exact List.inj_on_of_nodup_map hnodup ha hb hkey

/-- A node gets an entry, and the others keep theirs. -/
theorem holds_write {order' : List ℕ} {e : Entry}
    (hf : ∀ k e, f k = some e ↔ ∃ j ∈ order, s.keyOf j = k ∧ s.entryOf j = some e)
    (ht : Rep t order') (hj : j ∈ order') (hkey : t.keyOf j = e.key) (he : t.entryOf j = some e)
    (hmem : ∀ m ≠ j, (m ∈ order' ↔ m ∈ order)) (hold : j ∈ order → s.keyOf j = e.key)
    (hkeep : ∀ m ∈ order, m ≠ j → t.keyOf m = s.keyOf m ∧ t.entryOf m = s.entryOf m) :
    Holds t fun k => if e.key = k then some e else f k := by
  refine ⟨order', ht, fun k d => ?_⟩
  dsimp only
  by_cases hk : e.key = k
  · rw [if_pos hk]
    constructor
    · intro hd
      exact ⟨j, hj, hkey.trans hk, he.trans hd⟩
    · rintro ⟨m, hm, hmk, hd⟩
      obtain rfl := ht.eq_of_keyOf hm hj (hmk.trans (hkey.trans hk).symm)
      exact he.symm.trans hd
  · rw [if_neg hk, hf]
    constructor
    · rintro ⟨m, hm, hmk, hd⟩
      have hmj : m ≠ j := by
        rintro rfl
        exact hk ((hold hm).symm.trans hmk)
      obtain ⟨hkeyOf, hentryOf⟩ := hkeep m hm hmj
      exact ⟨m, (hmem m hmj).mpr hm, hkeyOf.trans hmk, hentryOf.trans hd⟩
    · rintro ⟨m, hm, hmk, hd⟩
      have hmj : m ≠ j := by
        rintro rfl
        exact hk (hkey.symm.trans hmk)
      have hm' := (hmem m hmj).mp hm
      obtain ⟨hkeyOf, hentryOf⟩ := hkeep m hm' hmj
      exact ⟨m, hm', hkeyOf.symm.trans hmk, hentryOf.symm.trans hd⟩

/-- **`Upsert`** writes to the map, and returns what it replaced. -/
theorem holds_upsert (h : Holds s f) (levels : ℕ → Level) (e : Entry) :
    (s.upsert levels e).1 = f e.key ∧
      Holds (s.upsert levels e).2 fun k => if e.key = k then some e else f k := by
  rw [← get_eq h e.key]
  obtain ⟨order, hrep, hf⟩ := h
  obtain ⟨before, behind, rfl, hcut⟩ := hrep.exists_cut e.key
  rcases search_cases hrep hcut with ⟨j, hj, hnext, hkey, hget⟩ | ⟨hnext, hall, hget⟩
  · have hupsert : s.upsert levels e = (s.entryOf j, s.replaced j e) := by
      simp only [upsert, hnext, hkey, if_true]
      rfl
    have hentry := entryOf_replaced ((hrep.mem j).mp hj) e
    have hkeys := (same_replaced s j e).keyOf
    rw [hupsert]
    refine ⟨hget.symm, holds_write hf (rep_replaced hrep j e) hj ((hkeys j).trans hkey)
      ((hentry j).trans (if_pos rfl)) (fun _ _ => Iff.rfl) (fun _ => hkey) fun m _ hm => ?_⟩
    exact ⟨hkeys m, (hentry m).trans (if_neg hm)⟩
  · have hupsert : s.upsert levels e =
        (none, s.insert e (levels s.nodes.length) (s.findPrev e.key).2) := by
      unfold upsert
      dsimp only
      split
      · next j hj => rw [if_neg (hnext j hj)]
      · rfl
    rw [hupsert, findPrev_eq hrep hcut]
    obtain ⟨hsame, hentry, -⟩ := insert_spec hrep e (levels s.nodes.length)
    have hrep' := rep_insert hrep e (levels s.nodes.length) hcut
      fun j hj => hall j (List.mem_append_right _ hj)
    refine ⟨hget.symm, holds_write hf hrep' List.mem_append_cons_self
      ((hsame.keyOf _).trans (keyOf_grown_self ..)) ?_ ?_ ?_ ?_⟩
    · rw [hentry, entryOf_grown, if_pos rfl]
    · intro m hm
      simp [hm]
    · intro hlt
      exact absurd ((hrep.mem _).mp hlt) (lt_irrefl _)
    · intro m _ hm
      rw [hsame.keyOf, keyOf_grown _ _ _ hm, hentry, entryOf_grown, if_neg hm]
      exact ⟨rfl, rfl⟩

/-! ## Runs of writes -/

/-- The last entry written under a key. -/
def latest (es : List Entry) (k : Bytes) : Option Entry := es.reverse.find? fun e => e.key = k

theorem latest_concat (es : List Entry) (e : Entry) (k : Bytes) :
    latest (es ++ [e]) k = if e.key = k then some e else latest es k := by
  rw [latest, List.reverse_concat]
  split
  · next hk => exact List.find?_cons_of_pos (decide_eq_true hk)
  · next hk => exact List.find?_cons_of_neg fun h => hk (of_decide_eq_true h)

theorem key_of_latest {es : List Entry} {e : Entry} (h : latest es k = some e) : e.key = k := by
  simpa using List.find?_some h

theorem exists_latest_iff (es : List Entry) (k : Bytes) :
    (∃ e, latest es k = some e) ↔ k ∈ es.map Entry.key := by
  rw [← Option.isSome_iff_exists, latest, List.find?_isSome]
  simp

/-- `Upsert` for every one of the entries. -/
def upserts (levels : ℕ → Level) (s : SkipList) (es : List Entry) : SkipList :=
  es.foldl (fun s e => (s.upsert levels e).2) s

/-- The nodes on a level, from the head on. -/
def levelAt (s : SkipList) (i : ℕ) : List ℕ := follow (s.next i) s.nodes.length none

theorem holds_upserts (levels : ℕ → Level) (es : List Entry) :
    Holds (new.upserts levels es) (latest es) := by
  induction es using List.reverseRecOn with
  | nil => exact ⟨[], rep_new, fun k e => by simp [latest]⟩
  | append_singleton es e ih =>
    have hstep := (holds_upsert ih levels e).2
    rw [upserts, List.foldl_concat]
    rwa [show latest (es ++ [e]) = _ from funext (latest_concat es e)]

theorem levelAt_eq (h : Rep s order) (i : ℕ) : s.levelAt i = s.chain order i :=
  follow_eq (h.linked i) (h.length_chain_le i)

/-- A level is a part of the level below. -/
theorem chain_succ_sublist (s : SkipList) (order : List ℕ) (i : ℕ) :
    (s.chain order (i + 1)).Sublist (s.chain order i) := by
  refine List.monotone_filter_right order fun j hj => ?_
  simp only [decide_eq_true_eq] at hj ⊢
  omega

theorem iterFrom_none (h : Rep s order) : s.iterFrom none = order.filterMap s.entryOf := by
  have hlevel := levelAt_eq h 0
  rw [h.chain_zero fun _ hj => hj] at hlevel
  exact congrArg (List.filterMap s.entryOf) hlevel

section Keys

variable (h : Rep s order) (hkeys : ∀ j ∈ order, ∀ e, s.entryOf j = some e → e.key = s.keyOf j)
include h hkeys

/-- The entries have the keys of their nodes. -/
theorem map_key_entries : (order.filterMap s.entryOf).map Entry.key = order.map s.keyOf := by
  rw [List.map_filterMap, ← List.filterMap_eq_map]
  refine List.filterMap_congr fun j hj => ?_
  obtain ⟨e, he⟩ := h.exists_entry hj
  rw [he, Option.map_some, hkeys j hj e he]
  rfl

/-- **An iterator** from the search of a key yields the entries from the
key on. -/
theorem iterFrom_findPrev (k : Bytes) : s.iterFrom (s.findPrev k).1 =
    (order.filterMap s.entryOf).filter fun e => k ≤ e.key := by
  obtain ⟨before, behind, rfl, hcut⟩ := h.exists_cut k
  have hbefore : (before.filterMap s.entryOf).filter (fun e => decide (k ≤ e.key)) = [] := by
    refine List.filter_eq_nil_iff.mpr fun e he => ?_
    obtain ⟨j, hj, hje⟩ := List.mem_filterMap.mp he
    rw [hkeys j (List.mem_append_left _ hj) e hje, decide_eq_true_eq]
    exact not_le.mpr (hcut.before j hj)
  have hbehind : (behind.filterMap s.entryOf).filter (fun e => decide (k ≤ e.key)) =
      behind.filterMap s.entryOf := by
    refine List.filter_eq_self.mpr fun e he => ?_
    obtain ⟨j, hj, hje⟩ := List.mem_filterMap.mp he
    rw [hkeys j (List.mem_append_right _ hj) e hje, decide_eq_true_eq]
    exact hcut.behind j hj
  have hlen := h.length_order
  rw [List.length_append] at hlen
  rw [List.filterMap_append, List.filter_append, hbefore, hbehind, List.nil_append, iterFrom,
    follow_eq (linked_findPrev h hcut) (by omega)]

end Keys

/-- **The levels of a skip list.** After any run of writes every level is
sorted and a part of the one below, and the lowest one holds the latest
entry of every key. -/
theorem levels_upserts (levels : ℕ → Level) (es : List Entry) :
    let s := new.upserts levels es
    (∀ i, (s.levelAt i).Pairwise (fun a b => s.keyOf a < s.keyOf b) ∧
      (s.levelAt (i + 1)).Sublist (s.levelAt i)) ∧
    (s.iterFrom none).map Entry.key = (s.levelAt 0).map s.keyOf ∧
    (∀ e, e ∈ s.iterFrom none ↔ latest es e.key = some e) ∧
    s.length = (es.map Entry.key).dedup.length ∧
    (∀ e, (s.upsert levels e).1 = latest es e.key) ∧
    (∀ k, s.get k = latest es k) ∧
    ∀ start, s.iterFrom (s.findPrev start).1 = (s.iterFrom none).filter fun e => start ≤ e.key := by
  intro s
  have hholds : Holds s (latest es) := holds_upserts levels es
  obtain ⟨order, hrep, hf⟩ := id hholds
  have hkeys : ∀ j ∈ order, ∀ e, s.entryOf j = some e → e.key = s.keyOf j := fun j hj e he =>
    key_of_latest ((hf _ e).mpr ⟨j, hj, rfl, he⟩)
  have hsorted : (order.map s.keyOf).Pairwise (· < ·) := List.pairwise_map.mpr hrep.sorted
  have hmem : ∀ k, k ∈ order.map s.keyOf ↔ k ∈ es.map Entry.key := by
    intro k
    rw [List.mem_map, ← exists_latest_iff]
    constructor
    · rintro ⟨j, hj, hk⟩
      obtain ⟨e, he⟩ := hrep.exists_entry hj
      exact ⟨e, (hf k e).mpr ⟨j, hj, hk, he⟩⟩
    · rintro ⟨e, he⟩
      obtain ⟨j, hj, hk, -⟩ := (hf k e).mp he
      exact ⟨j, hj, hk⟩
  rw [iterFrom_none hrep]
  refine ⟨fun i => ?_, ?_, fun e => ?_, ?_, fun e => (holds_upsert hholds levels e).1,
    get_eq hholds, iterFrom_findPrev hrep hkeys⟩
  · rw [levelAt_eq hrep, levelAt_eq hrep]
    exact ⟨hrep.sorted.filter _, chain_succ_sublist s order i⟩
  · rw [levelAt_eq hrep, hrep.chain_zero fun _ hj => hj, map_key_entries hrep hkeys]
  · rw [List.mem_filterMap, hf]
    constructor
    · rintro ⟨j, hj, he⟩
      exact ⟨j, hj, (hkeys j hj e he).symm, he⟩
    · rintro ⟨j, hj, -, he⟩
      exact ⟨j, hj, he⟩
  · have hperm : (order.map s.keyOf).Perm (es.map Entry.key).dedup := by
      refine (List.perm_ext_iff_of_nodup (hsorted.imp fun hlt => hlt.ne)
        (List.nodup_dedup _)).mpr fun k => ?_
      rw [hmem, List.mem_dedup]
    rw [← hperm.length_eq, List.length_map, hrep.length_order, hrep.length]

end SkipList

end LSMEngine.Memtable
