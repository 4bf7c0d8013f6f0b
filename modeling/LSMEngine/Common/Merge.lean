import Mathlib.Algebra.Order.Ring.Nat
import Mathlib.Data.List.Nodup
import Mathlib.Data.List.Sort
/-!
# Merging sorted iterators

A k-way merge over a priority queue of iterators. Each turn takes the
iterators that stand at the least key off the queue, in the queue's
order, and puts them back once they have moved on; what a merge does
with such a group is up to it.

The queue is a list in the order of its comparison, so that taking the
least item off is taking the head and pushing is an ordered insertion.
If the comparison refines the order of the keys and every iterator runs
through its keys in order, the groups come in the order of their keys,
one for each key there is, and a group holds the first entry under its
key of every iterator that has one (`firsts_of_mem_mergeGroups`).
-/

namespace LSMEngine

/-- An iterator that stands at an entry: its place among the iterators
merged, the entry, and those still to come. -/
structure Cursor (α : Type) where
  place : ℕ
  head : α
  rest : List α
  deriving DecidableEq, Repr

variable {α κ : Type} [LinearOrder κ]
variable {k : κ} {c : Cursor α} {h : List (Cursor α)}

/-- The entries an iterator has not moved past. -/
def Cursor.all (c : Cursor α) : List α := c.head :: c.rest

/-- An iterator stands at its first entry, if it has one. -/
def Cursor.start (place : ℕ) : List α → Option (Cursor α)
  | [] => none
  | a :: as => some ⟨place, a, as⟩

/-- The iterators that have an entry, in their places. -/
def cursors (its : List (List α)) : List (Cursor α) :=
  its.zipIdx.filterMap fun it => Cursor.start it.2 it.1

/-- The iterators that have an entry, from a place on. -/
def cursorsFrom (place : ℕ) (its : List (List α)) : List (Cursor α) :=
  (its.zipIdx place).filterMap fun it => Cursor.start it.2 it.1

section Merge

variable (key : α → κ) (le : Cursor α → Cursor α → Prop) [DecidableRel le] (skips : Bool)

/-- What an iterator moves on to: the next entry, or the next under
another key. -/
def Cursor.advance (k : κ) (c : Cursor α) : Option (Cursor α) :=
  Cursor.start c.place (if skips then c.rest.dropWhile fun a => key a = k else c.rest)

/-- The queue once the group has moved on. -/
def requeue (k : κ) (group h : List (Cursor α)) : List (Cursor α) :=
  (group.filterMap (Cursor.advance key skips k)).foldl (fun h c => h.orderedInsert le c) h

/-- What is left in a queue. -/
def backlog (h : List (Cursor α)) : ℕ := (h.map fun c => c.all.length).sum

theorem requeue_perm (k : κ) (group h : List (Cursor α)) :
    (requeue key le skips k group h).Perm
      (h ++ group.filterMap (Cursor.advance key skips k)) := by
  unfold requeue
  generalize group.filterMap (Cursor.advance key skips k) = cs
  induction cs generalizing h with
  | nil => simp
  | cons c cs ih =>
    refine (ih _).trans ?_
    have hins := List.perm_orderedInsert le c h
    exact (hins.append_right cs).trans (List.perm_middle.symm)

variable {key skips} in
theorem length_advance_lt {c' : Cursor α} (h : c.advance key skips k = some c') :
    c'.all.length < c.all.length := by
  unfold Cursor.advance at h
  have hle : (if skips then c.rest.dropWhile fun a => key a = k else c.rest).length ≤
      c.rest.length := by
    split
    · exact (List.dropWhile_suffix _).length_le
    · exact le_rfl
  generalize (if skips then c.rest.dropWhile fun a => key a = k else c.rest) = as at h hle
  cases as with
  | nil => cases h
  | cons a as =>
    cases h
    simp only [Cursor.all, List.length_cons] at hle ⊢
    omega

theorem backlog_advance_lt (k : κ) {group : List (Cursor α)} (hne : group ≠ []) :
    backlog (group.filterMap (Cursor.advance key skips k)) < backlog group := by
  have hle : ∀ cs : List (Cursor α),
      backlog (cs.filterMap (Cursor.advance key skips k)) + cs.length ≤ backlog cs := by
    intro cs
    induction cs with
    | nil => simp [backlog]
    | cons c cs ih =>
      simp only [backlog, List.map_cons, List.sum_cons, List.length_cons] at ih ⊢
      have hpos : 0 < c.all.length := Nat.succ_pos _
      cases hc : c.advance key skips k with
      | none =>
        rw [List.filterMap_cons_none hc]
        omega
      | some c' =>
        have := length_advance_lt hc
        rw [List.filterMap_cons_some hc, List.map_cons, List.sum_cons]
        omega
  have := hle group
  have := List.length_pos_iff.mpr hne
  omega

omit [DecidableRel le] in
theorem backlog_cons_eq (k : κ) (c : Cursor α) (h : List (Cursor α)) :
    backlog (c :: h) = backlog (c :: h.takeWhile fun d => key d.head = k) +
      backlog (h.dropWhile fun d => key d.head = k) := by
  conv_lhs =>
    rw [← List.takeWhile_append_dropWhile (p := fun d => key d.head = k) (l := h)]
  simp only [backlog, List.map_cons, List.map_append, List.sum_cons, List.sum_append]
  omega

theorem backlog_requeue (k : κ) (group h : List (Cursor α)) :
    backlog (requeue key le skips k group h) =
      backlog h + backlog (group.filterMap (Cursor.advance key skips k)) := by
  have hperm := ((requeue_perm key le skips k group h).map fun c => c.all.length).sum_nat
  rw [backlog, hperm, List.map_append, List.sum_append]
  rfl

theorem backlog_requeue_lt (c : Cursor α) (h : List (Cursor α)) :
    backlog (requeue key le skips (key c.head)
        (c :: h.takeWhile fun d => key d.head = key c.head)
        (h.dropWhile fun d => key d.head = key c.head)) < backlog (c :: h) := by
  have hlt := backlog_advance_lt key skips (key c.head)
    (List.cons_ne_nil c (h.takeWhile fun d => key d.head = key c.head))
  rw [backlog_requeue, backlog_cons_eq key (key c.head) c h]
  omega

/-- `heap.Init`: the queue a merge starts from. -/
def mergeQueue (its : List (List α)) : List (Cursor α) := (cursors its).insertionSort le

/-- **The groups of a merge**, turn by turn. -/
def mergeGroups (h : List (Cursor α)) : List (List (Cursor α)) :=
  match h with
  | [] => []
  | c :: h =>
    let group := c :: h.takeWhile fun d => key d.head = key c.head
    group :: mergeGroups (requeue key le skips (key c.head) group
      (h.dropWhile fun d => key d.head = key c.head))
termination_by backlog h
decreasing_by exact backlog_requeue_lt key le skips c h

end Merge

/-! ## What the groups hold -/

/-- The first entry under a key of every iterator that has one. -/
def firsts (key : α → κ) (k : κ) (h : List (Cursor α)) : List α :=
  h.filterMap fun c => c.all.find? fun a => key a = k

/-- The same with the places of the iterators. -/
def placed (key : α → κ) (k : κ) (h : List (Cursor α)) : List (ℕ × α) :=
  h.filterMap fun c => (c.all.find? fun a => key a = k).map fun a => (c.place, a)

/-- What a group shows: where each of its iterators stands. -/
def shown (group : List (Cursor α)) : List (ℕ × α) := group.map fun c => (c.place, c.head)

/-- A queue in order, of iterators that run through their keys in order
and do not come back to a key they have been advanced from. -/
structure Queued (key : α → κ) (le : Cursor α → Cursor α → Prop) (skips : Bool)
    (h : List (Cursor α)) : Prop where
  sorted : h.Pairwise le
  ordered : ∀ c ∈ h, c.all.Pairwise fun a b => key a ≤ key b
  distinct : skips = false → ∀ c ∈ h, c.all.Pairwise fun a b => key a < key b

section Spec

variable {key : α → κ} {le : Cursor α → Cursor α → Prop} {skips : Bool}

theorem mem_of_mem_firsts {a : α} (ha : a ∈ firsts key k h) : key a = k ∧ ∃ c ∈ h, a ∈ c.all := by
  obtain ⟨c, hc, hfind⟩ := List.mem_filterMap.mp ha
  exact ⟨by simpa using List.find?_some hfind, c, hc, List.mem_of_find?_eq_some hfind⟩

theorem key_head_le (hc : c.all.Pairwise fun a b => key a ≤ key b) {a : α} (ha : a ∈ c.all) :
    key c.head ≤ key a := by
  rcases List.mem_cons.mp ha with rfl | ha
  · exact le_rfl
  · exact (List.pairwise_cons.mp hc).1 a ha

theorem eq_of_mem_takeWhile {γ : Type} {f : γ → κ} {xs : List γ} {x : γ}
    (hx : x ∈ xs.takeWhile fun x => f x = k) : f x = k := by
  have := List.all_takeWhile (l := xs) (p := fun x => decide (f x = k))
  rw [List.all_eq_true] at this
  simpa using this x hx

/-- In a list in order, what is left behind the entries of the least
rank has a greater one. -/
theorem lt_of_mem_dropWhile {γ : Type} {f : γ → κ} {xs : List γ}
    (hs : xs.Pairwise fun a b => f a ≤ f b) (hk : ∀ x ∈ xs, k ≤ f x) {x : γ}
    (hx : x ∈ xs.dropWhile fun x => f x = k) : k < f x := by
  have hsub := List.dropWhile_sublist (l := xs) fun x => decide (f x = k)
  have hhead := List.head?_dropWhile_not (fun x => decide (f x = k)) xs
  generalize xs.dropWhile (fun x => decide (f x = k)) = ys at hx hsub hhead
  cases ys with
  | nil => cases hx
  | cons y ys =>
    have hy : f y ≠ k := by simpa using hhead
    have hlt : k < f y :=
      lt_of_le_of_ne (hk y (hsub.subset List.mem_cons_self)) (Ne.symm hy)
    rcases List.mem_cons.mp hx with rfl | hx
    · exact hlt
    · exact lt_of_lt_of_le hlt ((List.pairwise_cons.mp (hs.sublist hsub)).1 x hx)

theorem firsts_eq_map_placed (k : κ) (h : List (Cursor α)) :
    firsts key k h = (placed key k h).map Prod.snd := by
  rw [placed, List.map_filterMap]
  simp only [Option.map_map, Function.comp_def, Option.map_id_fun', id_eq]
  rfl

theorem map_head_eq_shown (g : List (Cursor α)) : g.map Cursor.head = (shown g).map Prod.snd := by
  rw [shown, List.map_map]
  rfl

theorem start_eq_some {place : ℕ} {as : List α} (h : Cursor.start place as = some c) :
    c.place = place ∧ c.all = as := by
  cases as with
  | nil => cases h
  | cons a as =>
    cases h
    exact ⟨rfl, rfl⟩

/-- An iterator that moves on keeps its place and leaves its entry. -/
theorem advance_eq_some {c' : Cursor α} (h : c.advance key skips k = some c') :
    c'.place = c.place ∧ c'.all <:+ c.rest := by
  obtain ⟨hplace, hall⟩ := start_eq_some h
  refine ⟨hplace, ?_⟩
  rw [hall]
  split
  · exact List.dropWhile_suffix _
  · exact List.suffix_rfl

variable (skips) in
/-- Under any other key than the one it is advanced from, an iterator
loses nothing. -/
theorem find_advance {k' : κ} (hk : key c.head = k) (hne : k' ≠ k) :
    ((c.advance key skips k).bind fun c' => c'.all.find? fun a => key a = k') =
      c.all.find? fun a => key a = k' := by
  have hstart : ∀ as : List α, ((Cursor.start c.place as).bind fun c' =>
      c'.all.find? fun a => key a = k') = as.find? fun a => key a = k' := by
    intro as
    cases as <;> rfl
  have hdrop : (c.rest.dropWhile fun a => key a = k).find? (fun a => key a = k') =
      c.rest.find? fun a => key a = k' := by
    conv_rhs => rw [← List.takeWhile_append_dropWhile (p := fun a => key a = k) (l := c.rest)]
    have hnone : (c.rest.takeWhile fun a => key a = k).find? (fun a => key a = k') = none := by
      rw [List.find?_eq_none]
      intro a ha
      simpa [eq_of_mem_takeWhile ha] using Ne.symm hne
    rw [List.find?_append, hnone, Option.none_or]
  rw [Cursor.advance, hstart, Cursor.all, List.find?_cons_of_neg (by simpa [hk] using Ne.symm hne)]
  split
  · exact hdrop
  · rfl

/-- What an iterator moves on to lies behind the key, if it skips the
entries under it or has one only. -/
theorem lt_of_advance {c' : Cursor α} (hk : key c.head = k)
    (hc : c.all.Pairwise fun a b => key a ≤ key b)
    (hd : skips = false → c.all.Pairwise fun a b => key a < key b)
    (h : c.advance key skips k = some c') {a : α} (ha : a ∈ c'.all) : k < key a := by
  have hall := (start_eq_some h).2
  rw [hall] at ha
  subst hk
  split at ha
  · obtain ⟨hhead, htail⟩ := List.pairwise_cons.mp hc
    exact lt_of_mem_dropWhile htail hhead ha
  · next hs =>
    exact (List.pairwise_cons.mp (hd (by simpa using hs))).1 a ha

variable [DecidableRel le] [Std.Total le] [IsTrans (Cursor α) le]

theorem pairwise_requeue {group : List (Cursor α)} (hs : h.Pairwise le) :
    (requeue key le skips k group h).Pairwise le := by
  unfold requeue
  generalize group.filterMap (Cursor.advance key skips k) = cs
  induction cs generalizing h with
  | nil => exact hs
  | cons c cs ih => exact ih (hs.orderedInsert c h)

variable (hle : ∀ c d : Cursor α, le c d → key c.head ≤ key d.head)
include hle

variable (skips) in
/-- One turn, whatever the iterators repeat: the group shows the first
entries under the least key, and the queue it leaves holds what was
there under every other one. -/
theorem turn_placed (hsorted : (c :: h).Pairwise le)
    (hordered : ∀ d ∈ c :: h, d.all.Pairwise fun a b => key a ≤ key b) :
    let group := c :: h.takeWhile fun d => key d.head = key c.head
    let rest := requeue key le skips (key c.head) group
      (h.dropWhile fun d => key d.head = key c.head)
    (∀ d ∈ group, key d.head = key c.head) ∧
      shown group = placed key (key c.head) (c :: h) ∧
      rest.Pairwise le ∧ (∀ d ∈ rest, d.all.Pairwise fun a b => key a ≤ key b) ∧
      (∀ d ∈ rest, (d ∈ c :: h ∧ key c.head < key d.head) ∨
        ∃ g ∈ c :: h, key g.head = key c.head ∧ g.advance key skips (key c.head) = some d) ∧
      ∀ k, k ≠ key c.head → (placed key k rest).Perm (placed key k (c :: h)) := by
  intro group rest
  obtain ⟨hc, hh⟩ := List.pairwise_cons.mp hsorted
  have hgroup : ∀ d ∈ group, key d.head = key c.head := by
    intro d hd
    rcases List.mem_cons.mp hd with rfl | hd
    · rfl
    · exact eq_of_mem_takeWhile (f := fun d : Cursor α => key d.head) hd
  have hbehind : ∀ d ∈ h.dropWhile (fun d => key d.head = key c.head),
      key c.head < key d.head := by
    intro d hd
    refine lt_of_mem_dropWhile (f := fun d : Cursor α => key d.head) ?_ ?_ hd
    · exact hh.imp fun {a b} => hle a b
    · exact fun x hx => hle c x (hc x hx)
  have hsplit : c :: h = group ++ h.dropWhile fun d => key d.head = key c.head := by
    rw [List.cons_append, List.takeWhile_append_dropWhile]
  have hsubg : ∀ d ∈ group, d ∈ c :: h := by
    intro d hd
    rw [hsplit]
    exact List.mem_append_left _ hd
  have hsubd : ∀ d ∈ h.dropWhile (fun d => key d.head = key c.head), d ∈ c :: h :=
    fun d hd => List.mem_cons_of_mem _ ((List.dropWhile_suffix _).mem hd)
  have hperm : rest.Perm ((h.dropWhile fun d => key d.head = key c.head) ++
      group.filterMap (Cursor.advance key skips (key c.head))) := requeue_perm key le skips _ _ _
  have hmem : ∀ d ∈ rest, d ∈ h.dropWhile (fun d => key d.head = key c.head) ∨
      ∃ g ∈ group, g.advance key skips (key c.head) = some d := by
    intro d hd
    rcases List.mem_append.mp (hperm.mem_iff.mp hd) with hd | hd
    · exact .inl hd
    · exact .inr (List.mem_filterMap.mp hd)
  refine ⟨hgroup, ?_, pairwise_requeue (hh.sublist (List.dropWhile_sublist _)), ?_, ?_, ?_⟩
  · -- an iterator behind the group has no entry under the least key
    have hnone : placed key (key c.head) (h.dropWhile fun d => key d.head = key c.head) = [] := by
      rw [placed, List.filterMap_eq_nil_iff]
      intro d hd
      rw [Option.map_eq_none_iff, List.find?_eq_none]
      intro a ha
      have := lt_of_lt_of_le (hbehind d hd) (key_head_le (hordered d (hsubd d hd)) ha)
      simpa using ne_of_gt this
    rw [hsplit, placed, List.filterMap_append, ← placed, ← placed, hnone, List.append_nil]
    symm
    refine List.filterMap_eq_map_iff_forall_eq_some.mpr ?_
    intro d hd
    rw [Cursor.all, List.find?_cons_of_pos (by simpa using hgroup d hd)]
    rfl
  · intro d hd
    rcases hmem d hd with hd | ⟨g, hg, hgd⟩
    · exact hordered d (hsubd d hd)
    · exact (List.pairwise_cons.mp (hordered g (hsubg g hg))).2.sublist
        (advance_eq_some hgd).2.sublist
  · intro d hd
    rcases hmem d hd with hd | ⟨g, hg, hgd⟩
    · exact .inl ⟨hsubd d hd, hbehind d hd⟩
    · exact .inr ⟨g, hsubg g hg, hgroup g hg, hgd⟩
  · intro k hk
    have hmoved : placed key k (group.filterMap (Cursor.advance key skips (key c.head))) =
        placed key k group := by
      rw [placed, List.filterMap_filterMap]
      refine List.filterMap_congr fun d hd => ?_
      rw [← find_advance skips (hgroup d hd) hk]
      cases hadv : d.advance key skips (key c.head) with
      | none => rfl
      | some d' =>
        rw [Option.bind_some, Option.bind_some, (advance_eq_some hadv).1]
    have hrest : (placed key k rest).Perm (placed key k _) := hperm.filterMap _
    rw [placed, placed, List.filterMap_append, ← placed, ← placed, ← placed, hmoved] at hrest
    rw [hsplit]
    conv_rhs => rw [placed, List.filterMap_append, ← placed, ← placed]
    exact hrest.trans List.perm_append_comm

/-- One turn: the group holds the first entries under the least key, and
the queue it leaves holds what was there under every greater key. -/
theorem turn_spec (hq : Queued key le skips (c :: h)) :
    let group := c :: h.takeWhile fun d => key d.head = key c.head
    let rest := requeue key le skips (key c.head) group
      (h.dropWhile fun d => key d.head = key c.head)
    (∀ d ∈ group, key d.head = key c.head) ∧
      group.map Cursor.head = firsts key (key c.head) (c :: h) ∧
      Queued key le skips rest ∧ (∀ d ∈ rest, ∀ a ∈ d.all, key c.head < key a) ∧
      ∀ k, k ≠ key c.head → (firsts key k rest).Perm (firsts key k (c :: h)) := by
  intro group rest
  obtain ⟨hsorted, hordered, hdistinct⟩ := hq
  obtain ⟨hgroup, hshown, hrest, hrestord, hfrom, hsame⟩ :=
    turn_placed skips hle hsorted hordered
  refine ⟨hgroup, ?_, ⟨hrest, hrestord, ?_⟩, ?_, ?_⟩
  · rw [map_head_eq_shown, hshown, firsts_eq_map_placed]
  · intro hs d hd
    rcases hfrom d hd with ⟨hmem, -⟩ | ⟨g, hg, -, hgd⟩
    · exact hdistinct hs d hmem
    · exact (List.pairwise_cons.mp (hdistinct hs g hg)).2.sublist (advance_eq_some hgd).2.sublist
  · intro d hd a ha
    rcases hfrom d hd with ⟨hmem, hlt⟩ | ⟨g, hg, hkey, hgd⟩
    · exact lt_of_lt_of_le hlt (key_head_le (hordered d hmem) ha)
    · exact lt_of_advance hkey (hordered g hg) (fun hs => hdistinct hs g hg) hgd ha
  · intro k hk
    rw [firsts_eq_map_placed, firsts_eq_map_placed]
    exact (hsame k hk).map _

/-- **A group holds the first entries under its key.** -/
theorem firsts_of_mem_mergeGroups (hq : Queued key le skips h) {g : List (Cursor α)}
    (hg : g ∈ mergeGroups key le skips h) :
    ∃ k, g ≠ [] ∧ (∀ c ∈ g, key c.head = k) ∧ (g.map Cursor.head).Perm (firsts key k h) := by
  fun_induction mergeGroups key le skips h with
  | case1 => cases hg
  | case2 c h group ih =>
    obtain ⟨hgroup, hfirsts, hrest, hlater, hsame⟩ := turn_spec hle hq
    rcases List.mem_cons.mp hg with rfl | hg
    · exact ⟨key c.head, List.cons_ne_nil _ _, hgroup, .of_eq hfirsts⟩
    · obtain ⟨k, hne, hkey, hperm⟩ := ih hrest hg
      refine ⟨k, hne, hkey, hperm.trans (hsame k ?_)⟩
      -- its entries are among those the queue was left with
      obtain ⟨d, hd⟩ := List.exists_mem_of_ne_nil g hne
      obtain ⟨hk, e, he, hde⟩ :=
        mem_of_mem_firsts (hperm.mem_iff.mp (List.mem_map_of_mem hd))
      exact hk ▸ ne_of_gt (hlater e he _ hde)

/-- **Every key has its group.** -/
theorem exists_mem_mergeGroups (hq : Queued key le skips h) (hk : firsts key k h ≠ []) :
    ∃ g ∈ mergeGroups key le skips h, (g.map Cursor.head).Perm (firsts key k h) := by
  fun_induction mergeGroups key le skips h with
  | case1 => exact absurd rfl hk
  | case2 c h group ih =>
    obtain ⟨-, hfirsts, hrest, -, hsame⟩ := turn_spec hle hq
    by_cases hkc : k = key c.head
    · exact ⟨group, List.mem_cons_self, hkc ▸ .of_eq hfirsts⟩
    · obtain ⟨g, hg, hperm⟩ := ih hrest fun hnil => by
        have := hsame k hkc
        rw [hnil] at this
        exact hk this.symm.eq_nil
      exact ⟨g, List.mem_cons_of_mem _ hg, hperm.trans (hsame k hkc)⟩

/-- **The groups come in the order of their keys.** -/
theorem pairwise_mergeGroups (hq : Queued key le skips h) :
    (mergeGroups key le skips h).Pairwise fun g g' =>
      ∀ c ∈ g, ∀ d ∈ g', key c.head < key d.head := by
  fun_induction mergeGroups key le skips h with
  | case1 => exact .nil
  | case2 c h group ih =>
    obtain ⟨hgroup, -, hrest, hlater, -⟩ := turn_spec hle hq
    refine .cons ?_ (ih hrest)
    intro g hg d hd e he
    obtain ⟨k, -, -, hperm⟩ := firsts_of_mem_mergeGroups hle hrest hg
    obtain ⟨-, x, hx, hex⟩ := mem_of_mem_firsts (hperm.mem_iff.mp (List.mem_map_of_mem he))
    exact hgroup d hd ▸ hlater x hx _ hex

omit hle in
theorem mem_cursors {its : List (List α)} (hc : c ∈ cursors its) : c.all ∈ its := by
  obtain ⟨⟨it, i⟩, hit, hstart⟩ := List.mem_filterMap.mp hc
  have hmem : it ∈ its := (List.mem_zipIdx hit).2.2 ▸ List.getElem_mem _
  cases it with
  | nil => cases hstart
  | cons a as =>
    cases hstart
    exact hmem

omit hle in
/-- A merge of iterators in order starts from a queue in order. -/
theorem queued_mergeQueue {its : List (List α)}
    (ho : ∀ it ∈ its, it.Pairwise fun a b => key a ≤ key b)
    (hd : skips = false → ∀ it ∈ its, it.Pairwise fun a b => key a < key b) :
    Queued key le skips (mergeQueue le its) := by
  refine ⟨List.pairwise_insertionSort le _, ?_, ?_⟩
  · intro c hc
    exact ho _ (mem_cursors ((List.mem_insertionSort le).mp hc))
  · intro hs c hc
    exact hd hs _ (mem_cursors ((List.mem_insertionSort le).mp hc))

omit [Std.Total le] [IsTrans (Cursor α) le] hle in
/-- It holds the first entry under a key of every iterator merged. -/
theorem firsts_mergeQueue (its : List (List α)) (k : κ) :
    (firsts key k (mergeQueue le its)).Perm
      (its.filterMap fun it => it.find? fun a => key a = k) := by
  have hstart : ∀ it : List α × ℕ, ((Cursor.start it.2 it.1).bind fun c =>
      c.all.find? fun a => key a = k) = it.1.find? fun a => key a = k := by
    rintro ⟨_ | ⟨a, as⟩, i⟩ <;> rfl
  have hcursors : firsts key k (cursors its) =
      its.filterMap fun it => it.find? fun a => key a = k := by
    rw [firsts, cursors, List.filterMap_filterMap]
    simp only [hstart]
    conv_rhs => rw [← List.zipIdx_map_fst 0 its, List.filterMap_map]
    rfl
  rw [← hcursors]
  exact (List.perm_insertionSort le _).filterMap _

omit hle [DecidableRel le] [Std.Total le] [IsTrans (Cursor α) le] in
theorem cursorsFrom_cons (place : ℕ) (as : List α) (its : List (List α)) :
    cursorsFrom place (as :: its) =
      (Cursor.start place as).toList ++ cursorsFrom (place + 1) its := by
  rw [cursorsFrom, List.zipIdx_cons]
  cases as <;> rfl

end Spec

end LSMEngine
