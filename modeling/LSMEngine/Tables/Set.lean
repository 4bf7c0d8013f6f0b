import LSMEngine.Tables.Model.Set
/-!
# Tables — what the operations of the set do

One lemma for each operation of the table set, by the fields it touches:
an edit keeps the pins and hands out what nothing holds, unpinning counts
down and hands out what it was the last to hold.
-/

namespace LSMEngine.Tables

variable {s : TableSet} {e : Edit} {t : Table} {path : String}

/-! ## Edits -/

theorem apply_tables (s : TableSet) (e : Edit) : (s.apply e).1.tables.Perm
    ((s.tables.filter fun t => t.path ∉ e.removePath) ++ e.add) :=
  List.perm_insertionSort TableLe _

theorem apply_sorted (s : TableSet) (e : Edit) : (s.apply e).1.tables.Pairwise TableLe :=
  List.pairwise_insertionSort TableLe _

@[simp] theorem apply_pinned (s : TableSet) (e : Edit) : (s.apply e).1.pinned = s.pinned := rfl

/-- What an edit hands out was in the set, and nothing held it. -/
theorem mem_apply_removed (h : t ∈ (s.apply e).2) :
    t ∈ s.tables ∧ t.path ∈ e.removePath ∧ s.pinned t.path = 0 := by
  obtain ⟨hgone, hfree⟩ := List.mem_filter.mp h
  obtain ⟨hmem, hpath⟩ := List.mem_filter.mp hgone
  exact ⟨hmem, by simpa using hpath, by simpa using hfree⟩

theorem mem_foldl_setPending {ts pending : List Table}
    (h : t ∈ ts.foldl TableSet.setPending pending) : t ∈ ts ∨ t ∈ pending := by
  induction ts generalizing pending with
  | nil => exact .inr h
  | cons u ts ih =>
    rcases ih h with hmem | hmem
    · exact .inl (List.mem_cons_of_mem u hmem)
    · rcases List.mem_cons.mp hmem with rfl | hmem
      · exact .inl List.mem_cons_self
      · exact .inr (List.mem_filter.mp hmem).1

/-- What is pending after an edit was pending, or left the set. -/
theorem mem_apply_pending (h : t ∈ (s.apply e).1.pending) :
    t ∈ s.pending ∨ (t ∈ s.tables ∧ t.path ∈ e.removePath) := by
  rcases mem_foldl_setPending h with hmem | hmem
  · obtain ⟨hmem, hpath⟩ := List.mem_filter.mp (List.mem_filter.mp hmem).1
    exact .inr ⟨hmem, by simpa using hpath⟩
  · exact .inl hmem

/-! ## Pins -/

@[simp] theorem snapshotAndPin_pinned (s : TableSet) (path : String) :
    s.snapshotAndPin.2.pinned path = s.pinned path + (s.tables.map Table.path).count path := rfl

theorem unpinPath_pinned (s : TableSet) (q path : String) :
    (s.unpinPath q).1.pinned path = s.pinned path - [q].count path := by
  rw [List.count_singleton]
  unfold TableSet.unpinPath
  by_cases hq : q = path
  · subst hq
    split
    · next hle =>
      simp only [Function.update_self, beq_self_eq_true, if_true]
      omega
    · simp only [Function.update_self, beq_self_eq_true, if_true]
  · have hq' : path ≠ q := Ne.symm hq
    split
    · simp only [Function.update_of_ne hq', beq_iff_eq, if_neg hq, Nat.sub_zero]
    · simp only [Function.update_of_ne hq', beq_iff_eq, if_neg hq, Nat.sub_zero]

theorem unpinPath_tables (s : TableSet) (path : String) :
    (s.unpinPath path).1.tables = s.tables := by
  unfold TableSet.unpinPath
  split <;> rfl

/-- What unpinning a path hands out was pending under it, and nothing
holds it any more. -/
theorem mem_unpinPath (h : t ∈ (s.unpinPath path).2) :
    t ∈ s.pending ∧ (s.unpinPath path).1.pinned t.path = 0 := by
  unfold TableSet.unpinPath at h ⊢
  split at h
  · next hle =>
    obtain ⟨hmem, hpath⟩ := List.mem_filter.mp h
    have hpath : t.path = path := by simpa using hpath
    rw [if_pos hle, hpath]
    exact ⟨hmem, Function.update_self ..⟩
  · cases h

theorem unpinPath_pending (h : t ∈ (s.unpinPath path).1.pending) : t ∈ s.pending := by
  unfold TableSet.unpinPath at h
  split at h
  · exact (List.mem_filter.mp h).1
  · exact h

theorem unpin_tables (s : TableSet) (paths : List String) :
    (s.unpin paths).1.tables = s.tables := by
  induction paths generalizing s with
  | nil => rfl
  | cons q paths ih =>
    simp only [TableSet.unpin]
    rw [ih, unpinPath_tables]

/-- **Unpinning counts down.** -/
theorem unpin_pinned (s : TableSet) (paths : List String) (path : String) :
    (s.unpin paths).1.pinned path = s.pinned path - paths.count path := by
  induction paths generalizing s with
  | nil => rfl
  | cons q paths ih =>
    simp only [TableSet.unpin]
    rw [ih, unpinPath_pinned, Nat.sub_sub, ← List.count_append, List.singleton_append]

/-- **What unpinning hands out was pending, and nothing holds it any
more.** -/
theorem mem_unpin {paths : List String} (h : t ∈ (s.unpin paths).2) :
    t ∈ s.pending ∧ (s.unpin paths).1.pinned t.path = 0 := by
  induction paths generalizing s with
  | nil => cases h
  | cons q paths ih =>
    simp only [TableSet.unpin] at h ⊢
    rcases List.mem_append.mp h with h | h
    · obtain ⟨hmem, hzero⟩ := mem_unpinPath h
      refine ⟨hmem, ?_⟩
      rw [unpin_pinned, hzero, Nat.zero_sub]
    · obtain ⟨hmem, hzero⟩ := ih h
      exact ⟨unpinPath_pending hmem, hzero⟩

theorem unpin_pending {paths : List String} (h : t ∈ (s.unpin paths).1.pending) :
    t ∈ s.pending := by
  induction paths generalizing s with
  | nil => exact h
  | cons q paths ih =>
    simp only [TableSet.unpin] at h
    exact unpinPath_pending (ih h)

/-! ## Small tables -/

/-- A table of one entry. -/
def single (path : String) (e : Entry) : Table :=
  Table.of ⟨path, [e], 0, List.cons_ne_nil e [], List.pairwise_singleton _ e⟩ 0

end LSMEngine.Tables
