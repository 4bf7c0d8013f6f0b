import LSMEngine.Common.Lists
import LSMEngine.Tables.Model.Pins
import LSMEngine.Tables.Set
import Mathlib.Data.List.Nodup
/-!
# Tables — pin accounting

The count the set keeps for a path is the number of times the callers
hold it, and a table that left the set is pending exactly as long as that
count is positive (`Balanced`). So every table an edit takes out is
handed out for cleanup once: by the edit itself if nobody holds it, and
otherwise by the `Unpin` that gives back the last hold on it
(`pins_accounted`).
-/

namespace LSMEngine.Tables

variable {s s' : Accounts} {set : TableSet} {e : Edit} {t : Table} {path : String}

/-! ## Pending tables -/

/-- Tables under paths of their own join the pending ones. -/
theorem foldl_setPending_perm {ts pending : List Table}
    (h : ((ts ++ pending).map Table.path).Nodup) :
    (ts.foldl TableSet.setPending pending).Perm (ts ++ pending) := by
  induction ts generalizing pending with
  | nil => exact .refl _
  | cons u ts ih =>
    obtain ⟨hu, hrest⟩ := List.nodup_cons.mp h
    have hkeep : TableSet.setPending pending u = u :: pending := by
      rw [TableSet.setPending, List.filter_eq_self.mpr]
      intro v hv
      have hne : v.path ≠ u.path := fun heq =>
        hu (List.mem_map.mpr ⟨v, List.mem_append_right _ hv, heq⟩)
      simpa using hne
    rw [List.foldl_cons, hkeep]
    have hperm : (ts ++ u :: pending).Perm (u :: (ts ++ pending)) := List.perm_middle
    exact (ih ((hperm.map Table.path).nodup_iff.mpr h)).trans hperm

theorem unpinPath_perm (set : TableSet) (path : String) :
    set.pending.Perm ((set.unpinPath path).2 ++ (set.unpinPath path).1.pending) := by
  unfold TableSet.unpinPath
  split
  · have hperm := (List.filter_append_perm (fun t : Table => decide (t.path = path))
      set.pending).symm
    simpa using hperm
  · exact .refl _

/-- What is pending is handed out or stays. -/
theorem unpin_perm (set : TableSet) (paths : List String) :
    set.pending.Perm ((set.unpin paths).2 ++ (set.unpin paths).1.pending) := by
  induction paths generalizing set with
  | nil => exact .refl _
  | cons q paths ih =>
    simp only [TableSet.unpin]
    rw [List.append_assoc]
    exact (unpinPath_perm set q).trans ((ih _).append_left _)

/-- Pinned tables that stay pending stay pinned. -/
theorem unpinPath_pinned_pending (h : ∀ t ∈ set.pending, 0 < set.pinned t.path)
    (ht : t ∈ (set.unpinPath path).1.pending) : 0 < (set.unpinPath path).1.pinned t.path := by
  unfold TableSet.unpinPath at ht ⊢
  split at ht
  · next hle =>
    obtain ⟨hmem, hne⟩ := List.mem_filter.mp ht
    have hne : t.path ≠ path := by simpa using hne
    rw [if_pos hle]
    change 0 < Function.update set.pinned path 0 t.path
    rw [Function.update_of_ne hne]
    exact h t hmem
  · next hlt =>
    rw [if_neg hlt]
    change 0 < Function.update set.pinned path (set.pinned path - 1) t.path
    by_cases hp : t.path = path
    · rw [hp, Function.update_self]
      omega
    · rw [Function.update_of_ne hp]
      exact h t ht

theorem unpin_pinned_pending {paths : List String} (h : ∀ t ∈ set.pending, 0 < set.pinned t.path)
    (ht : t ∈ (set.unpin paths).1.pending) : 0 < (set.unpin paths).1.pinned t.path := by
  induction paths generalizing set with
  | nil => exact h t ht
  | cons q paths ih => exact ih (fun u hu => unpinPath_pinned_pending h hu) ht

/-! ## The invariant -/

/-- The paths the callers hold. -/
def Accounts.heldPaths (s : Accounts) : List String := s.held.flatMap fun ts => ts.map Table.path

/-- **The books balance.** -/
structure Balanced (s : Accounts) : Prop where
  counted : ∀ p, s.set.pinned p = s.heldPaths.count p
  paths : ((s.set.tables ++ (s.set.pending ++ s.handed)).map Table.path).Nodup
  known : ∀ t ∈ s.set.tables ++ (s.set.pending ++ s.handed), t.path ∈ s.used
  pending : ∀ t ∈ s.set.pending, 0 < s.set.pinned t.path
  handed : ∀ t ∈ s.handed, s.set.pinned t.path = 0
  removed : s.removed.Perm (s.set.pending ++ s.handed)

theorem balanced_new {tables : List Table} (h : (tables.map Table.path).Nodup) :
    Balanced (Accounts.new tables) := by
  have hperm : (Accounts.new tables).set.tables.Perm tables := List.perm_insertionSort TableLe _
  refine ⟨fun _ => rfl, ?_, ?_, nofun, nofun, .refl _⟩
  · change (((Accounts.new tables).set.tables ++ []).map Table.path).Nodup
    rw [List.append_nil]
    exact (hperm.map _).nodup_iff.mpr h
  · intro t ht
    have ht : t ∈ (Accounts.new tables).set.tables := by simpa [Accounts.new, TableSet.new] using ht
    exact List.mem_map_of_mem (hperm.mem_iff.mp ht)

theorem Balanced.pin (h : Balanced s) :
    Balanced { s with
      set := s.set.snapshotAndPin.2
      held := s.held ++ [s.set.snapshotAndPin.1] } := by
  have hheld : Accounts.heldPaths { s with
      set := s.set.snapshotAndPin.2
      held := s.held ++ [s.set.snapshotAndPin.1] } =
        s.heldPaths ++ s.set.tables.map Table.path := by
    simp [Accounts.heldPaths, TableSet.snapshotAndPin]
  refine ⟨fun p => ?_, h.paths, h.known, fun t ht => ?_, fun t ht => ?_, h.removed⟩
  · rw [hheld, List.count_append, snapshotAndPin_pinned, h.counted]
  · have hpos := h.pending t ht
    rw [snapshotAndPin_pinned]
    omega
  · -- what was handed out is not in the set
    have hout : t.path ∉ s.set.tables.map Table.path := by
      have hpaths := h.paths
      rw [List.map_append, List.nodup_append] at hpaths
      intro hin
      refine hpaths.2.2 _ hin _ ?_ rfl
      exact List.mem_map_of_mem (List.mem_append_right _ ht)
    rw [snapshotAndPin_pinned, h.handed t ht, List.count_eq_zero_of_not_mem hout]

theorem Balanced.unpin (h : Balanced s) {i : ℕ} {ts : List Table} (hi : s.held[i]? = some ts) :
    Balanced { s with
      set := (s.set.unpin (ts.map Table.path)).1
      held := s.held.eraseIdx i
      handed := s.handed ++ (s.set.unpin (ts.map Table.path)).2 } := by
  obtain ⟨as, bs, hsplit, -, herase⟩ := exists_split_of_getElem hi
  have hsame := unpin_tables s.set (ts.map Table.path)
  have hmoved := unpin_perm s.set (ts.map Table.path)
  have hcount := unpin_pinned s.set (ts.map Table.path)
  have hstay := fun t => @unpin_pinned_pending s.set t (ts.map Table.path) h.pending
  have hout := fun t => @mem_unpin s.set t (ts.map Table.path)
  generalize s.set.unpin (ts.map Table.path) = u at *
  -- what was pending is pending still or handed over now
  have hperm : (s.set.pending ++ s.handed).Perm (u.1.pending ++ (s.handed ++ u.2)) := by
    rw [List.perm_iff_count]
    intro x
    have := hmoved.count_eq x
    simp only [List.count_append] at this ⊢
    omega
  have hall : (s.set.tables ++ (s.set.pending ++ s.handed)).Perm
      (u.1.tables ++ (u.1.pending ++ (s.handed ++ u.2))) := by
    rw [hsame]
    exact hperm.append_left _
  refine ⟨fun p => ?_, (hall.map _).nodup_iff.mp h.paths,
    fun t ht => h.known t (hall.mem_iff.mpr ht), hstay, fun t ht => ?_, h.removed.trans hperm⟩
  · change u.1.pinned p = ((s.held.eraseIdx i).flatMap fun ts => ts.map Table.path).count p
    rw [hcount, h.counted, Accounts.heldPaths, hsplit]
    rw [hsplit] at herase
    rw [herase]
    simp only [List.flatMap_append, List.flatMap_cons, List.count_append]
    omega
  · change u.1.pinned t.path = 0
    rcases List.mem_append.mp ht with ht | ht
    · rw [hcount, h.handed t ht, Nat.zero_sub]
    · exact (hout t ht).2

/-- The tables an edit takes out, by whether they are pinned. -/
theorem count_gone (s : TableSet) (e : Edit) (x : Table) :
    (s.tables.filter fun t => t.path ∈ e.removePath).count x =
      ((s.tables.filter fun t => t.path ∈ e.removePath).filter fun t => 0 < s.pinned t.path).count x +
        (s.apply e).2.count x := by
  have hsplit := (List.filter_append_perm (fun t : Table => decide (0 < s.pinned t.path))
    (s.tables.filter fun t => t.path ∈ e.removePath)).count_eq x
  have hzero : (s.apply e).2 = (s.tables.filter fun t => t.path ∈ e.removePath).filter fun t =>
      !decide (0 < s.pinned t.path) := by
    refine List.filter_congr fun t _ => ?_
    rw [← decide_not, decide_eq_decide]
    omega
  rw [← hsplit, List.count_append, hzero]

theorem Balanced.apply (h : Balanced s) (hnew : Accounts.NewPaths s.used e) :
    Balanced { s with
      set := (s.set.apply e).1
      used := s.used ++ e.add.map Table.path
      removed := s.removed ++ s.set.tables.filter fun t => t.path ∈ e.removePath
      handed := s.handed ++ (s.set.apply e).2 } := by
  set gone := s.set.tables.filter fun t => t.path ∈ e.removePath with hgone
  set pins := gone.filter fun t => 0 < s.set.pinned t.path with hpins
  have hkept : ∀ x, s.set.tables.count x =
      gone.count x + (s.set.tables.filter fun t => t.path ∉ e.removePath).count x := by
    intro x
    have := (List.filter_append_perm (fun t : Table => decide (t.path ∈ e.removePath))
      s.set.tables).count_eq x
    rw [← this, List.count_append]
    simp [hgone]
  -- the loop sets pending by path, and a path that is new to it is appended
  have hpending : (s.set.apply e).1.pending.Perm (pins ++ s.set.pending) := by
    refine foldl_setPending_perm ?_
    have hsub : (pins ++ s.set.pending).Sublist (s.set.tables ++ (s.set.pending ++ s.handed)) :=
      (List.filter_sublist.trans List.filter_sublist).append (List.sublist_append_left _ _)
    exact h.paths.sublist (hsub.map _)
  have htables := apply_tables s.set e
  -- all tables there are: those before, and those added; counted one table at a time
  have hall : ((s.set.apply e).1.tables ++
      ((s.set.apply e).1.pending ++ (s.handed ++ (s.set.apply e).2))).Perm
        (e.add ++ (s.set.tables ++ (s.set.pending ++ s.handed))) := by
    rw [List.perm_iff_count]
    intro x
    have h₁ := htables.count_eq x
    have h₂ := hpending.count_eq x
    have h₃ := hkept x
    have h₄ : gone.count x = pins.count x + (s.set.apply e).2.count x := count_gone s.set e x
    simp only [List.count_append] at h₁ h₂ ⊢
    omega
  refine ⟨h.counted, ?_, fun t ht => ?_, fun t ht => ?_, fun t ht => ?_, ?_⟩
  · rw [(hall.map _).nodup_iff, List.map_append, List.nodup_append]
    refine ⟨hnew.1, h.paths, fun p hp q hq hpq => hnew.2 p hp ?_⟩
    obtain ⟨t, ht, rfl⟩ := List.mem_map.mp hq
    rw [hpq]
    exact h.known t ht
  · rcases List.mem_append.mp (hall.mem_iff.mp ht) with ht | ht
    · exact List.mem_append_right _ (List.mem_map_of_mem ht)
    · exact List.mem_append_left _ (h.known t ht)
  · rw [apply_pinned]
    rcases List.mem_append.mp (hpending.mem_iff.mp ht) with ht | ht
    · simpa using (List.mem_filter.mp ht).2
    · exact h.pending t ht
  · rw [apply_pinned]
    rcases List.mem_append.mp ht with ht | ht
    · exact h.handed t ht
    · exact (mem_apply_removed ht).2.2
  · rw [List.perm_iff_count]
    intro x
    have h₁ := h.removed.count_eq x
    have h₂ := hpending.count_eq x
    have h₃ : gone.count x = pins.count x + (s.set.apply e).2.count x := count_gone s.set e x
    simp only [List.count_append] at h₁ h₂ ⊢
    omega

/-- **One call keeps the books balanced.** -/
theorem Balanced.act (h : Balanced s) {a : Accounts.Event} (hs : s.act a = some s') :
    Balanced s' := by
  cases a with
  | pin =>
    obtain rfl := Option.some.inj hs
    exact h.pin
  | unpin i =>
    obtain ⟨ts, hi, rfl⟩ := Option.map_eq_some_iff.mp hs
    exact h.unpin hi
  | apply e =>
    simp only [Accounts.act] at hs
    split at hs
    · next hnew =>
      obtain rfl := Option.some.inj hs
      exact h.apply hnew
    · cases hs

theorem balanced_of_run {tables : List Table} {as : List Accounts.Event}
    (hpaths : (tables.map Table.path).Nodup)
    (hrun : runs Accounts.act (.new tables) as = some s) : Balanced s :=
  runs_invariant (fun _ _ _ h hs => h.act hs) (balanced_new hpaths) hrun

/-! ## Who hands a table out -/

/-- Some caller holds the path. -/
def Accounts.Holds (held : List (List Table)) (path : String) : Prop :=
  ∃ ts ∈ held, path ∈ ts.map Table.path

theorem Balanced.pinned_pos (h : Balanced s) :
    0 < s.set.pinned path ↔ Accounts.Holds s.held path := by
  rw [h.counted, List.count_pos_iff, Accounts.heldPaths, List.mem_flatMap]
  rfl

/-- An edit hands out what it takes out of the set, if nobody holds it. -/
theorem Balanced.mem_apply (h : Balanced s) (e : Edit) : t ∈ (s.set.apply e).2 ↔
    t ∈ s.set.tables ∧ t.path ∈ e.removePath ∧ ¬ Accounts.Holds s.held t.path := by
  rw [← h.pinned_pos]
  constructor
  · intro ht
    obtain ⟨hmem, hrem, hzero⟩ := mem_apply_removed ht
    exact ⟨hmem, hrem, by omega⟩
  · rintro ⟨hmem, hrem, hzero⟩
    refine List.mem_filter.mpr ⟨List.mem_filter.mpr ⟨hmem, by simpa using hrem⟩, ?_⟩
    exact decide_eq_true (by omega)

/-- Giving pins back hands out what is pending and nobody else holds. -/
theorem Balanced.mem_unpin (h : Balanced s) {i : ℕ} {ts : List Table} (hi : s.held[i]? = some ts) :
    t ∈ (s.set.unpin (ts.map Table.path)).2 ↔
      t ∈ s.set.pending ∧ ¬ Accounts.Holds (s.held.eraseIdx i) t.path := by
  have h' := h.unpin hi
  constructor
  · intro ht
    obtain ⟨hmem, hzero⟩ := Tables.mem_unpin ht
    refine ⟨hmem, fun hholds => ?_⟩
    have := h'.pinned_pos.mpr hholds
    change 0 < (s.set.unpin (ts.map Table.path)).1.pinned t.path at this
    omega
  · rintro ⟨hmem, hfree⟩
    refine (List.mem_append.mp ((unpin_perm s.set (ts.map Table.path)).mem_iff.mp hmem)).resolve_right
      fun hstay => hfree ?_
    exact h'.pinned_pos.mp (h'.pending t hstay)

/-- **Pins are accounted for.** In every run of callers and edits on a
set, the tables edits took out are those handed out and those pending,
each once. What is pending is held by some caller, and what was handed
out by none. And in every state of a run an edit hands out exactly those
of its tables that nobody holds, and an `Unpin` exactly those pending
tables that it was the last to hold. -/
theorem pins_accounted {tables : List Table} {as : List Accounts.Event}
    (hpaths : (tables.map Table.path).Nodup)
    (hrun : runs Accounts.act (.new tables) as = some s) :
    (s.removed.map Table.path).Nodup ∧ s.removed.Perm (s.set.pending ++ s.handed) ∧
      (∀ t ∈ s.set.pending, Accounts.Holds s.held t.path) ∧
      (∀ t ∈ s.handed, ¬ Accounts.Holds s.held t.path) ∧
      (∀ e t, t ∈ (s.set.apply e).2 ↔
        t ∈ s.set.tables ∧ t.path ∈ e.removePath ∧ ¬ Accounts.Holds s.held t.path) ∧
      ∀ i ts, s.held[i]? = some ts → ∀ t, t ∈ (s.set.unpin (ts.map Table.path)).2 ↔
        t ∈ s.set.pending ∧ ¬ Accounts.Holds (s.held.eraseIdx i) t.path := by
  have h := balanced_of_run hpaths hrun
  refine ⟨?_, h.removed, fun t ht => h.pinned_pos.mp (h.pending t ht), fun t ht hholds => ?_,
    fun e t => h.mem_apply e, fun i ts hi t => h.mem_unpin hi⟩
  · have hrest := h.paths
    rw [List.map_append, List.nodup_append] at hrest
    exact (h.removed.map _).nodup_iff.mpr hrest.2.1
  · have hpos := h.pinned_pos.mpr hholds
    have hzero := h.handed t ht
    omega

/-- A table is pinned twice and leaves the set; the second caller to let
go gets it. -/
def replacedWhileHeld : List Accounts.Event :=
  [.pin, .pin, .apply ⟨[single "b" ⟨[1], [], true, 2⟩], ["a"]⟩, .unpin 1, .unpin 0]

def heldTable : Table := single "a" ⟨[1], [1], false, 1⟩

theorem replacedWhileHeld_isSome :
    (runs Accounts.act (.new [heldTable]) replacedWhileHeld).isSome := by decide +kernel

theorem pins_accounted_replaced :
    let s := (runs Accounts.act (.new [heldTable]) replacedWhileHeld).get replacedWhileHeld_isSome
    s.handed = [heldTable] ∧ (s.removed.map Table.path).Nodup ∧
      s.removed.Perm (s.set.pending ++ s.handed) := by
  have hpaths : ([heldTable].map Table.path).Nodup := List.nodup_singleton _
  have h := pins_accounted hpaths (Option.some_get replacedWhileHeld_isSome).symm
  exact ⟨by decide +kernel, h.1, h.2.1⟩

end LSMEngine.Tables
