import LSMEngine.Tables.Levels
import LSMEngine.Tables.Limits
import Mathlib.Data.List.Dedup
/-!
# Tables — what the planner chooses

Whatever its limits, a plan takes a level as a whole together with the
tables of the next level that overlap it (`next_eq_some`), and on the
tables of a set that is a choice a compaction may replace
(`chosen_of_next`): two tables whose key ranges do not overlap share no
key.
-/

namespace LSMEngine.Tables

variable {metas : List TableMeta} {levels : List Level} {id : ℕ} {lvl : Level}
  {p : StrictLevelledPlanner}

/-! ## Levels of a snapshot -/

theorem mem_stateFromMetas : lvl ∈ stateFromMetas metas ↔
    (∃ m ∈ metas, m.level = lvl.level) ∧ lvl.tables = metas.filter fun m => m.level = lvl.level := by
  simp only [stateFromMetas, List.mem_map, List.mem_insertionSort, List.mem_dedup]
  refine ⟨?_, ?_⟩
  · rintro ⟨l, hl, rfl⟩
    exact ⟨hl, rfl⟩
  · rintro ⟨hl, htables⟩
    exact ⟨lvl.level, hl, by rw [← htables]⟩

/-- A level found holds the tables at it, and there are some. -/
theorem levelByID_eq_some (h : levelByID (stateFromMetas metas) id = some lvl) :
    lvl.level = id ∧ lvl.tables = metas.filter (fun m => m.level = id) ∧ lvl.tables ≠ [] := by
  obtain ⟨hmem, rfl⟩ := levelByID_level h
  obtain ⟨⟨m, hm, hlevel⟩, htables⟩ := mem_stateFromMetas.mp hmem
  refine ⟨rfl, htables, List.ne_nil_of_mem (a := m) ?_⟩
  rw [htables, List.mem_filter]
  exact ⟨hm, by simp [hlevel]⟩

/-- A level not found holds none. -/
theorem level_ne_of_levelByID_eq_none (h : levelByID (stateFromMetas metas) id = none)
    {m : TableMeta} (hm : m ∈ metas) : m.level ≠ id := by
  intro hlevel
  rw [levelByID, List.find?_eq_none] at h
  have hmem : ⟨id, metas.filter fun m => m.level = id⟩ ∈ stateFromMetas metas :=
    mem_stateFromMetas.mpr ⟨⟨m, hm, hlevel⟩, rfl⟩
  simpa using h _ hmem

/-! ## Plans -/

theorem nextLevel_eq_some {level : ℕ} {plan : Plan} (h : nextLevel p levels level = some plan) :
    ∃ id l reason, levelByID levels id = some l ∧ plan = planLevel levels l reason ∧
      level ≤ id ∧ Unbroken levels level id := by
  fun_induction nextLevel p levels level with
  | case1 => cases h
  | case2 level l hl multiplier limit hlimit ih =>
    obtain ⟨id, l', reason, hl', hplan, hid, hun⟩ := ih h
    exact ⟨id, l', reason, hl', hplan, by omega, hun.cons (by simp [hl])⟩
  | case3 level l hl multiplier limit hlimit hsize =>
    exact ⟨level, l, _, hl, (Option.some.inj h).symm, Nat.le_refl _, unbroken_self (by simp [hl])⟩
  | case4 level l hl multiplier limit hlimit hsize ih =>
    obtain ⟨id, l', reason, hl', hplan, hid, hun⟩ := ih h
    exact ⟨id, l', reason, hl', hplan, by omega, hun.cons (by simp [hl])⟩

/-- **A plan is the plan of a level.** Level 0 comes first; a plan for
another level is for one the scan gets to, with level 0 not due. -/
theorem next_eq_some {plan : Plan} (h : p.next levels = some plan) :
    ∃ id l reason, levelByID levels id = some l ∧ plan = planLevel levels l reason ∧
      ((id = 0 ∧ FilesDue p levels) ∨ (¬ FilesDue p levels ∧ 1 ≤ id ∧ Unbroken levels 1 id)) := by
  unfold StrictLevelledPlanner.next at h
  split at h
  · next l0 hl0 =>
    split at h
    · next hdue => exact ⟨0, l0, _, hl0, (Option.some.inj h).symm, .inl ⟨rfl, l0, hl0, hdue⟩⟩
    · next hnot =>
      split at h
      · cases h
      · obtain ⟨id, l, reason, hl, hplan, hscan⟩ := nextLevel_eq_some h
        refine ⟨id, l, reason, hl, hplan, .inr ⟨?_, hscan⟩⟩
        rintro ⟨l', hl', hdue⟩
        rw [hl0] at hl'
        cases hl'
        exact hnot hdue
  · next hl0 =>
    split at h
    · cases h
    · obtain ⟨id, l, reason, hl, hplan, hscan⟩ := nextLevel_eq_some h
      refine ⟨id, l, reason, hl, hplan, .inr ⟨?_, hscan⟩⟩
      rintro ⟨l', hl', -⟩
      rw [hl0] at hl'
      cases hl'

theorem dedupeFrom_eq_self {seen : List String} {ms : List TableMeta}
    (hnodup : (ms.map TableMeta.path).Nodup) (hseen : ∀ m ∈ ms, m.path ∉ seen) :
    dedupeFrom seen ms = ms := by
  induction ms generalizing seen with
  | nil => rfl
  | cons m ms ih =>
    rw [List.map_cons, List.nodup_cons] at hnodup
    rw [dedupeFrom, if_neg (hseen m List.mem_cons_self), ih hnodup.2]
    intro x hx hin
    rcases List.mem_cons.mp hin with heq | hin
    · exact hnodup.1 (heq ▸ List.mem_map_of_mem hx)
    · exact hseen x (List.mem_cons_of_mem m hx) hin

/-- **Ranges that do not overlap have no key in common.** -/
theorem keysApart_of_not_overlap {t u : SSTable}
    (h : rangesOverlap t.first.key t.last.key u.first.key u.last.key = false) {d e : Entry}
    (hd : d ∈ t.entries) (he : e ∈ u.entries) : d.key ≠ e.key := by
  intro heq
  have hkeys : u.first.key ≤ t.last.key ∧ t.first.key ≤ u.last.key := by
    refine ⟨?_, ?_⟩
    · calc u.first.key ≤ e.key := first_key_le he
        _ = d.key := heq.symm
        _ ≤ t.last.key := key_le_last hd
    · calc t.first.key ≤ d.key := first_key_le hd
        _ = e.key := heq
        _ ≤ u.last.key := key_le_last he
  unfold rangesOverlap at h
  split at h
  · cases h
  · rw [if_neg (not_lt.mpr hkeys.1), if_neg (not_lt.mpr hkeys.2)] at h
    cases h

/-! ## The choice -/

/-- The tables at a level. -/
def atLevel (ts : List Table) (l : ℕ) : List Table := ts.filter fun t => t.metadata.level = l

/-- The tables a plan for the level takes. -/
def chosenAt (ts : List Table) (l : ℕ) : List Table :=
  atLevel ts l ++ (atLevel ts (l + 1)).filter fun u =>
    (atLevel ts l).any fun t => rangesOverlap t.metadata.minKey t.metadata.maxKey
      u.metadata.minKey u.metadata.maxKey

variable {ts : List Table} {l : ℕ} {t : Table}

theorem mem_atLevel : t ∈ atLevel ts l ↔ t ∈ ts ∧ t.level = l := by
  simp [atLevel, Table.level]

theorem map_atLevel (ts : List Table) (l : ℕ) : (atLevel ts l).map Table.metadata =
    (ts.map Table.metadata).filter fun m => m.level = l := by
  rw [atLevel, List.filter_map]
  rfl

theorem mem_of_mem_chosenAt (ht : t ∈ chosenAt ts l) :
    t ∈ ts ∧ (t.level = l ∨ t.level = l + 1) := by
  rcases List.mem_append.mp ht with ht | ht
  · exact (mem_atLevel.mp ht).imp_right .inl
  · exact (mem_atLevel.mp (List.mem_filter.mp ht).1).imp_right .inr

theorem chosen_chosenAt (h : Levelled ts) (hne : atLevel ts l ≠ []) :
    Chosen ts (chosenAt ts l) l := by
  refine ⟨List.append_ne_nil_of_left_ne_nil hne _, fun t ht => (mem_of_mem_chosenAt ht).1,
    fun t ht => (mem_of_mem_chosenAt ht).2, ?_, ?_⟩
  · intro t ht hnot hl
    exact absurd (List.mem_append_left _ (mem_atLevel.mpr ⟨ht, hl⟩)) hnot
  · intro u hu hnot hul t ht htl
    have htmem := (mem_of_mem_chosenAt ht).1
    have hover : rangesOverlap t.metadata.minKey t.metadata.maxKey u.metadata.minKey
        u.metadata.maxKey = false := by
      by_contra hov
      refine hnot (List.mem_append_right _ (List.mem_filter.mpr ⟨mem_atLevel.mpr ⟨hu, hul⟩, ?_⟩))
      rw [List.any_eq_true]
      exact ⟨t, mem_atLevel.mpr ⟨htmem, htl⟩, by simpa using hov⟩
    rw [h.agrees t htmem, h.agrees u hu] at hover
    exact fun d hd e he => keysApart_of_not_overlap hover hd he

theorem nodup_paths_chosenAt (h : Levelled ts) :
    (((chosenAt ts l).map Table.metadata).map TableMeta.path).Nodup := by
  have hnodup : ts.Nodup := h.paths.of_map
  have hch : (chosenAt ts l).Nodup := by
    rw [chosenAt, List.nodup_append]
    refine ⟨hnodup.filter _, (hnodup.filter _).filter _, ?_⟩
    rintro t ht _ hu rfl
    have h1 := (mem_atLevel.mp ht).2
    have h2 := (mem_atLevel.mp (List.mem_filter.mp hu).1).2
    omega
  rw [List.map_map]
  refine hch.map_on ?_
  intro t ht u hu hpath
  exact h.eq_of_path (mem_of_mem_chosenAt ht).1 (mem_of_mem_chosenAt hu).1 hpath

/-- The plan of a level, by the tables it takes. -/
theorem planLevel_inputs (h : Levelled ts)
    (hlvl : levelByID (stateFromMetas (ts.map Table.metadata)) l = some lvl) (reason : String) :
    (planLevel (stateFromMetas (ts.map Table.metadata)) lvl reason).inputs =
      (chosenAt ts l).map Table.metadata := by
  obtain ⟨rfl, htables, -⟩ := levelByID_eq_some hlvl
  rw [← map_atLevel] at htables
  have hnext : overlapTables (levelByID (stateFromMetas (ts.map Table.metadata)) (lvl.level + 1))
      lvl.tables = ((atLevel ts (lvl.level + 1)).filter fun u =>
        (atLevel ts lvl.level).any fun t => rangesOverlap t.metadata.minKey t.metadata.maxKey
          u.metadata.minKey u.metadata.maxKey).map Table.metadata := by
    cases hn : levelByID (stateFromMetas (ts.map Table.metadata)) (lvl.level + 1) with
    | none =>
      have hnil : atLevel ts (lvl.level + 1) = [] := by
        rw [List.eq_nil_iff_forall_not_mem]
        intro u hu
        obtain ⟨hu, hul⟩ := mem_atLevel.mp hu
        exact level_ne_of_levelByID_eq_none hn (List.mem_map_of_mem hu) hul
      rw [hnil]
      rfl
    | some nxt =>
      obtain ⟨-, hnxt, -⟩ := levelByID_eq_some hn
      rw [← map_atLevel] at hnxt
      rw [overlapTables, hnxt, htables, List.filter_map]
      simp only [List.any_map, Function.comp_def]
  rw [planLevel, hnext, htables, ← List.map_append]
  exact dedupeFrom_eq_self (nodup_paths_chosenAt h) (by simp)

/-- **A plan is a choice a compaction may replace.** -/
theorem chosen_of_next (h : Levelled ts) {plan : Plan}
    (hnext : p.next (stateFromMetas (ts.map Table.metadata)) = some plan) :
    ∃ ins l, Chosen ts ins l ∧ plan.inputs = ins.map Table.metadata ∧
      plan.outputLevel = l + 1 := by
  obtain ⟨l, lvl, reason, hlvl, rfl, -⟩ := next_eq_some hnext
  obtain ⟨hid, htables, hne⟩ := levelByID_eq_some hlvl
  refine ⟨chosenAt ts l, l, chosen_chosenAt h ?_, planLevel_inputs h hlvl reason, ?_⟩
  · intro hnil
    rw [htables, ← map_atLevel, hnil] at hne
    exact hne rfl
  · rw [planLevel, hid]

end LSMEngine.Tables
