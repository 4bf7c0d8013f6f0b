import LSMEngine.Tables.Model.Service
import LSMEngine.Tables.Planner
/-!
# Tables — compaction comes to rest

A step empties the level it is planned for and adds to the next one. So
the total need not shrink, and the next level may be left over its
target; but the scan of the planner stops where a level is missing, and
the level just emptied is. The levels of successive plans descend, from
the highest level there is, after at most one step for level 0.
-/

namespace LSMEngine.Tables

variable {p : StrictLevelledPlanner} {s s' : TableSet} {output : List SSTable}

/-- No table is at the level. -/
def Clear (s : TableSet) (l : ℕ) : Prop := ∀ t ∈ s.tables, t.level ≠ l

/-- Level 0 has reached the threshold. -/
def TooManyFiles (p : StrictLevelledPlanner) (s : TableSet) : Prop :=
  0 < p.l0FileThreshold ∧ p.l0FileThreshold ≤ (atLevel s.tables 0).length

/-- **What a step does to the levels**, planned for one of them: it is
emptied, the next one is added to, and level 0 does not grow. -/
structure Compacted (p : StrictLevelledPlanner) (s s' : TableSet) (l : ℕ) : Prop where
  tables : ∀ t ∈ s'.tables, (t ∈ s.tables ∧ t.level ≠ l) ∨ t.level = l + 1
  files : (atLevel s'.tables 0).length ≤ (atLevel s.tables 0).length
  due : (l = 0 ∧ TooManyFiles p s) ∨
    (¬ TooManyFiles p s ∧ 1 ≤ l ∧ ∀ i, 1 ≤ i → i ≤ l → ¬ Clear s i)

/-! ## A step -/

/-- What `SimpleRunner.Run` returns, by the tables it writes. -/
theorem result_of_run {fileSize : List Entry → UInt64} {drop : Bool} {now : ℕ} {plan : Plan}
    {inputs : List SSTable} {r : Result} (h : run fileSize drop now plan inputs = .ok r) :
    plan.result r.output = r := by
  unfold run at h
  unfold Plan.result
  split at h
  · next hnil =>
    rw [if_pos hnil]
    exact Except.ok.inj h
  · next hne =>
    rw [if_neg hne]
    split at h
    · cases h
    · dsimp only at h
      split at h
      · exact (Except.ok.inj h) ▸ rfl
      · cases hf : flush fileSize now (mergeEntries
            ((inputs.insertionSort fun a b => b.seq ≤ a.seq).map fun t => t.range [] []) drop) with
        | error e =>
          rw [hf] at h
          cases h
        | ok out =>
          rw [hf] at h
          exact (Except.ok.inj h) ▸ rfl

/-- **The runner of the engine is one of those**: what a step of the
coordinator comes to with it, it comes to for the tables it writes. -/
theorem exists_stepWith_of_step {fileSize : List Entry → UInt64} {drop : Bool} {now : ℕ} {b : Bool}
    (h : step fileSize p drop now s = .ok (b, s')) :
    ∃ output, stepWith p output s = .ok (b, s') := by
  unfold step at h
  unfold stepWith
  cases hnext : p.next (stateFromMetas s.snapshot) with
  | none => exact ⟨[], by simpa [hnext] using h⟩
  | some plan =>
    cases hin : s.resolve plan.inputs with
    | error e => simp [hnext, hin, bind, Except.bind] at h
    | ok inputs =>
      cases hrun : run fileSize drop now plan inputs with
      | error e => simp [hnext, hin, hrun, bind, Except.bind] at h
      | ok r =>
        simp only [hnext, hin, hrun, bind, Except.bind] at h
        exact ⟨r.output, by simpa only [hin, bind, Except.bind, result_of_run hrun] using h⟩

theorem map_atLevel_snapshot (s : TableSet) (l : ℕ) :
    (atLevel s.tables l).map Table.metadata = s.snapshot.filter fun m => m.level = l :=
  map_atLevel s.tables l

theorem levelByID_eq_none_iff_clear {l : ℕ} :
    levelByID (stateFromMetas s.snapshot) l = none ↔ Clear s l := by
  constructor
  · intro h t ht
    exact level_ne_of_levelByID_eq_none h (List.mem_map_of_mem ht)
  · intro hclear
    cases hl : levelByID (stateFromMetas s.snapshot) l with
    | none => rfl
    | some lvl =>
      obtain ⟨-, htables, hne⟩ := levelByID_eq_some hl
      obtain ⟨m, hm⟩ := List.exists_mem_of_ne_nil _ hne
      rw [htables, ← map_atLevel_snapshot, List.mem_map] at hm
      obtain ⟨t, ht, -⟩ := hm
      exact absurd (mem_atLevel.mp ht).2 (hclear t (mem_atLevel.mp ht).1)

theorem filesDue_iff : FilesDue p (stateFromMetas s.snapshot) ↔ TooManyFiles p s := by
  constructor
  · rintro ⟨l, hl, hthr, hlen⟩
    obtain ⟨-, htables, -⟩ := levelByID_eq_some hl
    rw [htables, ← map_atLevel_snapshot, List.length_map] at hlen
    exact ⟨hthr, hlen⟩
  · rintro ⟨hthr, hlen⟩
    cases hl : levelByID (stateFromMetas s.snapshot) 0 with
    | none =>
      have hnil : atLevel s.tables 0 = [] := by
        rw [List.eq_nil_iff_forall_not_mem]
        intro t ht
        exact levelByID_eq_none_iff_clear.mp hl t (mem_atLevel.mp ht).1 (mem_atLevel.mp ht).2
      rw [hnil, List.length_nil] at hlen
      omega
    | some l =>
      obtain ⟨-, htables, -⟩ := levelByID_eq_some hl
      refine ⟨l, hl, hthr, ?_⟩
      rwa [htables, ← map_atLevel_snapshot, List.length_map]

theorem path_mem_dedupeFrom {seen : List String} {ms : List TableMeta} {m : TableMeta}
    (hm : m ∈ ms) (hseen : m.path ∉ seen) : m.path ∈ (dedupeFrom seen ms).map TableMeta.path := by
  induction ms generalizing seen with
  | nil => cases hm
  | cons x ms ih =>
    unfold dedupeFrom
    by_cases hx : x.path ∈ seen
    · rw [if_pos hx]
      rcases List.mem_cons.mp hm with rfl | hm
      · exact absurd hx hseen
      · exact ih hm hseen
    · rw [if_neg hx, List.map_cons, List.mem_cons]
      by_cases heq : m.path = x.path
      · exact .inl heq
      · rcases List.mem_cons.mp hm with rfl | hm
        · exact absurd rfl heq
        · exact .inr (ih hm (by simp [heq, hseen]))

/-- A plan for a level takes every path of it. -/
theorem path_mem_planLevel {l : ℕ} {lvl : Level}
    (hlvl : levelByID (stateFromMetas s.snapshot) l = some lvl) (reason : String) {t : Table}
    (ht : t ∈ s.tables) (hl : t.level = l) :
    t.path ∈ (planLevel (stateFromMetas s.snapshot) lvl reason).inputs.map TableMeta.path := by
  obtain ⟨-, htables, -⟩ := levelByID_eq_some hlvl
  refine path_mem_dedupeFrom (m := t.metadata) (List.mem_append_left _ ?_) (by simp)
  rw [htables, ← map_atLevel_snapshot]
  exact List.mem_map_of_mem (mem_atLevel.mpr ⟨ht, hl⟩)

/-- An edit that removes a level and adds to the next. -/
theorem compacted_apply {e : Edit} {l : ℕ} (hadd : ∀ t ∈ e.add, t.level = l + 1)
    (hgone : ∀ t ∈ s.tables, t.level = l → t.path ∈ e.removePath)
    (hdue : (l = 0 ∧ TooManyFiles p s) ∨
      (¬ TooManyFiles p s ∧ 1 ≤ l ∧ ∀ i, 1 ≤ i → i ≤ l → ¬ Clear s i)) :
    Compacted p s (s.apply e).1 l := by
  have hperm : ((s.apply e).1.tables).Perm
      ((s.tables.filter fun t => t.path ∉ e.removePath) ++ e.add) :=
    List.perm_insertionSort TableLe _
  refine ⟨fun t ht => ?_, ?_, hdue⟩
  · rcases List.mem_append.mp (hperm.mem_iff.mp ht) with ht | ht
    · obtain ⟨hmem, hkept⟩ := List.mem_filter.mp ht
      exact .inl ⟨hmem, fun hl => absurd (hgone t hmem hl) (by simpa using hkept)⟩
    · exact .inr (hadd t ht)
  · have hnone : atLevel e.add 0 = [] := by
      rw [List.eq_nil_iff_forall_not_mem]
      intro t ht
      obtain ⟨hmem, hl⟩ := mem_atLevel.mp ht
      have := hadd t hmem
      omega
    calc (atLevel (s.apply e).1.tables 0).length
        = (atLevel ((s.tables.filter fun t => t.path ∉ e.removePath) ++ e.add) 0).length :=
          (hperm.filter _).length_eq
      _ = (atLevel (s.tables.filter fun t => t.path ∉ e.removePath) 0).length := by
          rw [atLevel, List.filter_append, ← atLevel, ← atLevel, hnone, List.append_nil]
      _ ≤ (atLevel s.tables 0).length :=
          (List.filter_sublist.filter _).length_le

/-- **A step that makes progress empties a level.** -/
theorem compacted_of_stepWith (h : stepWith p output s = .ok (true, s')) :
    ∃ l, Compacted p s s' l := by
  unfold stepWith at h
  cases hnext : p.next (stateFromMetas s.snapshot) with
  | none => simp [hnext] at h
  | some plan =>
    obtain ⟨l, lvl, reason, hlvl, rfl, hdue⟩ := next_eq_some hnext
    have hid := (levelByID_eq_some hlvl).1
    rw [filesDue_iff] at hdue
    cases hin : s.resolve (planLevel (stateFromMetas s.snapshot) lvl reason).inputs with
    | error e => simp [hnext, hin, bind, Except.bind] at h
    | ok inputs =>
      simp only [hnext, hin, bind, Except.bind, Except.ok.injEq, Prod.mk.injEq, true_and] at h
      have hne : (planLevel (stateFromMetas s.snapshot) lvl reason).inputs ≠ [] := by
        intro hnil
        have hclear : Clear s l := by
          intro t ht hl
          simpa [hnil] using path_mem_planLevel hlvl reason ht hl
        rw [levelByID_eq_none_iff_clear.mpr hclear] at hlvl
        cases hlvl
      rw [Plan.result, if_neg hne] at h
      subst h
      refine ⟨l, compacted_apply ?_ ?_ ?_⟩
      · intro t ht
        obtain ⟨o, -, rfl⟩ := List.mem_map.mp ht
        exact congrArg (· + 1) hid
      · exact fun t ht hl => path_mem_planLevel hlvl reason ht hl
      · refine hdue.imp_right fun ⟨hfiles, hl, hun⟩ => ⟨hfiles, hl, fun i hlow hhigh hclear => ?_⟩
        exact hun i hlow hhigh (levelByID_eq_none_iff_clear.mpr hclear)

/-! ## Runs -/

theorem not_tooManyFiles_of_length_le (h : ¬ TooManyFiles p s)
    (hle : (atLevel s'.tables 0).length ≤ (atLevel s.tables 0).length) :
    ¬ TooManyFiles p s' := by
  rintro ⟨hthr, hlen⟩
  exact h ⟨hthr, by omega⟩

theorem Compacted.clear {l : ℕ} (h : Compacted p s s' l) : Clear s' l := by
  intro t ht hl
  rcases h.tables t ht with ⟨-, hne⟩ | hsucc
  · exact hne hl
  · omega

/-- **The levels of the plans descend**: with level 0 not due and a level
missing, the loop ends within as many turns as that level's number. -/
theorem serviceRun_of_clear {l : ℕ} (hl : 1 ≤ l) (hfiles : ¬ TooManyFiles p s) (hclear : Clear s l)
    {outputs : List (List SSTable)} (hlen : l ≤ outputs.length) :
    (serviceRun p outputs s).isSome := by
  induction outputs generalizing s l with
  | nil =>
    rw [List.length_nil] at hlen
    omega
  | cons output outputs ih =>
    rw [List.length_cons] at hlen
    unfold serviceRun
    split
    · rfl
    · rfl
    · next s' hstep =>
      obtain ⟨k, hk⟩ := compacted_of_stepWith hstep
      rcases hk.due with ⟨-, hdue⟩ | ⟨-, hk1, hpresent⟩
      · exact absurd hdue hfiles
      · have hlt : k < l := by
          by_contra hge
          exact hpresent l hl (by omega) hclear
        exact ih hk1 (not_tooManyFiles_of_length_le hfiles hk.files) hk.clear (by omega)

/-- The highest level with a table. -/
def topLevel (s : TableSet) : ℕ := (s.tables.map Table.level).foldr max 0

theorem level_le_topLevel {t : Table} (ht : t ∈ s.tables) : t.level ≤ topLevel s := by
  have hle : ∀ ts : List Table, t ∈ ts → t.level ≤ (ts.map Table.level).foldr max 0 := by
    intro ts ht
    induction ts with
    | nil => cases ht
    | cons u ts ih =>
      rw [List.map_cons, List.foldr_cons]
      rcases List.mem_cons.mp ht with rfl | ht
      · exact Nat.le_max_left _ _
      · exact (ih ht).trans (Nat.le_max_right _ _)
  exact hle s.tables ht

/-- After a step for level 0 there is nothing left to do for it. -/
theorem not_tooManyFiles_of_clear (h : Clear s 0) : ¬ TooManyFiles p s := by
  rintro ⟨hthr, hlen⟩
  have hnil : atLevel s.tables 0 = [] := by
    rw [List.eq_nil_iff_forall_not_mem]
    exact fun t ht => h t (mem_atLevel.mp ht).1 (mem_atLevel.mp ht).2
  rw [hnil, List.length_nil] at hlen
  omega

/-- **Compaction comes to rest.** For every table set and every setting
of the planner, the loop of the service ends after a number of turns
that depends on the levels in use alone, whatever the runner writes. -/
theorem serviceRun_ends (p : StrictLevelledPlanner) (s : TableSet) :
    ∃ n, ∀ outputs : List (List SSTable), n ≤ outputs.length →
      (serviceRun p outputs s).isSome := by
  refine ⟨max (topLevel s) 1 + 2, fun outputs hlen => ?_⟩
  by_cases hfiles : TooManyFiles p s
  · cases outputs with
    | nil => simp at hlen
    | cons output outputs =>
      rw [List.length_cons] at hlen
      unfold serviceRun
      split
      · rfl
      · rfl
      · next s' hstep =>
        obtain ⟨k, hk⟩ := compacted_of_stepWith hstep
        rcases hk.due with ⟨rfl, -⟩ | ⟨hnot, -⟩
        · -- outputs of this step are at level 1, everything else was there
          have hclear : Clear s' (max (topLevel s) 1 + 1) := by
            intro t ht
            rcases hk.tables t ht with ⟨hmem, -⟩ | hone
            · have := level_le_topLevel hmem
              omega
            · omega
          exact serviceRun_of_clear (by omega) (not_tooManyFiles_of_clear hk.clear) hclear
            (by omega)
        · exact absurd hfiles hnot
  · have hclear : Clear s (max (topLevel s) 1 + 1) := by
      intro t ht
      have := level_le_topLevel ht
      omega
    exact serviceRun_of_clear (by omega) hfiles hclear (by omega)

end LSMEngine.Tables
