import LSMEngine.Tables.Edits
/-!
# Tables — what is removed from disk

A file is removed in two places: by the call of `Apply` that removes the
table, after the manifest is stored, and by the caller whose `Unpin` hands
the table out. The second does not wait for the manifest: a table that
left the set while it was pinned is handed out as soon as its last pin is
released, stored or not. Where the removal of what is handed out is stored
(`Committed`), every table the manifest lists is on disk, in every state
(`listed_on_disk`).
-/

namespace LSMEngine.Tables

namespace Store

variable {s s' s₀ : Store} {a : Event} {c : Call} {i j : ℕ} {p : String}

/-- The set is edited, and the manifest is not: it is still to be stored,
or could not be. -/
def isUnsettled : Phase → Bool
  | .applied _ => true
  | .failed => true
  | _ => false

theorem isStored_of_isApplied {phase : Phase} (h : isApplied phase) (hset : ¬ isUnsettled phase) :
    isStored phase := by
  cases phase with
  | planned => exact h
  | applied removed => exact absurd rfl hset
  | stored cleanup => rfl
  | failed => exact absurd rfl hset

/-- The tables a caller holds. -/
def heldTables : Hold → List Table
  | .holding tables => tables
  | .released _ => []

/-- The condition on a step: no manifest is stored out of order, and no
table is let go for the last time while a removal of it is unsettled. -/
def Committed (s : Store) : Event → Prop
  | .unpin j => ∀ h ∈ s.holds[j]?, ∀ t ∈ s.set.pending,
      s.set.pinned t.path ≤ ((heldTables h).map Table.path).count t.path →
        ∀ c ∈ s.calls, t.path ∈ c.edit.removePath → ¬ isUnsettled c.phase
  | a => s.Ordered a

instance (s : Store) (a : Event) : Decidable (s.Committed a) :=
  match a with
  | .unpin _ => inferInstanceAs (Decidable (∀ _, _))
  | .store i ok => inferInstanceAs (Decidable (s.Ordered (.store i ok)))
  | .plan .. | .apply _ | .clean _ | .pin | .cleanHold _ => inferInstanceAs (Decidable True)

theorem Committed.ordered (h : s.Committed a) : s.Ordered a := by
  cases a with
  | unpin j => trivial
  | _ => exact h

/-- **What is cleaned up, or waits for it, is struck out.** -/
structure Struck (s : Store) : Prop where
  pending : ∀ t ∈ s.set.pending, Strikes isApplied s.calls t.path
  applied : ∀ c ∈ s.calls, ∀ removed, c.phase = .applied removed →
    ∀ t ∈ removed, t.path ∈ c.edit.removePath
  calls : ∀ c ∈ s.calls, ∀ k, c.phase = .stored k → ∀ p ∈ cleanupPaths k, Strikes isStored s.calls p
  holds : ∀ k, .released k ∈ s.holds → ∀ p ∈ cleanupPaths k, Strikes isStored s.calls p
  files : ∀ p ∈ s.used, p ∈ s.files ∨ Strikes isStored s.calls p

/-- What a caller is handed is pending, and let go for the last time. -/
theorem mem_unpin_last {set : TableSet} {paths : List String} {t : Table}
    (h : t ∈ (set.unpin paths).2) : t ∈ set.pending ∧ set.pinned t.path ≤ paths.count t.path := by
  obtain ⟨hmem, hzero⟩ := mem_unpin h
  rw [unpin_pinned] at hzero
  exact ⟨hmem, by omega⟩

/-- Planning an edit: its tables are on disk. -/
theorem Struck.plan {e : Edit} {walSeq : UInt64} (h : s.Struck) :
    Struck { s with
      calls := s.calls ++ [⟨e, walSeq, .planned⟩]
      files := s.files ++ e.add.map Table.path
      used := s.used ++ e.add.map Table.path } := by
  refine ⟨fun t ht => (strikes_plan rfl).mpr (h.pending t ht), ?_, ?_,
    fun k hk p hp => (strikes_plan rfl).mpr (h.holds k hk p hp), fun p hp => ?_⟩
  · intro x hx removed hphase
    rcases List.mem_append.mp hx with hx | hx
    · exact h.applied x hx removed hphase
    · obtain rfl := List.mem_singleton.mp hx
      cases hphase
  · intro x hx k hphase p hp
    rcases List.mem_append.mp hx with hx | hx
    · exact (strikes_plan rfl).mpr (h.calls x hx k hphase p hp)
    · obtain rfl := List.mem_singleton.mp hx
      cases hphase
  · rcases List.mem_append.mp hp with hp | hp
    · exact (h.files p hp).imp (List.mem_append_left _) (strikes_plan rfl).mpr
    · exact .inl (List.mem_append_right _ hp)

/-- Going on to a phase that counts no less, where what is to be cleaned
up is struck out. -/
theorem Struck.goOn {phase : Phase} (h : s.Struck) (hc : s.calls[i]? = some c)
    (happlied : isApplied c.phase → isApplied phase) (hstored : isStored c.phase → isStored phase)
    (hremoved : ∀ removed, phase = .applied removed → ∀ t ∈ removed, t.path ∈ c.edit.removePath)
    (hclean : ∀ k, phase = .stored k → ∀ p ∈ cleanupPaths k,
      Strikes isStored (s.goOn i c phase).calls p) : (s.goOn i c phase).Struck := by
  have hmono : ∀ (f : Phase → Bool), (f c.phase → f phase) → ∀ p, Strikes f s.calls p →
      Strikes f (s.goOn i c phase).calls p := by
    intro f hf p hp
    refine (exists_mem_set hc _ _).mpr (((exists_mem_of_getElem hc _).mp hp).imp_left ?_)
    exact fun hp => ⟨hf hp.1, hp.2⟩
  refine ⟨fun t ht => hmono _ happlied _ (h.pending t ht), ?_, ?_,
    fun k hk p hp => hmono _ hstored _ (h.holds k hk p hp),
    fun p hp => (h.files p hp).imp_right (hmono _ hstored p)⟩
  · intro x hx removed hphase
    rcases List.mem_or_eq_of_mem_set hx with hx | rfl
    · exact h.applied x hx removed hphase
    · exact hremoved removed hphase
  · intro x hx k hphase p hp
    rcases List.mem_or_eq_of_mem_set hx with hx | rfl
    · exact hmono _ hstored _ (h.calls x hx k hphase p hp)
    · exact hclean k hphase p hp

/-- A step of a cleanup of what is struck out. -/
theorem Struck.clean {k k' : Cleanup} {s₁ : Store} (h : s.Struck)
    (hk : s.clean k = some (s₁, k')) (hstruck : ∀ p ∈ cleanupPaths k, Strikes isStored s.calls p) :
    s₁.Struck ∧ s₁.calls = s.calls ∧ s₁.holds = s.holds ∧
      ∀ p ∈ cleanupPaths k', Strikes isStored s.calls p := by
  obtain ⟨⟨closed, files, rfl, -, hfiles⟩, hpaths⟩ := clean_spec hk
  refine ⟨⟨h.pending, h.applied, h.calls, h.holds, fun p hp => ?_⟩, rfl, rfl,
    fun p hp => hstruck p (hpaths p hp)⟩
  rcases h.files p hp with hp | hp
  · exact (hfiles p hp).imp_right (hstruck p)
  · exact .inr hp

/-- Letting tables go: what is handed out is struck out of the manifest. -/
theorem Struck.unpin {tables : List Table} (h : s.Struck)
    (hj : s.holds[j]? = some (.holding tables)) (hcom : s.Committed (.unpin j)) :
    Struck { s with
      set := (s.set.unpin (tables.map Table.path)).1
      holds := s.holds.set j
        (.released (.closing (s.set.unpin (tables.map Table.path)).2
          (s.set.unpin (tables.map Table.path)).2)) } := by
  have hready : ∀ t ∈ (s.set.unpin (tables.map Table.path)).2, Strikes isStored s.calls t.path := by
    intro t ht
    obtain ⟨hpending, hlast⟩ := mem_unpin_last ht
    obtain ⟨c, hc, happlied, hpath⟩ := h.pending t hpending
    have hset := hcom _ hj t hpending hlast c hc hpath
    exact ⟨c, hc, isStored_of_isApplied happlied hset, hpath⟩
  refine ⟨fun t ht => h.pending t (unpin_pending ht), h.applied, h.calls, ?_, h.files⟩
  intro k hk p hp
  rcases List.mem_or_eq_of_mem_set hk with hk | hk
  · exact h.holds k hk p hp
  · obtain rfl := Hold.released.inj hk
    obtain ⟨t, ht, rfl⟩ := List.mem_map.mp hp
    exact hready t ((List.mem_append.mp ht).elim id id)

/-- **Every committed step keeps it.** -/
theorem Struck.step (h : s.Struck) (hs : s.Step a s') (hcom : s.Committed a) : s'.Struck := by
  cases hs with
  | plan hsound => exact h.plan
  | @apply i c hc hphase =>
    have hgo : Struck (s.goOn i c (.applied (s.set.apply c.edit).2)) := by
      refine h.goOn hc (fun _ => rfl) (fun hst => ?_) ?_ nofun
      · rw [hphase] at hst
        cases hst
      · intro removed heq t ht
        obtain rfl := Phase.applied.inj heq
        exact (mem_apply_removed ht).2.1
    refine ⟨fun t ht => ?_, hgo.applied, hgo.calls, hgo.holds, hgo.files⟩
    -- pending before the edit, or struck by it
    rcases mem_apply_pending ht with ht | ⟨-, ht⟩
    · exact hgo.pending t ht
    · exact (strikes_set_new hc rfl (by rw [hphase]; rfl)).mpr (.inl ht)
  | @store i c removed hc hphase =>
    have hgo : Struck (s.goOn i c (.stored (.closing removed removed))) := by
      refine h.goOn hc (fun _ => rfl) (fun _ => rfl) nofun ?_
      intro k heq p hp
      obtain rfl := Phase.stored.inj heq
      obtain ⟨t, ht, rfl⟩ := List.mem_map.mp hp
      have ht := h.applied c (List.mem_of_getElem? hc) removed hphase t
        ((List.mem_append.mp ht).elim id id)
      exact (strikes_set_new hc rfl (by rw [hphase]; rfl)).mpr (.inl ht)
    exact ⟨hgo.pending, hgo.applied, hgo.calls, hgo.holds, hgo.files⟩
  | fail hc hphase =>
    refine h.goOn hc (fun _ => rfl) (fun hst => ?_) nofun nofun
    rw [hphase] at hst
    cases hst
  | @clean i c k k' s₁ hc hphase hk =>
    -- a cleanup changes no call, so what is struck stays struck
    obtain ⟨hs₁, hcalls, -, hpaths⟩ := h.clean hk (h.calls c (List.mem_of_getElem? hc) k hphase)
    refine hs₁.goOn (hcalls ▸ hc) (fun _ => rfl) (fun _ => rfl) nofun ?_
    intro k'' heq p hp
    obtain rfl := Phase.stored.inj heq
    refine (strikes_set_same (hcalls ▸ hc) (by rw [hphase]; rfl)).mpr ?_
    rw [hcalls]
    exact hpaths p hp
  | pin =>
    refine ⟨h.pending, h.applied, h.calls, fun k hk => h.holds k ?_, h.files⟩
    exact (List.mem_append.mp hk).resolve_right fun hk => by cases List.mem_singleton.mp hk
  | unpin hj => exact h.unpin hj hcom
  | @cleanHold j k k' s₁ hj hk =>
    obtain ⟨hs₁, hcalls, -, hpaths⟩ := h.clean hk (h.holds k (List.mem_of_getElem? hj))
    refine ⟨hs₁.pending, hs₁.applied, hs₁.calls, fun k'' hk'' => ?_, hs₁.files⟩
    rcases List.mem_or_eq_of_mem_set hk'' with hk'' | hk''
    · exact hs₁.holds k'' hk''
    · obtain rfl := Hold.released.inj hk''
      intro p hp
      change Strikes isStored s₁.calls p
      rw [hcalls]
      exact hpaths p hp

/-! ## Every listed table is on disk -/

/-- A store with nothing under way: no call, no pin, and every table the
manifest lists on disk. -/
structure AtRest (s : Store) : Prop where
  calls : s.calls = []
  holds : s.holds = []
  pending : s.set.pending = []
  files : s.files = s.used
  tables : ∀ t ∈ s.set.tables, t.path ∈ s.used
  listed : ∀ m ∈ s.manifest.tables, m.path ∈ s.files

theorem AtRest.ledger (h : s.AtRest) : s.Ledger := by
  refine ⟨fun t ht => ?_, ?_, ?_, ?_, ?_, fun m hm => ⟨h.files ▸ h.listed m hm, ?_⟩⟩
  · rw [h.pending, List.append_nil] at ht
    exact h.tables t ht
  all_goals
    simp [h.calls, Strikes]

theorem AtRest.struck (h : s.AtRest) : s.Struck := by
  refine ⟨?_, ?_, ?_, ?_, fun p hp => .inl (h.files ▸ hp)⟩
  all_goals
    simp [h.calls, h.holds, h.pending]

theorem atRest_new (tables : List Table) (walSeq : UInt64) : (new tables walSeq).AtRest := by
  have hmem : ∀ t ∈ (TableSet.new tables).tables, t.path ∈ tables.map Table.path := fun t ht =>
    List.mem_map_of_mem ((List.mem_insertionSort TableLe).mp ht)
  refine ⟨rfl, rfl, rfl, rfl, hmem, fun m hm => ?_⟩
  obtain ⟨t, ht, rfl⟩ := List.mem_map.mp hm
  exact hmem t ht

/-- **Where what is let go is committed, every table the manifest lists is
on disk**, in every state of every run. -/
theorem listed_on_disk {as : List Event} (hrest : s₀.AtRest) (hcom : Along act Committed s₀ as)
    (hrun : runs act s₀ as = some s) : ∀ m ∈ s.manifest.tables, m.path ∈ s.files := by
  have hinv : s.Ledger ∧ s.Struck := by
    refine runs_induction (P := fun s => s.Ledger ∧ s.Struck) (fun s a s' h ha hact => ?_)
      ⟨hrest.ledger, hrest.struck⟩ hrun hcom
    have hs := step_of_act hact
    exact ⟨h.1.step hs ha.ordered, h.2.step hs ha⟩
  intro m hm
  obtain ⟨hused, hnot⟩ := hinv.1.listed m hm
  exact (hinv.2.files m.path hused).resolve_right hnot

/-- A pinned table is replaced, and let go once the manifest is stored. -/
def letGoAfter : List Event :=
  [.pin, .plan ⟨[flushed], ["a"]⟩ 0, .apply 0, .store 0 true, .unpin 0,
    .cleanHold 0, .cleanHold 0, .cleanHold 0]

theorem letGoAfter_isSome : (runs act (new [first] 1) letGoAfter).isSome := by decide +kernel

theorem listed_on_disk_letGoAfter :
    let s := (runs act (new [first] 1) letGoAfter).get letGoAfter_isSome
    (∀ m ∈ s.manifest.tables, m.path ∈ s.files) ∧ s.manifest.tables = [flushed.metadata] ∧
      first.path ∉ s.files := by
  have hcom : Along act Committed (new [first] 1) letGoAfter := along_of_check (by decide +kernel)
  exact ⟨listed_on_disk (atRest_new [first] 1) hcom (Option.some_get letGoAfter_isSome).symm,
    by decide +kernel⟩

/-- The same, but the table is let go between the edit of the set and that
of the manifest. -/
def letGoBefore : List Event :=
  [.pin, .plan ⟨[flushed], ["a"]⟩ 0, .apply 0, .unpin 0, .cleanHold 0, .cleanHold 0, .cleanHold 0]

theorem letGoBefore_isSome : (runs act (new [first] 1) letGoBefore).isSome := by decide +kernel

/-- **The manifest lists a table whose file is gone.** -/
theorem unpinned_before_stored :
    ∃ s, runs act (new [first] 1) letGoBefore = some s ∧
      ∃ m ∈ s.manifest.tables, m.path ∉ s.files := by
  refine ⟨_, (Option.some_get letGoBefore_isSome).symm, ?_⟩
  decide +kernel

end Store

end LSMEngine.Tables
