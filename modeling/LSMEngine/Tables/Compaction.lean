import LSMEngine.Tables.History
/-!
# Tables — what a compaction leaves visible

A compaction replaces its inputs by the newest version each key has in
them. If tombstones are kept, every key keeps its newest version
(`Replaced.held_or_dropped`) and every lookup its answer. If they are dropped, a
tombstone that hid an older version in a table outside the inputs is
gone and the older version is back; the runner does not ask whether
there is one. So a step of the coordinator leaves lookups alone exactly
if tombstones are kept or hide nothing outside its inputs
(`step_preserves_lookup_iff`).
-/

namespace LSMEngine.Tables

variable {ts ts' ins : List Table} {t u : Table} {out : List SSTable} {l : ℕ} {drop : Bool}
variable {k : Bytes} {v w : Entry} {p : StrictLevelledPlanner}

/-! ## Lookups and newest versions -/

/-- The tables as layers. -/
def layers (ts : List Table) : List (Layer Bytes Entry) := ts.map fun t => t.handle.get

theorem search_eq_firstHit (ts : List Table) (k : Bytes) : search ts k = firstHit (layers ts) k := by
  rw [search, firstHit, layers, List.findSome?_map]
  rfl

theorem isNewest_layers : IsNewest Entry.seq (layers ts) k v ↔
    (∃ t ∈ ts, t.handle.get k = some v) ∧
      ∀ t ∈ ts, ∀ w, t.handle.get k = some w → w.seq ≤ v.seq := by
  refine ⟨?_, ?_⟩
  · rintro ⟨⟨l, hl, hv⟩, hmax⟩
    obtain ⟨t, ht, rfl⟩ := List.mem_map.mp hl
    exact ⟨⟨t, ht, hv⟩, fun u hu w hw => hmax _ (List.mem_map_of_mem hu) w hw⟩
  · rintro ⟨⟨t, ht, hv⟩, hmax⟩
    refine ⟨⟨_, List.mem_map_of_mem ht, hv⟩, ?_⟩
    intro l hl w hw
    obtain ⟨u, hu, rfl⟩ := List.mem_map.mp hl
    exact hmax u hu w hw

/-- A newest version among some inputs is held by one of them. -/
theorem exists_input (hw : IsNewest Entry.seq ((ins.map Table.handle).map SSTable.get) k w) :
    ∃ i ∈ ins, i.handle.get k = some w := by
  obtain ⟨_, hl, hget⟩ := hw.held
  obtain ⟨_, hh, rfl⟩ := List.mem_map.mp hl
  obtain ⟨i, hi, rfl⟩ := List.mem_map.mp hh
  exact ⟨i, hi, hget⟩

section Ordered

variable (ho : ts.Pairwise VersionsAhead)
include ho

theorem recent_layers : Recent Entry.seq (layers ts) := by
  refine List.pairwise_map.mpr (ho.imp ?_)
  exact fun hahead k v w hv hw => le_of_lt (hahead k v w hv hw)

/-- Two tables never hold a key in versions of one sequence. -/
theorem eq_of_seq_eq (ht : t ∈ ts) (hu : u ∈ ts) (hv : t.handle.get k = some v)
    (hw : u.handle.get k = some w) (hseq : v.seq = w.seq) : v = w := by
  obtain ⟨i, hi, rfl⟩ := List.getElem_of_mem ht
  obtain ⟨j, hj, rfl⟩ := List.getElem_of_mem hu
  rw [List.pairwise_iff_getElem] at ho
  rcases lt_trichotomy i j with hij | rfl | hij
  · exact absurd hseq (ne_of_gt (ho i j hi hj hij k v w hv hw))
  · exact Option.some.inj (hv.symm.trans hw)
  · exact absurd hseq (ne_of_lt (ho j i hj hi hij k w v hw hv))

theorem rankDetermines_layers : RankDetermines Entry.seq (layers ts) k := by
  intro l hl l' hl' v w hv hw hseq
  obtain ⟨t, ht, rfl⟩ := List.mem_map.mp hl
  obtain ⟨u, hu, rfl⟩ := List.mem_map.mp hl'
  exact eq_of_seq_eq ho ht hu hv hw hseq

/-- **A lookup finds the newest version.** -/
theorem search_eq_some_iff : search ts k = some v ↔ IsNewest Entry.seq (layers ts) k v := by
  rw [search_eq_firstHit]
  exact firstHit_eq_some_iff (recent_layers ho) (rankDetermines_layers ho)

end Ordered

theorem search_eq_none_iff : search ts k = none ↔ ∀ t ∈ ts, t.handle.get k = none := by
  rw [search, List.findSome?_eq_none_iff]

/-! ## Replacing the inputs -/

/-- **A compaction, by the tables before and after it**: both are in
version order, and the inputs have made way for what a merge keeps of
them. -/
structure Replaced (drop : Bool) (ts ts' ins : List Table) (out : List SSTable) (l : ℕ) : Prop where
  levelled : Levelled ts
  chosen : Chosen ts ins l
  merged : Merged drop (ins.map Table.handle) out
  tables : ts'.Perm (without ts ins ++ out.map fun o => Table.of o (l + 1))
  before : ts.Pairwise VersionsAhead
  after : ts'.Pairwise VersionsAhead

namespace Replaced

section

variable (h : Replaced drop ts ts' ins out l)
include h

theorem mem_iff : t ∈ ts' ↔ (t ∈ ts ∧ t ∉ ins) ∨ ∃ o ∈ out, Table.of o (l + 1) = t := by
  rw [h.tables.mem_iff, List.mem_append, mem_without h.levelled h.chosen, List.mem_map]

/-- Every version there is after a compaction was there before. -/
theorem held_before (ht : t ∈ ts') (hv : t.handle.get k = some v) :
    ∃ u ∈ ts, u.handle.get k = some v := by
  rcases h.mem_iff.mp ht with ⟨ht, -⟩ | ⟨o, hmem, rfl⟩
  · exact ⟨t, ht, hv⟩
  · obtain ⟨i, hi, hget⟩ := exists_input (h.merged.newest o hmem k v hv)
    exact ⟨i, h.chosen.mem i hi, hget⟩

/-- A version that was newest is newest as long as it is held. -/
theorem isNewest (hv : IsNewest Entry.seq (layers ts) k v) (ht : t ∈ ts')
    (hget : t.handle.get k = some v) : IsNewest Entry.seq (layers ts') k v := by
  refine isNewest_layers.mpr ⟨⟨t, ht, hget⟩, ?_⟩
  intro u hu w hw
  obtain ⟨x, hx, hwx⟩ := h.held_before hu hw
  exact (isNewest_layers.mp hv).2 x hx w hwx

/-- The newest version among the inputs is the newest there is, if the
inputs hold the newest there is. -/
theorem eq_of_isNewest_inputs (hv : IsNewest Entry.seq (layers ts) k v) (ht : t ∈ ins)
    (hget : t.handle.get k = some v)
    (hw : IsNewest Entry.seq ((ins.map Table.handle).map SSTable.get) k w) : w = v := by
  obtain ⟨i, hi, hgetw⟩ := exists_input hw
  have hle := (isNewest_layers.mp hv).2 i (h.chosen.mem i hi) w hgetw
  have hge := hw.newest _ (List.mem_map_of_mem (List.mem_map_of_mem ht)) v hget
  exact eq_of_seq_eq h.before (h.chosen.mem i hi) (h.chosen.mem t ht) hgetw hget
    (le_antisymm hle hge)

/-- **A compaction keeps the newest version of a key, or drops it as a
tombstone.** -/
theorem held_or_dropped (hv : IsNewest Entry.seq (layers ts) k v) :
    (∃ t ∈ ts', t.handle.get k = some v) ∨
      (v.tombstone ∧ drop) ∧ ∃ t ∈ ins, t.handle.get k = some v := by
  obtain ⟨⟨t, ht, hget⟩, -⟩ := isNewest_layers.mp hv
  by_cases hin : t ∈ ins
  · obtain ⟨w, hw, hor⟩ := h.merged.kept k ⟨t.handle, List.mem_map_of_mem hin, by simp [hget]⟩
    obtain rfl := h.eq_of_isNewest_inputs hv hin hget hw
    refine hor.imp ?_ fun hdrop => ⟨hdrop, t, hin, hget⟩
    rintro ⟨o, hmem, hgeto⟩
    exact ⟨Table.of o (l + 1), h.mem_iff.mpr (.inr ⟨o, hmem, rfl⟩), hgeto⟩
  · exact .inl ⟨t, h.mem_iff.mpr (.inl ⟨ht, hin⟩), hget⟩

/-- A key that loses no tombstone is found as before. -/
theorem search_of_held
    (hkept : ∀ e t, search ts k = some e → t ∈ ins → t.handle.get k = some e →
      ¬ (e.tombstone ∧ drop)) : search ts' k = search ts k := by
  cases hs : search ts k with
  | none =>
    rw [search_eq_none_iff] at hs ⊢
    intro t ht
    by_contra hne
    obtain ⟨w, hw⟩ := Option.ne_none_iff_exists'.mp hne
    obtain ⟨u, hu, hwu⟩ := h.held_before ht hw
    rw [hs u hu] at hwu
    cases hwu
  | some v =>
    have hv := (search_eq_some_iff h.before).mp hs
    rcases h.held_or_dropped hv with ⟨t, ht, hget⟩ | ⟨hdrop, t, ht, hget⟩
    · exact (search_eq_some_iff h.after).mpr (h.isNewest hv ht hget)
    · exact absurd hdrop (hkept v t hs ht hget)

/-- The output has nothing under the key of a dropped tombstone: it would
be the tombstone. -/
theorem output_get_eq_none (hlive : ∀ o ∈ out, ∀ e ∈ o.entries, e.tombstone = false)
    (hv : IsNewest Entry.seq (layers ts) k v) (hdead : v.tombstone) (ht : t ∈ ins)
    (hget : t.handle.get k = some v) {o : SSTable} (hmem : o ∈ out) : o.get k = none := by
  by_contra hne
  obtain ⟨w, hw⟩ := Option.ne_none_iff_exists'.mp hne
  have heq := h.eq_of_isNewest_inputs hv ht hget (h.merged.newest o hmem k w hw)
  have := hlive o hmem w (mem_of_get hw).1
  rw [heq, hdead] at this
  cases this

/-- **Under a dropped tombstone, what is found is what the tables outside
the inputs have.** -/
theorem search_of_dropped (hlive : ∀ o ∈ out, ∀ e ∈ o.entries, e.tombstone = false)
    (hs : search ts k = some v) (hdead : v.tombstone) (ht : t ∈ ins)
    (hget : t.handle.get k = some v) : search ts' k = search (without ts ins) k := by
  have hv := (search_eq_some_iff h.before).mp hs
  have hwithout : (without ts ins).Pairwise VersionsAhead := h.before.sublist List.filter_sublist
  have hcases : ∀ x ∈ ts', x ∈ without ts ins ∨ x.handle.get k = none := by
    intro x hx
    refine (List.mem_append.mp (h.tables.mem_iff.mp hx)).imp_right fun hx => ?_
    obtain ⟨o, hmem, rfl⟩ := List.mem_map.mp hx
    exact h.output_get_eq_none hlive hv hdead ht hget hmem
  rw [search_eq_firstHit, search_eq_firstHit]
  refine firstHit_congr (recent_layers hwithout) (recent_layers h.after)
    (rankDetermines_layers h.after) ?_ ?_
  · intro w hw
    obtain ⟨⟨u, hu, hwu⟩, hmax⟩ := isNewest_layers.mp hw
    refine isNewest_layers.mpr ⟨⟨u, h.tables.mem_iff.mpr (List.mem_append_left _ hu), hwu⟩, ?_⟩
    intro x hx y hy
    rcases hcases x hx with hold | hnone
    · exact hmax x hold y hy
    · rw [hnone] at hy
      cases hy
  · intro hnone lay hlay
    obtain ⟨x, hx, rfl⟩ := List.mem_map.mp hlay
    rcases hcases x hx with hold | hx
    · exact hnone _ (List.mem_map_of_mem hold)
    · exact hx

end

end Replaced

/-! ## Whole histories -/

section Histories

variable {fileSize : List Entry → UInt64} {s s' : State} {a : Action} {as : List Action}

/-- What an action writes under a key. -/
def Action.writes : Action → Layer Bytes Entry
  | .flush _ es => found (sortEntries es)
  | _ => fun _ => none

/-- The map that the flushes of a history make, the later over the
earlier. -/
def flushed (as : List Action) : Layer Bytes Entry := firstHit (as.reverse.map Action.writes)

/-- The action drops no tombstone. -/
def Action.keeps : Action → Bool
  | .merge drop _ => !drop
  | _ => true

/-- Only which tables there are matters, as long as they are in version
order. -/
theorem search_perm (ho : ts.Pairwise VersionsAhead) (ho' : ts'.Pairwise VersionsAhead)
    (hp : ts'.Perm ts) (k : Bytes) : search ts' k = search ts k := by
  refine Option.ext fun v => ?_
  rw [search_eq_some_iff ho, search_eq_some_iff ho', isNewest_layers, isNewest_layers]
  simp only [hp.mem_iff]

/-- A flush hides what was there under its keys. -/
theorem search_flush (h : Inv false s) {now : ℕ} {es : List Entry}
    (hs : s.act fileSize (.flush now es) = some s') (k : Bytes) :
    search s'.set.tables k = ((Action.flush now es).writes k).or (search s.set.tables k) := by
  have h' := h.flush hs
  obtain ⟨-, hfresh, t, ht, rfl⟩ := flush_eq_some hs
  have hahead : (Table.of t 0 :: s.set.tables).Pairwise VersionsAhead := by
    refine .cons (fun u hu k v w hv hw => ?_) (h.levelled.versions_ordered h.sorted)
    exact hfresh u hu w (mem_of_get hw).1 v ((flush_ok ht).1.mem_iff.mp (mem_of_get hv).1)
  have hentries : t.entries = sortEntries es := by
    unfold flush at ht
    split at ht <;> cases ht
    rfl
  rw [search_perm hahead (h'.levelled.versions_ordered h'.sorted)
    ((install_tables s t).trans List.perm_append_comm), search_eq_firstHit, search_eq_firstHit,
    Action.writes, ← hentries, found_entries]
  exact firstHit_cons _ _ k

/-- A compaction that keeps tombstones is not seen. -/
theorem search_commit (h : Inv false s) (hs : s.commit = some s') (k : Bytes) :
    search s'.set.tables k = search s.set.tables k := by
  have h' := h.commit hs
  obtain ⟨r, hjob, rfl⟩ := commit_eq_some hs
  have hok := h.job
  rw [hjob] at hok
  obtain ⟨ins, l, hc, hob, hlevel, hm, -⟩ := hok
  have hreplaced : Replaced false s.set.tables (s.set.apply r.edit).1.tables ins r.output l :=
    ⟨h.levelled, hc, hm, edit_tables s.set hob hlevel, h.levelled.versions_ordered h.sorted,
      h'.levelled.versions_ordered h'.sorted⟩
  exact hreplaced.search_of_held fun _ _ _ _ _ hdrop => Bool.false_ne_true hdrop.2

/-- **One action does to lookups what it does to the map.** -/
theorem search_act (h : Inv false s) (hs : s.act fileSize a = some s') (k : Bytes) :
    search s'.set.tables k = (a.writes k).or (search s.set.tables k) := by
  cases a with
  | flush now es => exact search_flush h hs k
  | commit => exact search_commit h hs k
  | plan p =>
    obtain ⟨plan, -, -, rfl⟩ := plan_eq_some hs
    rfl
  | merge drop now =>
    obtain ⟨-, plan, -, rfl | ⟨handles, r, -, -, rfl⟩⟩ := merge_cases hs <;> rfl
  | abandon =>
    obtain rfl := Option.some.inj hs
    rfl

theorem search_acts (h : Inv false s) (hkeeps : ∀ a ∈ as, a.keeps)
    (hs : s.acts fileSize as = some s') (k : Bytes) :
    search s'.set.tables k = (flushed as k).or (search s.set.tables k) := by
  induction as generalizing s with
  | nil =>
    obtain rfl := Option.some.inj hs
    rfl
  | cons a as ih =>
    obtain ⟨s₁, h₁, hs⟩ := Option.bind_eq_some_iff.mp hs
    have hdrop : ∀ d now, a = .merge d now → d → false := by
      rintro d now rfl hd
      have := hkeeps _ List.mem_cons_self
      rw [Action.keeps, hd] at this
      exact this
    have hcons : flushed (a :: as) k = (flushed as k).or (a.writes k) := by
      simp [flushed, firstHit]
    rw [ih (h.act hdrop h₁) (fun b hb => hkeeps b (List.mem_cons_of_mem _ hb)) hs,
      search_act h h₁, hcons, Option.or_assoc]

/-- **The tables are the map of what was flushed.** -/
theorem search_history (hkeeps : ∀ a ∈ as, a.keeps) (hs : State.init.acts fileSize as = some s)
    (k : Bytes) : search s.set.tables k = flushed as k := by
  rw [search_acts (inv_init false) hkeeps hs]
  exact Option.or_none

/-- Two flushes around a compaction, and one after it. -/
theorem search_interleaved :
    search ((State.init.acts (fun _ => 0) interleaved).get interleaved_isSome).set.tables [1] =
      some ⟨[1], [], true, 3⟩ :=
  search_history (by decide) (Option.some_get interleaved_isSome).symm [1]

end Histories

/-! ## The coordinator's step -/

/-- The planner takes the table. -/
def Selected (p : StrictLevelledPlanner) (ts : List Table) (t : Table) : Prop :=
  ∃ plan, p.next (stateFromMetas (ts.map Table.metadata)) = some plan ∧ t.metadata ∈ plan.inputs

instance (p : StrictLevelledPlanner) (ts : List Table) (t : Table) : Decidable (Selected p ts t) :=
  match h : p.next (stateFromMetas (ts.map Table.metadata)) with
  | none => .isFalse fun ⟨_, hp, _⟩ => Option.some_ne_none _ (hp.symm.trans h)
  | some plan =>
    decidable_of_iff (t.metadata ∈ plan.inputs)
      ⟨fun hm => ⟨plan, h, hm⟩, fun ⟨_, hp, hm⟩ => Option.some.inj (h.symm.trans hp) ▸ hm⟩

/-- **The tombstones that are found first in the tables taken hide
nothing in the tables left.** -/
def HidesNothing (p : StrictLevelledPlanner) (ts : List Table) : Prop :=
  ∀ k e t, search ts k = some e → e.tombstone → t ∈ ts → Selected p ts t →
    t.handle.get k = some e → lookup (ts.filter fun t => ¬ Selected p ts t) k = none

theorem selected_iff (h : Levelled ts) (hc : Chosen ts ins l) {plan : Plan}
    (hnext : p.next (stateFromMetas (ts.map Table.metadata)) = some plan)
    (hin : plan.inputs = ins.map Table.metadata) (ht : t ∈ ts) : Selected p ts t ↔ t ∈ ins := by
  refine ⟨?_, fun hmem => ⟨plan, hnext, hin ▸ List.mem_map_of_mem hmem⟩⟩
  rintro ⟨plan', hnext', hmem⟩
  obtain rfl := Option.some.inj (hnext.symm.trans hnext')
  rw [hin] at hmem
  obtain ⟨i, hi, hmeta⟩ := List.mem_map.mp hmem
  rwa [← h.eq_of_path (hc.mem i hi) ht (congrArg TableMeta.path hmeta)]

theorem filter_selected (h : Levelled ts) (hc : Chosen ts ins l) {plan : Plan}
    (hnext : p.next (stateFromMetas (ts.map Table.metadata)) = some plan)
    (hin : plan.inputs = ins.map Table.metadata) :
    (ts.filter fun t => ¬ Selected p ts t) = without ts ins := by
  refine List.filter_congr fun t ht => ?_
  rw [decide_eq_decide, selected_iff h hc hnext hin ht]
  have := mem_without (t := t) h hc
  simp only [without, List.mem_filter, decide_eq_true_eq] at this
  tauto

/-- **What a step that compacts does.** It is planning, merging and
committing in a row. -/
theorem replaced_of_step {fileSize : List Entry → UInt64} {s : State} {now : ℕ} {b : Bool}
    {set' : TableSet} {plan : Plan} (hinv : Inv true s) (hnow : s.clock < now)
    (hnext : p.next (stateFromMetas s.set.snapshot) = some plan)
    (hstep : step fileSize p drop now s.set = .ok (b, set')) :
    ∃ ins out l, Replaced drop s.set.tables set'.tables ins out l ∧
      plan.inputs = ins.map Table.metadata ∧
      (drop → ∀ o ∈ out, ∀ e ∈ o.entries, e.tombstone = false) := by
  have hlev := hinv.levelled
  obtain ⟨ins, l, hc, hin, hlevel⟩ := chosen_of_next hlev hnext
  simp only [step, hnext] at hstep
  rw [hin, resolve_of_mem hlev hc.mem] at hstep
  cases hr : run fileSize drop now plan (ins.map Table.handle) with
  | error e =>
    simp only [hr, bind, Except.bind] at hstep
    cases hstep
  | ok r =>
    simp only [hr, bind, Except.bind] at hstep
    obtain ⟨-, rfl⟩ := Prod.mk.inj (Except.ok.inj hstep)
    have hne : plan.inputs ≠ [] := by
      rw [hin]
      exact fun hnil => hc.nonempty (List.map_eq_nil_iff.mp hnil)
    obtain ⟨hob, hout, hm, hlive⟩ := run_ok hne hr
    have hplanned : Inv true { s with job := .planned plan } :=
      ⟨hinv.sorted, hlev, hinv.named, ins, l, hc, hin, hlevel⟩
    have hmerge : State.merge fileSize drop now { s with job := .planned plan } =
        some { s with job := .ran r, clock := now } := by
      simp only [State.merge, if_pos hnow]
      rw [hin, resolve_of_mem hlev hc.mem]
      simp only [bind, Except.bind, hr]
    have hdone : Inv true { s with set := (s.set.apply r.edit).1, job := .idle, clock := now } :=
      (hplanned.merge (fun _ => rfl) hmerge).commit rfl
    exact ⟨ins, r.output, l, ⟨hlev, hc, hm, edit_tables s.set (hob.trans hin) (hout.trans hlevel),
      hlev.versions_ordered hinv.sorted, hdone.levelled.versions_ordered hdone.sorted⟩, hin, hlive⟩

/-- **A compaction preserves what is visible exactly if tombstones are
kept or hide nothing.** On every table set a history leads to, a step of
the coordinator leaves every lookup unchanged if and only if tombstones
are kept, or no tombstone it takes hides a value in a table it leaves. -/
theorem step_preserves_lookup_iff {fileSize : List Entry → UInt64} {s : State}
    {p : StrictLevelledPlanner} {now : ℕ} {b : Bool} {set' : TableSet}
    (h : s.Reachable fileSize) (hnow : s.clock < now)
    (hstep : step fileSize p drop now s.set = .ok (b, set')) :
    (∀ k, lookup set'.tables k = lookup s.set.tables k) ↔
      (drop = false ∨ HidesNothing p s.set.tables) := by
  have hinv := inv_of_reachable h
  cases hnext : p.next (stateFromMetas s.set.snapshot) with
  | none =>
    simp only [step, hnext] at hstep
    obtain ⟨-, rfl⟩ := Prod.mk.inj (Except.ok.inj hstep)
    refine iff_of_true (fun _ => rfl) (.inr ?_)
    rintro k e t - - - ⟨plan, hplan, -⟩
    cases (show none = some plan from hnext.symm.trans hplan)
  | some plan =>
    obtain ⟨ins, out, l, hrep, hin, hlive⟩ := replaced_of_step hinv hnow hnext hstep
    have hmem := hrep.chosen.mem
    have hsel := fun t (ht : t ∈ s.set.tables) =>
      selected_iff hrep.levelled hrep.chosen hnext hin ht
    have hleft := filter_selected hrep.levelled hrep.chosen hnext hin
    -- a key whose tombstone is dropped is found in the tables left, any other as before
    have hdropped : drop → ∀ k e t, search s.set.tables k = some e → e.tombstone → t ∈ ins →
        t.handle.get k = some e → lookup set'.tables k =
          lookup (s.set.tables.filter fun t => ¬ Selected p s.set.tables t) k := by
      intro hd k e t hs he ht hget
      rw [hleft, lookup, lookup, hrep.search_of_dropped (hlive hd) hs he ht hget]
    have hgone : ∀ k e, search s.set.tables k = some e → e.tombstone →
        lookup s.set.tables k = none := by
      intro k e hs he
      rw [lookup, hs]
      exact if_pos he
    refine ⟨fun hsame => ?_, fun hcond k => ?_⟩
    · by_cases hd : drop = false
      · exact .inl hd
      · refine .inr fun k e t hs he ht hst hget => ?_
        rw [← hdropped (by simpa using hd) k e t hs he ((hsel t ht).mp hst) hget, hsame k]
        exact hgone k e hs he
    · by_cases hlost : ∃ e t, search s.set.tables k = some e ∧ t ∈ ins ∧
          t.handle.get k = some e ∧ e.tombstone ∧ drop
      · obtain ⟨e, t, hs, ht, hget, he, hd⟩ := hlost
        rw [hdropped hd k e t hs he ht hget, hgone k e hs he]
        exact hcond.resolve_left (by simp [hd]) k e t hs he (hmem t ht)
          ((hsel t (hmem t ht)).mpr ht) hget
      · rw [lookup, lookup, hrep.search_of_held]
        exact fun e t hs ht hget hd => hlost ⟨e, t, hs, ht, hget, hd⟩

/-! ## A value that comes back -/

/-- A planner that compacts a level as soon as it holds a table. -/
def eager : StrictLevelledPlanner := ⟨1, 1, 10⟩

/-- A value is flushed and compacted down to level 2, and its key is
deleted. -/
def deepValue : List Action :=
  [.flush 1 [⟨[1], [7], false, 1⟩], .plan eager, .merge true 2, .commit,
    .plan eager, .merge true 3, .commit, .flush 4 [⟨[1], [], true, 2⟩]]

theorem deepValue_isSome : (State.init.acts (fun _ => 2) deepValue).isSome := by decide +kernel

/-- The state this leads to. -/
def deleted : State := (State.init.acts (fun _ => 2) deepValue).get deepValue_isSome

theorem deleted_reachable : deleted.Reachable fun _ => 2 :=
  ⟨deepValue, (Option.some_get deepValue_isSome).symm⟩

/-- The answer of a lookup after a step. -/
def stepLookup (drop : Bool) (k : Bytes) : Option (Bool × Option Bytes) :=
  (step (fun _ => 2) eager drop 5 deleted.set).toOption.map fun r => (r.1, lookup r.2.tables k)

theorem exists_step_of_stepLookup {k : Bytes} {b : Bool} {x : Option Bytes}
    (h : stepLookup drop k = some (b, x)) :
    ∃ set', step (fun _ => 2) eager drop 5 deleted.set = .ok (b, set') ∧
      lookup set'.tables k = x := by
  unfold stepLookup at h
  cases hs : step (fun _ => 2) eager drop 5 deleted.set with
  | error e =>
    rw [hs] at h
    cases h
  | ok r =>
    rw [hs] at h
    obtain ⟨hb, hx⟩ := Prod.mk.inj (Option.some.inj h)
    exact ⟨r.2, by rw [← hb], hx⟩

/-- With the tombstone kept, no lookup changes. -/
theorem kept_tombstone_preserves :
    ∃ set', step (fun _ => 2) eager false 5 deleted.set = .ok (true, set') ∧
      ∀ k, lookup set'.tables k = lookup deleted.set.tables k := by
  obtain ⟨set', hstep, -⟩ := exists_step_of_stepLookup
    (show stepLookup false [1] = some (true, none) by decide +kernel)
  exact ⟨set', hstep, (step_preserves_lookup_iff deleted_reachable (by decide +kernel) hstep).mpr
    (.inl rfl)⟩

/-- **A dropped tombstone brings the value back.** -/
theorem dropped_tombstone_uncovers :
    ¬ ∀ (fileSize : List Entry → UInt64) (s : State) (p : StrictLevelledPlanner) (drop : Bool)
      (now : ℕ) (set' : TableSet), s.Reachable fileSize → s.clock < now →
      step fileSize p drop now s.set = .ok (true, set') →
      ∀ k, lookup set'.tables k = lookup s.set.tables k := by
  intro h
  obtain ⟨set', hstep, hlookup⟩ := exists_step_of_stepLookup
    (show stepLookup true [1] = some (true, some [7]) by decide +kernel)
  have hsame := h _ deleted eager true 5 set' deleted_reachable (by decide +kernel) hstep [1]
  rw [hlookup] at hsame
  exact absurd hsame (by decide +kernel)

/-! ## Levels -/

/-- **The levels stay apart.** In every state of a history a deeper level
has only older sequences, and two tables of a level beyond the first
share no key. -/
theorem levels_apart {fileSize : List Entry → UInt64} {s : State} (h : s.Reachable fileSize)
    (ht : t ∈ s.set.tables) (hu : u ∈ s.set.tables) :
    (t.level < u.level → Newer t u) ∧ (t.level = u.level → 0 < t.level → t ≠ u → KeysApart t u) :=
  have hlevelled := (inv_of_reachable h).levelled
  ⟨hlevelled.deeper t ht u hu, hlevelled.apart t ht u hu⟩

theorem levels_apart_deleted :
    ∃ t ∈ deleted.set.tables, ∃ u ∈ deleted.set.tables, t.level < u.level ∧ Newer t u := by
  obtain ⟨t, ht, u, hu, hlt⟩ : ∃ t ∈ deleted.set.tables, ∃ u ∈ deleted.set.tables,
      t.level < u.level := by decide +kernel
  exact ⟨t, ht, u, hu, hlt, (levels_apart deleted_reachable ht hu).1 hlt⟩

end LSMEngine.Tables
