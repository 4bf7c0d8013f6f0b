import LSMEngine.Tables.Model.Compaction
import LSMEngine.Tables.SSTable
import Mathlib.Data.List.Nodup
/-!
# Tables — what a merge keeps

A compaction keeps, under each key its inputs have, the newest version
among them, unless that version is a tombstone and tombstones are
dropped (`Merged`). This is the one fact about the merge the rest relies
on; it is read off the groups of the k-way merge.
-/

namespace LSMEngine.Tables

variable {its : List (List Entry)} {drop : Bool} {e : Entry} {k : Bytes}

/-- What a run of entries has under a key. -/
def found (es : List Entry) : Layer Bytes Entry := fun k => es.find? fun e => e.key = k

theorem found_entries (t : SSTable) : found t.entries = t.get :=
  funext fun k => (get_eq_find t k).symm

instance mergeLe_total : Std.Total mergeLe :=
  ⟨fun c d => (entryLe_total).total c.head d.head⟩

instance mergeLe_trans : IsTrans (Cursor Entry) mergeLe :=
  ⟨fun c d e => entryLe_trans.trans c.head d.head e.head⟩

/-- A version goes before another of its key: it is newer, or as new and a
tombstone if the other is. -/
def Beats (e f : Entry) : Prop :=
  f.seq < e.seq ∨ (f.seq = e.seq ∧ (f.tombstone = true → e.tombstone = true))

theorem Beats.refl (e : Entry) : Beats e e := .inr ⟨rfl, id⟩

theorem Beats.trans {d e f : Entry} (hde : Beats d e) (hef : Beats e f) : Beats d f := by
  rcases hde with hde | ⟨hde, htde⟩
  · rcases hef with hef | ⟨hef, -⟩
    · exact .inl (hef.trans hde)
    · exact .inl (hef ▸ hde)
  · rcases hef with hef | ⟨hef, htef⟩
    · exact .inl (hde ▸ hef)
    · exact .inr ⟨hef.trans hde, htde ∘ htef⟩

theorem Beats.seq_le {e f : Entry} (h : Beats e f) : f.seq ≤ e.seq := by
  rcases h with h | ⟨h, -⟩
  · exact le_of_lt h
  · exact le_of_eq h

/-- Within a key, what comes first in a table goes before the rest. -/
theorem beats_of_entryLe {e f : Entry} (h : EntryLe e f) (hk : f.key = e.key) : Beats e f := by
  simp only [EntryLe, entryLess, hk, ne_eq, not_true_eq_false, if_false] at h
  by_cases hs : f.seq = e.seq
  · refine .inr ⟨hs, fun hf => ?_⟩
    by_contra he
    simp [hs, hf, he] at h
  · simp only [hs, not_false_eq_true, if_true, decide_eq_true_eq, not_lt] at h
    exact .inl (lt_of_le_of_ne h hs)

theorem bestOf_spec (a : Entry) (es : List Entry) :
    bestOf a es ∈ a :: es ∧ ∀ x ∈ a :: es, Beats (bestOf a es) x := by
  induction es generalizing a with
  | nil => simp [bestOf, Beats.refl]
  | cons b es ih =>
    -- the better of the first two goes on, and beats both
    obtain ⟨c, hstep, hc, ha, hb⟩ : ∃ c, bestOf a (b :: es) = bestOf c es ∧ (c = a ∨ c = b) ∧
        Beats c a ∧ Beats c b := by
      simp only [bestOf, List.foldl_cons]
      split
      · next h => exact ⟨b, rfl, .inr rfl, .inl h, .refl b⟩
      · next h =>
        split
        · next h' => exact ⟨b, rfl, .inr rfl, .inr ⟨h'.1.symm, fun _ => h'.2.1⟩, .refl b⟩
        · next h' =>
          refine ⟨a, rfl, .inl rfl, .refl a, ?_⟩
          rcases lt_or_eq_of_le (not_lt.mp h) with hlt | heq
          · exact .inl hlt
          · refine .inr ⟨heq, fun hb => ?_⟩
            by_contra hat
            exact h' ⟨heq, hb, hat⟩
    obtain ⟨hmem, hmax⟩ := ih c
    rw [hstep]
    refine ⟨?_, ?_⟩
    · rcases List.mem_cons.mp hmem with h | h
      · rcases hc with rfl | rfl <;> simp [h]
      · simp [h]
    · have hcmax := hmax c List.mem_cons_self
      intro x hx
      rcases List.mem_cons.mp hx with rfl | hx
      · exact hcmax.trans ha
      · rcases List.mem_cons.mp hx with rfl | hx
        · exact hcmax.trans hb
        · exact hmax x (List.mem_cons_of_mem c hx)

/-- The entry kept is one of the group's. -/
theorem exists_head_eq_bestOf (c : Cursor Entry) (g : List (Cursor Entry)) :
    ∃ d ∈ c :: g, d.head = bestOf c.head (g.map Cursor.head) := by
  have hmem := (bestOf_spec c.head (g.map Cursor.head)).1
  rw [← List.map_cons] at hmem
  exact List.mem_map.mp hmem

theorem isNewest_bestOf {c : Cursor Entry} {g : List (Cursor Entry)}
    (hperm : ((c :: g).map Cursor.head).Perm (its.filterMap fun it => found it k)) :
    IsNewest Entry.seq (its.map found) k (bestOf c.head (g.map Cursor.head)) := by
  obtain ⟨hmem, hmax⟩ := bestOf_spec c.head (g.map Cursor.head)
  refine ⟨?_, ?_⟩
  · obtain ⟨it, hit, hfound⟩ := List.mem_filterMap.mp (hperm.mem_iff.mp hmem)
    exact ⟨found it, List.mem_map_of_mem hit, hfound⟩
  · intro l hl w hw
    obtain ⟨it, hit, rfl⟩ := List.mem_map.mp hl
    exact (hmax w (hperm.mem_iff.mpr (List.mem_filterMap.mpr ⟨it, hit, hw⟩))).seq_le

theorem firsts_entries (its : List (List Entry)) (k : Bytes) :
    (firsts Entry.key k (mergeQueue mergeLe its)).Perm
      (its.filterMap fun it => found it k) := by
  unfold found
  convert @firsts_mergeQueue Entry Bytes _ Entry.key mergeLe _ its k

theorem mergeOne_eq_some {g : List (Cursor Entry)} (h : mergeOne drop g = some e) :
    ∃ c cs, g = c :: cs ∧ e = bestOf c.head (cs.map Cursor.head) ∧
      ¬ (e.tombstone ∧ drop) := by
  cases g with
  | nil => cases h
  | cons c cs =>
    simp only [mergeOne] at h
    split at h
    · cases h
    · next hkeep =>
      obtain rfl := Option.some.inj h
      exact ⟨c, cs, rfl, rfl, hkeep⟩

section Sorted

variable (hits : ∀ it ∈ its, it.Pairwise EntryLe)
include hits

theorem queued_entries : Queued Entry.key mergeLe true (mergeQueue mergeLe its) :=
  queued_mergeQueue (fun it hit => (hits it hit).imp key_le_of_entryLe) (by simp)

/-- What the merge keeps is the best of the first entries under its key. -/
theorem group_of_mem_mergeEntries (he : e ∈ mergeEntries its drop) :
    ∃ c g, e = bestOf c.head (g.map Cursor.head) ∧
      ((c :: g).map Cursor.head).Perm (its.filterMap fun it => found it e.key) ∧
      ¬ (e.tombstone ∧ drop) := by
  obtain ⟨g, hg, hone⟩ := List.mem_filterMap.mp he
  obtain ⟨k, -, hkey, hperm⟩ :=
    firsts_of_mem_mergeGroups (fun _ _ => key_le_of_entryLe) (queued_entries hits) hg
  obtain ⟨c, cs, rfl, rfl, hkeep⟩ := mergeOne_eq_some hone
  have hk : (bestOf c.head (cs.map Cursor.head)).key = k := by
    obtain ⟨d, hd, heq⟩ := exists_head_eq_bestOf c cs
    exact heq ▸ hkey d hd
  refine ⟨c, cs, rfl, ?_, hkeep⟩
  rw [hk]
  exact hperm.trans (firsts_entries its k)

/-- The best of the first entries under every key there is, is kept or is
a tombstone that is dropped. -/
theorem exists_group_mergeEntries (drop : Bool) (hk : ∃ it ∈ its, found it k ≠ none) :
    ∃ c g, ((c :: g).map Cursor.head).Perm (its.filterMap fun it => found it k) ∧
      (bestOf c.head (g.map Cursor.head) ∈ mergeEntries its drop ∨
        ((bestOf c.head (g.map Cursor.head)).tombstone ∧ drop)) := by
  have hfirsts := firsts_entries its k
  have hne : firsts Entry.key k (mergeQueue mergeLe its) ≠ [] := by
    intro hnil
    rw [hnil] at hfirsts
    obtain ⟨it, hit, hfound⟩ := hk
    exact hfound (List.filterMap_eq_nil_iff.mp hfirsts.symm.eq_nil it hit)
  obtain ⟨g, hg, hperm⟩ :=
    exists_mem_mergeGroups (fun _ _ => key_le_of_entryLe) (queued_entries hits) hne
  cases g with
  | nil => exact absurd hperm.symm.eq_nil hne
  | cons c cs =>
    refine ⟨c, cs, hperm.trans hfirsts, ?_⟩
    by_cases hdrop : (bestOf c.head (cs.map Cursor.head)).tombstone ∧ drop
    · exact .inr hdrop
    · exact .inl (List.mem_filterMap.mpr ⟨_, hg, if_neg hdrop⟩)

/-- **What the merge keeps is the newest version of its key.** -/
theorem isNewest_of_mem_mergeEntries (he : e ∈ mergeEntries its drop) :
    IsNewest Entry.seq (its.map found) e.key e ∧ ¬ (e.tombstone ∧ drop) := by
  obtain ⟨c, g, heq, hperm, hkeep⟩ := group_of_mem_mergeEntries hits he
  refine ⟨?_, hkeep⟩
  have hnew := isNewest_bestOf hperm
  rwa [← heq] at hnew

/-- **Under every key there is**, the newest version is kept or is a
tombstone that is dropped. -/
theorem exists_mergeEntries (hk : ∃ it ∈ its, found it k ≠ none) :
    ∃ e, IsNewest Entry.seq (its.map found) k e ∧
      (e ∈ mergeEntries its drop ∨ (e.tombstone ∧ drop)) := by
  obtain ⟨c, g, hperm, hor⟩ := exists_group_mergeEntries hits drop hk
  exact ⟨_, isNewest_bestOf hperm, hor⟩

/-- The output has one version of a key. -/
theorem pairwise_mergeEntries :
    (mergeEntries its drop).Pairwise fun a b => a.key < b.key := by
  have hgroups := pairwise_mergeGroups (fun _ _ => key_le_of_entryLe) (queued_entries hits)
  refine List.Pairwise.filterMap _ ?_ hgroups
  intro g g' hlt a ha b hb
  obtain ⟨c, cs, rfl, rfl, -⟩ := mergeOne_eq_some ha
  obtain ⟨d, ds, rfl, rfl, -⟩ := mergeOne_eq_some hb
  obtain ⟨x, hx, hax⟩ := exists_head_eq_bestOf c cs
  obtain ⟨y, hy, hby⟩ := exists_head_eq_bestOf d ds
  rw [← hax, ← hby]
  exact hlt x hx y hy

end Sorted

/-! ## The output of a run -/

/-- **The output of a compaction**, by the tables it came from. -/
structure Merged (drop : Bool) (ins out : List SSTable) : Prop where
  /-- No entry is made up. -/
  held : ∀ o ∈ out, ∀ e ∈ o.entries, ∃ t ∈ ins, e ∈ t.entries
  /-- A key is answered by its newest version. -/
  newest : ∀ o ∈ out, ∀ k e, o.get k = some e → IsNewest Entry.seq (ins.map SSTable.get) k e
  /-- No key is lost but to a dropped tombstone. -/
  kept : ∀ k, (∃ t ∈ ins, t.get k ≠ none) →
    ∃ e, IsNewest Entry.seq (ins.map SSTable.get) k e ∧
      ((∃ o ∈ out, o.get k = some e) ∨ (e.tombstone ∧ drop))

theorem get_of_pairwise_key {t : SSTable} {es : List Entry} (hperm : t.entries.Perm es)
    (hes : es.Pairwise fun a b => a.key < b.key) (he : e ∈ es) : t.get e.key = some e := by
  obtain ⟨v, hv⟩ := exists_get (hperm.mem_iff.mpr he)
  obtain ⟨hmem, hkey⟩ := mem_of_get hv
  have hnodup : (es.map Entry.key).Nodup := by
    rw [List.Nodup, List.pairwise_map]
    exact hes.imp fun h => ne_of_lt h
  rw [hv, List.inj_on_of_nodup_map hnodup (hperm.mem_iff.mp hmem) he hkey]

variable {fileSize : List Entry → UInt64} {now : ℕ} {p : Plan} {ins : List SSTable} {r : Result}

/-- A run writes one table at most, under a name of its time. -/
theorem run_output (h : run fileSize drop now p ins = .ok r) :
    r.output.length ≤ 1 ∧ ∀ o ∈ r.output, ∃ seq, o.path = tableName seq now := by
  unfold run at h
  split at h
  · cases h
    simp
  split at h
  · cases h
  dsimp only at h
  split at h
  · cases h
    simp
  · next hne =>
    obtain ⟨o, ho⟩ := exists_flush hne fileSize now
    rw [ho] at h
    cases h
    exact ⟨le_rfl, by simpa using (flush_ok ho).2⟩

/-- **A run makes of its inputs what a compaction should.** If tombstones
are dropped, none is left. -/
theorem run_ok (hp : p.inputs ≠ []) (h : run fileSize drop now p ins = .ok r) :
    r.obsolete = p.inputs ∧ r.outputLevel = p.outputLevel ∧ Merged drop ins r.output ∧
      (drop → ∀ o ∈ r.output, ∀ e ∈ o.entries, e.tombstone = false) := by
  simp only [run, if_neg hp] at h
  split at h
  · cases h
  set its := (ins.insertionSort fun a b => b.seq ≤ a.seq).map fun t => t.range [] [] with hitsdef
  -- the inputs are sorted by age, which the merge does not depend on
  have hmem : ∀ l : Layer Bytes Entry, l ∈ its.map found ↔ l ∈ ins.map SSTable.get := by
    intro l
    simp only [hitsdef, List.map_map, List.mem_map, List.mem_insertionSort,
      Function.comp_apply, range_all, found_entries]
  have hnewest : ∀ k e, IsNewest Entry.seq (its.map found) k e →
      IsNewest Entry.seq (ins.map SSTable.get) k e := by
    rintro k e ⟨⟨l, hl, hle⟩, hmax⟩
    exact ⟨⟨l, (hmem l).mp hl, hle⟩, fun l' hl' => hmax l' ((hmem l').mpr hl')⟩
  have hits : ∀ it ∈ its, it.Pairwise EntryLe := by
    intro it hit
    obtain ⟨t, -, rfl⟩ := List.mem_map.mp hit
    rw [range_all]
    exact t.sorted
  have hkept : ∀ k, (∃ t ∈ ins, t.get k ≠ none) → ∃ e,
      IsNewest Entry.seq (ins.map SSTable.get) k e ∧
        (e ∈ mergeEntries its drop ∨ (e.tombstone ∧ drop)) := by
    rintro k ⟨t, ht, hget⟩
    obtain ⟨it, hit, hfound⟩ := List.mem_map.mp ((hmem _).mpr (List.mem_map_of_mem ht))
    obtain ⟨e, he, hor⟩ := exists_mergeEntries hits ⟨it, hit, by rwa [hfound]⟩
    exact ⟨e, hnewest k e he, hor⟩
  split at h
  · -- nothing is left to write: every key had a tombstone, and all were dropped
    next hnil =>
    cases h
    refine ⟨rfl, rfl, ⟨by simp, by simp, ?_⟩, by simp⟩
    intro k hk
    obtain ⟨e, he, hor⟩ := hkept k hk
    rw [hnil] at hor
    exact ⟨e, he, .inr (hor.resolve_left (by simp))⟩
  · -- one table is written, and it holds what the merge has kept
    next hne =>
    obtain ⟨o, ho⟩ := exists_flush hne fileSize now
    rw [ho] at h
    cases h
    have hperm := (flush_ok ho).1
    have hfrom : ∀ e ∈ o.entries, IsNewest Entry.seq (ins.map SSTable.get) e.key e ∧
        ¬ (e.tombstone ∧ drop) := by
      intro e he
      obtain ⟨hnew, hlive⟩ := isNewest_of_mem_mergeEntries hits (hperm.mem_iff.mp he)
      exact ⟨hnewest _ _ hnew, hlive⟩
    refine ⟨rfl, rfl, ⟨?_, ?_, ?_⟩, ?_⟩
    · rintro _ hmem e he
      obtain rfl := List.mem_singleton.mp hmem
      obtain ⟨⟨l, hl, hle⟩, -⟩ := (hfrom e he).1
      obtain ⟨t, ht, rfl⟩ := List.mem_map.mp hl
      exact ⟨t, ht, (mem_of_get hle).1⟩
    · rintro _ hmem k e hget
      obtain rfl := List.mem_singleton.mp hmem
      obtain ⟨he, rfl⟩ := mem_of_get hget
      exact (hfrom e he).1
    · intro k hk
      obtain ⟨e, he, hor⟩ := hkept k hk
      refine ⟨e, he, hor.imp_left fun hmem => ⟨o, List.mem_singleton_self o, ?_⟩⟩
      obtain ⟨⟨l, hl, hle⟩, -⟩ := he
      obtain ⟨t, -, rfl⟩ := List.mem_map.mp hl
      obtain rfl := (mem_of_get hle).2
      exact get_of_pairwise_key hperm (pairwise_mergeEntries hits) hmem
    · rintro hdrop _ hmem e he
      obtain rfl := List.mem_singleton.mp hmem
      have := (hfrom e he).2
      simpa [hdrop] using this

end LSMEngine.Tables
