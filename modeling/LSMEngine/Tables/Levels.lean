import LSMEngine.Tables.Merge
import LSMEngine.Tables.Model.History
import Mathlib.Data.List.Perm.Basic
/-!
# Tables — what the levels hold

The tables of a set are levelled: a level holds newer sequences than any
deeper one, the tables of level 0 follow each other in time, and those
of a deeper level share no key (`Levelled`). So of two tables with a key
in common one is newer throughout, and the order by greatest sequence is
the order by version (`versions_ordered`).

A flush keeps this, and so does replacing the tables the planner chooses
(`Chosen`) by a table of their entries one level down: what is left in
the next level shares no key range with the level that moves down.
-/

namespace LSMEngine.Tables

/-- The level a table is at. -/
def Table.level (t : Table) : ℕ := t.metadata.level

/-- Every entry of the one is newer than every entry of the other. -/
def Newer (t u : Table) : Prop :=
  ∀ d ∈ t.handle.entries, ∀ e ∈ u.handle.entries, e.seq < d.seq

/-- No key is in both. -/
def KeysApart (t u : Table) : Prop :=
  ∀ d ∈ t.handle.entries, ∀ e ∈ u.handle.entries, d.key ≠ e.key

theorem KeysApart.symm {t u : Table} (h : KeysApart t u) : KeysApart u t :=
  fun d hd e he => (h e he d hd).symm

/-- **The shape of a table set.** -/
structure Levelled (ts : List Table) : Prop where
  agrees : ∀ t ∈ ts, t.metadata = tableMetaFromSSTable t.handle t.level
  paths : (ts.map Table.path).Nodup
  deeper : ∀ t ∈ ts, ∀ u ∈ ts, t.level < u.level → Newer t u
  flushed : ∀ t ∈ ts, ∀ u ∈ ts, t.level = 0 → u.level = 0 → t ≠ u → Newer t u ∨ Newer u t
  apart : ∀ t ∈ ts, ∀ u ∈ ts, t.level = u.level → 0 < t.level → t ≠ u → KeysApart t u

variable {ts ts' ins : List Table} {t u : Table} {l : ℕ}

theorem Levelled.perm (h : Levelled ts) (hp : ts'.Perm ts) : Levelled ts' := by
  obtain ⟨hagrees, hpaths, hdeeper, hflushed, hapart⟩ := h
  refine ⟨?_, (hp.map _).nodup_iff.mpr hpaths, ?_, ?_, ?_⟩
  · exact fun t ht => hagrees t (hp.mem_iff.mp ht)
  · exact fun t ht u hu => hdeeper t (hp.mem_iff.mp ht) u (hp.mem_iff.mp hu)
  · exact fun t ht u hu => hflushed t (hp.mem_iff.mp ht) u (hp.mem_iff.mp hu)
  · exact fun t ht u hu => hapart t (hp.mem_iff.mp ht) u (hp.mem_iff.mp hu)

section

variable (h : Levelled ts) (ht : t ∈ ts) (hu : u ∈ ts)
include h ht hu

theorem Levelled.eq_of_path (hp : t.path = u.path) : t = u :=
  List.inj_on_of_nodup_map h.paths ht hu hp

/-- Of two tables with a key in common, one is newer. -/
theorem Levelled.newer_or (hne : t ≠ u) : Newer t u ∨ Newer u t ∨ KeysApart t u := by
  rcases lt_trichotomy t.level u.level with hlt | heq | hgt
  · exact .inl (h.deeper t ht u hu hlt)
  · by_cases hz : t.level = 0
    · exact (h.flushed t ht u hu hz (heq ▸ hz) hne).imp_right .inl
    · exact .inr (.inr (h.apart t ht u hu heq (by omega) hne))
  · exact .inr (.inl (h.deeper u hu t ht hgt))

theorem Levelled.seqMax_lt (hnew : Newer u t) : t.metadata.seqMax < u.metadata.seqMax := by
  rw [h.agrees t ht, h.agrees u hu, tableMeta_seqMax, tableMeta_seqMax]
  obtain ⟨d, hd, hmax⟩ := exists_seq_eq_seqMax t.handle
  obtain ⟨e, he⟩ := List.exists_mem_of_ne_nil _ u.handle.nonempty
  rw [← hmax]
  exact lt_of_lt_of_le (hnew e he d hd) (seq_le_seqMax he)

end

/-- The version of a key in one table is newer than that in the other,
if both have it. -/
def VersionsAhead (t u : Table) : Prop :=
  ∀ k v w, t.handle.get k = some v → u.handle.get k = some w → w.seq < v.seq

/-- **The order by greatest sequence is the order by version.** -/
theorem Levelled.versions_ordered (h : Levelled ts) (hs : ts.Pairwise TableLe) :
    ts.Pairwise VersionsAhead := by
  have hnodup : ts.Nodup := h.paths.of_map
  refine (hs.and hnodup).imp_of_mem ?_
  rintro t u ht hu ⟨hle, hne⟩ k v w hv hw
  obtain ⟨hvmem, hvk⟩ := mem_of_get hv
  obtain ⟨hwmem, hwk⟩ := mem_of_get hw
  rcases h.newer_or ht hu hne with hnew | hnew | hapart
  · exact hnew v hvmem w hwmem
  · -- the later table cannot be the newer one
    have hlt := h.seqMax_lt ht hu hnew
    refine absurd ?_ hle
    simp [metaLess, ne_of_gt hlt, hlt]
  · exact absurd (hvk.trans hwk.symm) (hapart v hvmem w hwmem)

/-! ## Edits -/

theorem Levelled.sublist (h : Levelled ts) (hs : ts'.Sublist ts) : Levelled ts' := by
  obtain ⟨hagrees, hpaths, hdeeper, hflushed, hapart⟩ := h
  refine ⟨?_, hpaths.sublist (hs.map _), ?_, ?_, ?_⟩
  · exact fun t ht => hagrees t (hs.mem ht)
  · exact fun t ht u hu => hdeeper t (hs.mem ht) u (hs.mem hu)
  · exact fun t ht u hu => hflushed t (hs.mem ht) u (hs.mem hu)
  · exact fun t ht u hu => hapart t (hs.mem ht) u (hs.mem hu)

/-- Where a table fits in among others. -/
structure Fits (ts : List Table) (t : Table) : Prop where
  above : ∀ u ∈ ts, u.level < t.level → Newer u t
  below : ∀ u ∈ ts, t.level < u.level → Newer t u
  after : ∀ u ∈ ts, u.level = 0 → t.level = 0 → Newer t u
  beside : ∀ u ∈ ts, u.level = t.level → 0 < t.level → KeysApart t u

theorem Levelled.append (h : Levelled ts)
    (hagrees : t.metadata = tableMetaFromSSTable t.handle t.level)
    (hpath : t.path ∉ ts.map Table.path) (hfits : Fits ts t) : Levelled (ts ++ [t]) := by
  obtain ⟨habove, hbelow, hafter, hbeside⟩ := hfits
  have hmem : ∀ x, x ∈ ts ++ [t] → x ∈ ts ∨ x = t := by simp
  refine ⟨?_, ?_, ?_, ?_, ?_⟩
  · intro x hx
    rcases hmem x hx with hold | rfl
    · exact h.agrees x hold
    · exact hagrees
  · rw [List.map_append, List.nodup_append]
    refine ⟨h.paths, by simp, ?_⟩
    intro p hp q hq hpq
    obtain rfl : q = t.path := by simpa using hq
    exact hpath (hpq ▸ hp)
  · intro x hx y hy hlt
    rcases hmem x hx with hxold | rfl <;> rcases hmem y hy with hyold | rfl
    · exact h.deeper x hxold y hyold hlt
    · exact habove x hxold hlt
    · exact hbelow y hyold hlt
    · omega
  · intro x hx y hy hx0 hy0 hne
    rcases hmem x hx with hxold | rfl <;> rcases hmem y hy with hyold | rfl
    · exact h.flushed x hxold y hyold hx0 hy0 hne
    · exact .inr (hafter x hxold hx0 hy0)
    · exact .inl (hafter y hyold hy0 hx0)
    · exact absurd rfl hne
  · intro x hx y hy heq hpos hne
    rcases hmem x hx with hxold | rfl <;> rcases hmem y hy with hyold | rfl
    · exact h.apart x hxold y hyold heq hpos hne
    · exact (hbeside x hxold heq (heq ▸ hpos)).symm
    · exact hbeside y hyold heq.symm hpos
    · exact absurd rfl hne

/-- **A table of newer sequences joins level 0.** -/
theorem Levelled.install (h : Levelled ts) {t : SSTable} (hpath : t.path ∉ ts.map Table.path)
    (hfresh : Fresh ts t.entries) : Levelled (ts ++ [Table.of t 0]) := by
  have hnew : ∀ u ∈ ts, Newer (Table.of t 0) u := fun u hu d hd e he => hfresh u hu e he d hd
  refine h.append rfl hpath ⟨?_, fun u hu _ => hnew u hu, fun u hu _ _ => hnew u hu, ?_⟩
  · intro u _ hlt
    exact absurd hlt (Nat.not_lt_zero _)
  · intro u _ _ hpos
    exact absurd hpos (lt_irrefl 0)

/-- **The inputs of a compaction from a level to the next.** What else
there is at the level has come after them, and what they leave in the
next level shares no key with the level. -/
structure Chosen (ts ins : List Table) (l : ℕ) : Prop where
  nonempty : ins ≠ []
  mem : ∀ t ∈ ins, t ∈ ts
  level : ∀ t ∈ ins, t.level = l ∨ t.level = l + 1
  later : ∀ t ∈ ts, t ∉ ins → t.level = l → l = 0 ∧ ∀ u ∈ ins, Newer t u
  clear : ∀ u ∈ ts, u ∉ ins → u.level = l + 1 → ∀ t ∈ ins, t.level = l → KeysApart t u

theorem Chosen.perm (h : Chosen ts ins l) (hp : ts'.Perm ts) : Chosen ts' ins l := by
  obtain ⟨hne, hmem, hlevel, hlater, hclear⟩ := h
  refine ⟨hne, fun t ht => hp.mem_iff.mpr (hmem t ht), hlevel, ?_, ?_⟩
  · exact fun t ht => hlater t (hp.mem_iff.mp ht)
  · exact fun u hu => hclear u (hp.mem_iff.mp hu)

/-- A flush does not disturb a choice made before it. -/
theorem Chosen.install (h : Chosen ts ins l) {t : SSTable} (hfresh : Fresh ts t.entries) :
    Chosen (ts ++ [Table.of t 0]) ins l := by
  refine ⟨h.nonempty, fun u hu => List.mem_append_left _ (h.mem u hu), h.level, ?_, ?_⟩
  · intro u hu hnot hl
    rcases List.mem_append.mp hu with hu | hu
    · exact h.later u hu hnot hl
    · obtain rfl := List.mem_singleton.mp hu
      exact ⟨hl.symm, fun i hi d hd e he => hfresh i (h.mem i hi) e he d hd⟩
  · intro u hu hnot hl i hi
    rcases List.mem_append.mp hu with hu | hu
    · exact h.clear u hu hnot hl i hi
    · obtain rfl := List.mem_singleton.mp hu
      exact absurd hl (Nat.succ_ne_zero l).symm

/-- What is left of the tables when some are taken out by path. -/
def without (ts ins : List Table) : List Table :=
  ts.filter fun t => t.path ∉ (ins.map Table.metadata).map TableMeta.path

section

variable (h : Levelled ts) (hc : Chosen ts ins l)
include h hc

theorem mem_without : t ∈ without ts ins ↔ t ∈ ts ∧ t ∉ ins := by
  simp only [without, List.mem_filter, List.map_map, decide_eq_true_eq]
  refine and_congr_right fun ht => not_congr ⟨?_, fun hin => List.mem_map.mpr ⟨t, hin, rfl⟩⟩
  intro hin
  obtain ⟨i, hi, hpath⟩ := List.mem_map.mp hin
  rwa [← h.eq_of_path (hc.mem i hi) ht hpath]

/-- **A table of the inputs' entries fits into the next level** once they
are gone. -/
theorem Chosen.fits {o : SSTable} (hfrom : ∀ e ∈ o.entries, ∃ i ∈ ins, e ∈ i.handle.entries) :
    Fits (without ts ins) (Table.of o (l + 1)) := by
  refine ⟨?_, ?_, fun _ _ _ hz => absurd hz (Nat.succ_ne_zero l), ?_⟩
  · intro u hu hlt d hd e he
    obtain ⟨hu, hnot⟩ := (mem_without h hc).mp hu
    obtain ⟨i, hi, hei⟩ := hfrom e he
    have hlt' : u.level < l + 1 := hlt
    by_cases hul : u.level = l
    · exact (hc.later u hu hnot hul).2 i hi d hd e hei
    · have := hc.level i hi
      exact h.deeper u hu i (hc.mem i hi) (by omega) d hd e hei
  · intro u hu hlt d hd e he
    obtain ⟨hu, -⟩ := (mem_without h hc).mp hu
    obtain ⟨i, hi, hdi⟩ := hfrom d hd
    have hlt' : l + 1 < u.level := hlt
    have := hc.level i hi
    exact h.deeper i (hc.mem i hi) u hu (by omega) d hdi e he
  · intro u hu heq _ d hd e he
    obtain ⟨hu, hnot⟩ := (mem_without h hc).mp hu
    obtain ⟨i, hi, hdi⟩ := hfrom d hd
    have hul : u.level = l + 1 := heq
    rcases hc.level i hi with hil | hil
    · exact hc.clear u hu hnot hul i hi hil d hdi e he
    · refine h.apart i (hc.mem i hi) u hu (by omega) (by omega) ?_ d hdi e he
      rintro rfl
      exact hnot hi

/-- **A compaction keeps the levels.** -/
theorem Levelled.compact {out : List SSTable}
    (hfrom : ∀ o ∈ out, ∀ e ∈ o.entries, ∃ i ∈ ins, e ∈ i.handle.entries) (hone : out.length ≤ 1)
    (hpath : ∀ o ∈ out, o.path ∉ ts.map Table.path) :
    Levelled (without ts ins ++ out.map fun o => Table.of o (l + 1)) := by
  have hkept : Levelled (without ts ins) := h.sublist List.filter_sublist
  match out, hone with
  | [], _ => simpa using hkept
  | [o], _ =>
    refine hkept.append rfl ?_ (hc.fits h (hfrom o List.mem_cons_self))
    intro hin
    exact hpath o List.mem_cons_self ((List.filter_sublist.map _).mem hin)

end

end LSMEngine.Tables
