import LSMEngine.Common.Layers
import LSMEngine.Tables.Model.SSTable
/-!
# Tables — what a table answers

A table answers a key with its first entry of the key, the only one where
keys differ: the check of the key range never turns away a key the table
has (`get_eq_find`). The sequence bounds of its metadata bound its
entries, and the name a table is written under tells the time of the
write (`tableName_inj`).
-/

namespace LSMEngine.Tables

variable {t : SSTable} {e v : Entry} {k : Bytes}

theorem key_le_of_entryLe {a b : Entry} (h : EntryLe a b) : a.key ≤ b.key := by
  rw [entryLe_iff, entryRank, entryRank, Prod.Lex.toLex_le_toLex] at h
  rcases h with h | h
  · exact le_of_lt h
  · exact le_of_eq h.1

/-! ## Key range -/

theorem first_key_le (he : e ∈ t.entries) : t.first.key ≤ e.key := by
  have hsorted := t.sorted
  unfold SSTable.first
  generalize t.entries = es, t.nonempty = hne at *
  cases es with
  | nil => cases he
  | cons a es =>
    rcases List.mem_cons.mp he with rfl | he
    · exact le_rfl
    · exact key_le_of_entryLe ((List.pairwise_cons.mp hsorted).1 e he)

theorem key_le_last (he : e ∈ t.entries) : e.key ≤ t.last.key := by
  have hsorted := t.sorted
  have hlast := List.dropLast_append_getLast t.nonempty
  rw [← hlast] at he hsorted
  rcases List.mem_append.mp he with he | he
  · exact key_le_of_entryLe
      ((List.pairwise_append.mp hsorted).2.2 e he _ List.mem_cons_self)
  · rw [List.mem_singleton.mp he]
    exact le_rfl

/-- **The range check turns no key away that the table holds.** -/
theorem get_eq_find (t : SSTable) (k : Bytes) :
    t.get k = t.entries.find? fun e => e.key = k := by
  have hnone : (k < t.first.key ∨ t.last.key < k) →
      none = t.entries.find? fun e => e.key = k := by
    intro hout
    symm
    rw [List.find?_eq_none]
    intro e he
    have hfirst := first_key_le he
    have hlast := key_le_last he
    rcases hout with hout | hout
    · simpa using ne_of_gt (lt_of_lt_of_le hout hfirst)
    · simpa using ne_of_lt (lt_of_le_of_lt hlast hout)
  unfold SSTable.get
  split
  · next h => exact hnone (.inl h.2)
  · split
    · next h => exact hnone (.inr h.2)
    · rfl

theorem mem_of_get (h : t.get k = some v) : v ∈ t.entries ∧ v.key = k := by
  rw [get_eq_find] at h
  exact ⟨List.mem_of_find?_eq_some h, by simpa using List.find?_some h⟩

theorem exists_get (he : e ∈ t.entries) : ∃ v, t.get e.key = some v := by
  rw [← Option.isSome_iff_exists, get_eq_find, List.find?_isSome]
  exact ⟨e, he, by simp⟩

theorem range_all (t : SSTable) : t.range [] [] = t.entries := by
  unfold SSTable.range
  have hdrop : (t.entries.dropWhile fun e => decide (([] : Bytes) ≠ [] ∧ e.key < [])) =
      t.entries := by
    cases t.entries <;> simp
  rw [hdrop]
  induction t.entries with
  | nil => rfl
  | cons e es ih => rw [List.takeWhile_cons_of_pos (by simp), ih]

/-! ## Sequence bounds -/

theorem le_foldl_max (es : List Entry) (m : UInt64) :
    m ≤ es.foldl (fun m e => if m < e.seq then e.seq else m) m ∧
      ∀ e ∈ es, e.seq ≤ es.foldl (fun m e => if m < e.seq then e.seq else m) m := by
  induction es generalizing m with
  | nil => simp
  | cons a es ih =>
    simp only [List.foldl_cons, List.forall_mem_cons]
    obtain ⟨hm, hes⟩ := ih (if m < a.seq then a.seq else m)
    split at hm
    · next h => simp only [if_pos h] at hes ⊢; exact ⟨(le_of_lt h).trans hm, hm, hes⟩
    · next h => simp only [if_neg h] at hes ⊢; exact ⟨hm, (not_lt.mp h).trans hm, hes⟩

theorem foldl_max_mem (es : List Entry) (m : UInt64) :
    es.foldl (fun m e => if m < e.seq then e.seq else m) m = m ∨
      ∃ e ∈ es, e.seq = es.foldl (fun m e => if m < e.seq then e.seq else m) m := by
  induction es generalizing m with
  | nil => exact .inl rfl
  | cons a es ih =>
    simp only [List.foldl_cons, List.exists_mem_cons_iff]
    rcases ih (if m < a.seq then a.seq else m) with h | h
    · rw [h]
      by_cases ha : m < a.seq
      · exact .inr (.inl (by rw [if_pos ha]))
      · exact .inl (if_neg ha)
    · exact .inr (.inr h)

theorem seq_le_seqMax (he : e ∈ t.entries) : e.seq ≤ t.seqMax :=
  (le_foldl_max t.entries t.last.seq).2 e he

/-- The bound is the sequence of an entry. -/
theorem exists_seq_eq_seqMax (t : SSTable) : ∃ e ∈ t.entries, e.seq = t.seqMax := by
  rcases foldl_max_mem t.entries t.last.seq with h | h
  · exact ⟨t.last, List.getLast_mem t.nonempty, h.symm⟩
  · exact h

@[simp] theorem tableMeta_seqMax (t : SSTable) (level : ℕ) :
    (tableMetaFromSSTable t level).seqMax = t.seqMax := by
  simp only [tableMetaFromSSTable, SSTable.seq, ite_self]

/-! ## Writing a table -/

/-- **A name tells the time it was made at.** -/
theorem tableName_inj {s s' now now' : ℕ} (h : tableName s now = tableName s' now') :
    now = now' := by
  have hdash : ∀ n, '-' ∉ Nat.toDigits 10 n := by
    intro n hn
    have := Nat.isDigit_of_mem_toDigits (b := 10) (by decide) (by decide) hn
    exact absurd this (by decide)
  have hlist := congrArg String.toList h
  simp only [tableName, String.toList_append] at hlist
  have hnums := List.append_cancel_left hlist
  have hrepr : ∀ n : ℕ, (toString n).toList = Nat.toDigits 10 n := fun _ => Nat.toList_repr
  simp only [hrepr] at hnums
  have hcons : ∀ n, "-".toList ++ (Nat.toDigits 10 n ++ ".sst".toList) =
      '-' :: (Nat.toDigits 10 n ++ ".sst".toList) := fun _ => rfl
  rw [hcons, hcons] at hnums
  have hrest : '-' ∉ Nat.toDigits 10 now ++ ".sst".toList :=
    List.not_mem_append (hdash now) (by decide)
  have htail := ((List.append_cons_inj_of_notMem (hdash s) hrest).mp hnums).2.2
  have hdigits := List.append_cancel_right htail
  have := congrArg (Nat.ofDigitChars 10 · 0) hdigits
  simpa only [Nat.ofDigitChars_ten_toDigits] using this

/-- What a write makes of its entries. -/
theorem flush_ok {fileSize : List Entry → UInt64} {now : ℕ} {es : List Entry}
    (h : flush fileSize now es = .ok t) :
    t.entries.Perm es ∧ ∃ seq, t.path = tableName seq now := by
  unfold flush at h
  split at h
  · cases h
  · cases h
    exact ⟨List.perm_insertionSort EntryLe es, _, rfl⟩

theorem exists_flush {es : List Entry} (hes : es ≠ []) (fileSize : List Entry → UInt64)
    (now : ℕ) : ∃ t, flush fileSize now es = .ok t :=
  ⟨_, dif_neg hes⟩

end LSMEngine.Tables
