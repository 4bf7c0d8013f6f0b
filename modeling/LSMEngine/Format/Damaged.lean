import LSMEngine.Format.Faults
import LSMEngine.Format.Range
/-!
# Format — scans of a damaged table

A scan of a table that `Flush` has written, over a source from which some
data blocks and some partitions of the index cannot be read. A scan that
skips yields the entries of its range in the rest of the table; one that
does not comes to the first place that cannot be read, from the block on
where it starts, and fails there unless its range has ended before it
(`range_damaged`).
-/

namespace LSMEngine.Format

/-- A file one of whose blocks cannot be read. -/
def failingAt (offset : UInt64) (file : Bytes) : Source :=
  fun o length => if o = offset then .error .closed else fileSource file o length

theorem failingAt_degrades (P : Platform) (offset : UInt64) (file : Bytes) :
    Degrades P (fileSource file) (failingAt offset file) := by
  refine Faulty.degrades (fun o length => ?_) P
  unfold failingAt
  split
  · exact .inr (.inl ⟨.closed, by decide, rfl⟩)
  · exact .inl rfl

section

variable {P : Platform} {raw : Options} {entries : List Entry}

/-- The table `Flush` returns, as a reader of any other source of its file
sees it. The limit of the reader may keep it from blocks. -/
theorem flush_charts (hvalid : raw.normalize.validate = .ok ()) (hne : entries ≠ [])
    (hkeys : ∀ e ∈ entries, e.key ≠ []) (hfits : Fits P raw.normalize (blocksOf raw entries))
    (hbudget : affordable (newPrefetchBudget raw.normalize.snapshot)) :
    ∃ t, flush P raw entries = .ok t ∧ ∀ src, Degrades P (fileSource t.file) src →
      Live P src t.reader t.state ∧
      Charts P src t.reader (t.reader.see P src (partsOf raw.normalize (blocksOf raw entries))) ∧
      (t.reader.see P src (partsOf raw.normalize (blocksOf raw entries))).flatMap
        SeenPart.entries = Tables.sortEntries entries := by
  obtain ⟨ws, c, f, hwritten, hf, hflush⟩ := flush_eq hvalid hne hkeys hfits.opens
  have hlaid : LaidOut (blocksOf raw entries) := laidOut_blocksOf hne
  refine ⟨_, hflush, fun src hdeg => ⟨⟨sound_openedState _ _ _ _ _ _, rfl⟩, ?_⟩⟩
  have hserves : Serves P (fileSource ws.flatten)
      (readerOf raw.normalize { raw.normalize with
        readBlockMaxBytes := 0, policyOverride := none } (blocksOf raw entries)
        ws c f) (partsOf raw.normalize (blocksOf raw entries)) := by
    refine hwritten.serves hlaid hfits (fun h => absurd h (lt_irrefl _)) ?_ hf
    rw [flatten_blocksOf]
    exact sortEntries_le entries
  rw [← newPrefetchBudget_normalize] at hbudget
  refine ⟨charts_see hserves rfl rfl hdeg
    ⟨(hwritten.coherent hlaid hfits f).of_degrades hdeg, hbudget⟩, ?_⟩
  refine (entries_see (r := readerOf raw.normalize raw.normalize.normalize (blocksOf raw entries)
    ws c f) hserves rfl rfl hdeg).trans ?_
  rw [flatten_partsOf, flatten_blocksOf]

/-- **Scans of a damaged table.** -/
theorem range_damaged (hvalid : raw.normalize.validate = .ok ()) (hne : entries ≠ [])
    (hkeys : ∀ e ∈ entries, e.key ≠ []) (hdistinct : (entries.map Entry.key).Nodup)
    (hfits : Fits P raw.normalize (blocksOf raw entries))
    (hbudget : affordable (newPrefetchBudget raw.normalize.snapshot)) :
    ∃ t, flush P raw entries = .ok t ∧ ∀ src, Degrades P (fileSource t.file) src →
      Live P src t.reader t.state ∧ ∀ s, Live P src t.reader s → ∀ seen,
        seen = t.reader.see P src (partsOf raw.normalize (blocksOf raw entries)) →
        ∀ start stop, ∃ N, ∀ fuel ≥ N, ∀ n ≥ N,
          (t.reader.corruptionPolicy = .skipBlock → ∃ last,
            ((t.reader.collect P src fuel n (range start stop)).exec s).1 =
                .ok (some ((seen.flatMap SeenPart.stops).reduceOption.filter fun e =>
                  inRange start stop e.key, last)) ∧ last.err = none) ∧
          (t.reader.corruptionPolicy = .failFast → ∃ last,
            ((t.reader.collect P src fuel n (range start stop)).exec s).1 =
                .ok (some ((upToFault (landed start seen)).filter fun e =>
                  inRange start stop e.key, last)) ∧
              (last.err = none ↔ none ∉ landed start seen ∨
                ∃ e ∈ upToFault (landed start seen), start ≤ e.key ∧ isPast stop e.key = true)) := by
  obtain ⟨t, hflush, hcharts⟩ := flush_charts hvalid hne hkeys hfits hbudget
  refine ⟨t, hflush, fun src hdeg => ⟨(hcharts src hdeg).1, ?_⟩⟩
  rintro s hlive seen rfl start stop
  obtain ⟨-, hcharts, hentries⟩ := hcharts src hdeg
  generalize t.reader.see P src (partsOf raw.normalize (blocksOf raw entries)) = seen at hcharts hentries
  have hlt : (seen.flatMap SeenPart.entries).Pairwise fun a b => a.key < b.key :=
    hentries ▸ sortEntries_lt hdistinct
  refine ⟨(scanRoad start seen).length + 2, fun fuel hfuel n hn => ?_⟩
  have hcount : (scanRoad start seen).countP Option.isNone ≤ (scanRoad start seen).length :=
    List.countP_le_length
  -- under either policy the scan walks the same road; they differ in what a fault on it does
  have hscan : t.reader.corruptionPolicy ≠ .dropTable → ∃ last,
      ((t.reader.collect P src fuel n (range start stop)).exec s).1 =
          .ok (some ((gives t.reader.skips stop (scanRoad start seen)).1, last)) ∧
        (last.err = none ↔ (gives t.reader.skips stop (scanRoad start seen)).2 = false) :=
    fun hpolicy => (collect_live hcharts.coherent (fun h => absurd h hpolicy)
      (hcharts.ahead start stop) (by omega) (by omega) s hlive).1
  constructor
  · intro hpolicy
    obtain ⟨last, hx, herr⟩ := hscan (by rw [hpolicy]; decide)
    have hskips : t.reader.skips = true := decide_eq_true hpolicy
    rw [hskips, gives_scanRoad_skip hcharts.sequenced hcharts.ne_nil hlt] at hx herr
    exact ⟨last, hx, herr.mpr rfl⟩
  · intro hpolicy
    obtain ⟨last, hx, herr⟩ := hscan (by rw [hpolicy]; decide)
    have hskips : t.reader.skips = false := decide_eq_false (by rw [hpolicy]; decide)
    rw [hskips, gives_scanRoad_failFast hcharts.sequenced hcharts.ne_nil hlt] at hx herr
    refine ⟨last, hx, herr.trans ?_⟩
    rw [decide_eq_false_iff_not, not_and_or]
    simp only [not_forall, Bool.not_eq_false, exists_prop]

/-- Options with small blocks, and a reader that skips a block. -/
def Options.skipping : Options :=
  { Options.plain with blockTargetBytes := 40, corruptionPolicy := .skipBlock }

/-- Two entries in two blocks, the first of which cannot be read. -/
theorem range_damaged_two :
    ∃ t, flush .plain .skipping [⟨[2], [7], false, 1⟩, ⟨[1], [], true, 2⟩] = .ok t ∧
      ∀ start stop, ∃ N, ∀ fuel ≥ N, ∀ n ≥ N, ∃ last,
        ((t.reader.collect .plain (failingAt 0 t.file) fuel n (range start stop)).exec t.state).1 =
            .ok (some ([⟨[2], [7], false, 1⟩].filter fun e => inRange start stop e.key, last)) ∧
          last.err = none := by
  obtain ⟨t, hflush, hscan⟩ := @range_damaged .plain .skipping
    [⟨[2], [7], false, 1⟩, ⟨[1], [], true, 2⟩] rfl (by decide) (by decide) (by decide)
    ⟨fun _ _ => ⟨_, _, rfl⟩, by decide +kernel, by decide +kernel, by decide +kernel, rfl⟩ (by decide)
  have hseen : (do
      let t ← flush .plain .skipping [⟨[2], [7], false, 1⟩, ⟨[1], [], true, 2⟩]
      return (t.reader.corruptionPolicy, ((t.reader.see .plain (failingAt 0 t.file)
        (partsOf Options.skipping.normalize (blocksOf .skipping
          [⟨[2], [7], false, 1⟩, ⟨[1], [], true, 2⟩]))).flatMap SeenPart.stops).reduceOption)) =
      .ok (.skipBlock, [⟨[2], [7], false, 1⟩]) := by decide +kernel
  rw [hflush] at hseen
  obtain ⟨hpolicy, hgives⟩ := Prod.mk.inj (Except.ok.inj hseen)
  obtain ⟨hlive, hscan⟩ := hscan _ (failingAt_degrades .plain 0 t.file)
  refine ⟨t, hflush, fun start stop => ?_⟩
  obtain ⟨N, hN⟩ := hscan t.state hlive _ rfl start stop
  refine ⟨N, fun fuel hfuel n hn => ?_⟩
  rw [← hgives]
  exact (hN fuel hfuel n hn).1 hpolicy

end

/-! ## A range that ends before it starts -/

/-- **The block ahead of a fault has an entry behind the end of the
range**, and the scan fails all the same: it looks at no entry below its
start. The second block of the table cannot be read. -/
theorem range_backwards :
    (∀ file, Degrades .plain (fileSource file) (failingAt 44 file)) ∧
      (do
        let t ← flush .plain { Options.plain with blockTargetBytes := 40 }
          [⟨[2], [], false, 1⟩, ⟨[4], [], false, 2⟩]
        let x ← ((t.reader.collect .plain (failingAt 44 t.file) 4 4 (range [3] [1])).exec t.state).1
        return (t.reader.corruptionPolicy, landed [3] (t.reader.see .plain (failingAt 44 t.file)
            (partsOf { Options.plain with blockTargetBytes := 40 }.normalize
              (blocksOf { Options.plain with blockTargetBytes := 40 }
                [⟨[2], [], false, 1⟩, ⟨[4], [], false, 2⟩]))),
          x.map fun y : List Entry × RangeIterator => (y.1, y.2.err))) =
        .ok (.failFast, [some ⟨[2], [], false, 1⟩, none], some ([], some Fault.closed)) :=
  ⟨failingAt_degrades .plain 44, by decide +kernel⟩

end LSMEngine.Format
