import LSMEngine.Format.Lookup
import LSMEngine.Format.Model.Range
/-!
# Format — reading ahead

A scan prefetches the blocks behind the one it reads. Whatever the cache,
and whether the blocks can be read or not, this changes nothing but the
cache, and leaves it with what the source has (`prefetch_live`). Room is
made for the blocks of the budget, so there must not be too many of them.
-/

namespace LSMEngine.Format

variable {P : Platform} {src : Source} {r : Reader}

/-- Room can be made for the blocks of a budget. -/
def affordable (budget : Option PrefetchBudget) : Bool := budget.all fun b => canMake 40 b.blocks

/-- Normalizing twice leaves the budget as it is. -/
theorem newPrefetchBudget_normalize (o : Options) :
    newPrefetchBudget o.normalize.normalize.snapshot = newPrefetchBudget o.normalize.snapshot := by
  have hnonneg : ∀ x, Options.nonneg (Options.nonneg x) = Options.nonneg x := fun x => by
    unfold Options.nonneg
    split_ifs <;> omega
  have hover : o.normalize.policyOverride = o.policyOverride := rfl
  have hover' : o.normalize.normalize.policyOverride = o.policyOverride := rfl
  rw [Options.snapshot, Options.snapshot, hover, hover']
  cases o.policyOverride with
  | none =>
    have hblocks : o.normalize.normalize.prefetchBlocks = o.normalize.prefetchBlocks := hnonneg _
    have hbytes : o.normalize.normalize.prefetchBytes = o.normalize.prefetchBytes := hnonneg _
    have hbudgetBlocks : o.normalize.normalize.prefetchBudgetBlocks =
      o.normalize.prefetchBudgetBlocks := hnonneg _
    have hbudgetBytes : o.normalize.normalize.prefetchBudgetBytes =
      o.normalize.prefetchBudgetBytes := hnonneg _
    rw [hblocks, hbytes, hbudgetBlocks, hbudgetBytes]
    rfl
  | some p => rfl

/-- A reader that scans do not panic in. -/
structure Scannable (P : Platform) (src : Source) (r : Reader) : Prop extends
    Coherent P src r where
  affordable : affordable r.prefetchBudget

/-- An entry of the index whose block is read or refused. -/
structure Fetchable (P : Platform) (src : Source) (r : Reader) (e : IndexEntry) : Prop where
  data : DataEntry P src r e
  safe : readDataBlock P src e ≠ .error .panic

theorem fetchBlock_fetchable (hco : Coherent P src r) {e : IndexEntry} (h : DataEntry P src r e) :
    Prog.Keeps (Live P src r) (fetchBlock P src e) (· = readDataBlock P src e) := by
  intro s hs
  have hkeeps := fetchBlock_keeps hco (.refl P src) h s hs.1
  exact ⟨hkeeps.1.elim id id, hkeeps.2, hs.2⟩

theorem isCached_live (offset : UInt64) :
    Prog.Keeps (Live P src r) (isCached offset) fun x => ∃ b, x = .ok b := by
  intro s hs
  rw [isCached, Prog.exec_mk]
  match hblocks : s.blocks with
  | none => exact ⟨⟨false, rfl⟩, hs⟩
  | some c =>
    refine ⟨⟨_, rfl⟩, ⟨fun d hd => ?_, hs.1.indexes, hs.1.filters⟩, hs.2⟩
    obtain rfl := Option.some.inj hd
    exact (hs.1.blocks c hblocks).get offset

theorem prefetchTargetsLoop_live (budget : PrefetchBudget) (es : List IndexEntry) (taken : ℕ)
    (remaining : ℤ) :
    Prog.Keeps (Live P src r) (r.prefetchTargetsLoop budget taken remaining es)
      fun x => ∃ l, x = .ok l ∧ l ⊆ es := by
  induction es generalizing taken remaining with
  | nil => exact .pure ⟨[], rfl, List.Subset.refl _⟩
  | cons e es ih =>
    rw [Reader.prefetchTargetsLoop]
    have hcandidate : Prog.Keeps (Live P src r) (r.prefetchEntryCandidate e)
        fun x => ∃ b, x = .ok b := by
      rw [Reader.prefetchEntryCandidate]
      split
      · exact .pure ⟨false, rfl⟩
      · split
        · exact .pure ⟨false, rfl⟩
        · exact (isCached_live _).bind (fun b _ => .pure ⟨_, rfl⟩) fun f ⟨_, hf⟩ => nomatch hf
    refine hcandidate.bind (fun b _ => ?_) fun f ⟨_, hf⟩ => nomatch hf
    have hskip : ∀ {n m}, Prog.Keeps (Live P src r) (r.prefetchTargetsLoop budget n m es)
        fun x => ∃ l, x = .ok l ∧ l ⊆ e :: es := fun {n m} =>
      (ih n m).mono fun x ⟨l, hl, hsub⟩ => ⟨l, hl, fun d hd => List.mem_cons_of_mem _ (hsub hd)⟩
    cases b with
    | false => exact hskip
    | true =>
      rw [if_pos rfl]
      split
      · exact .pure ⟨[], rfl, List.nil_subset _⟩
      · refine (ih _ _).bind (fun l hl => ?_) fun f ⟨_, hf, _⟩ => nomatch hf
        obtain ⟨l', hok, hsub⟩ := hl
        obtain rfl := Except.ok.inj hok
        exact .pure ⟨_, rfl, List.cons_subset_cons e hsub⟩

/-- What is attempted is not a panic. -/
theorem isPanic_of_ne {α : Type} {y : Except Fault α} (h : y ≠ .error .panic) :
    ∀ f, y = .error f → Reader.isPanic f = false := by
  rintro f rfl
  exact decide_eq_false fun hpanic => h (congrArg Except.error hpanic)

theorem prefetchEntries_live (hco : Coherent P src r) {es : List IndexEntry}
    (hes : ∀ e ∈ es, Fetchable P src r e) :
    Prog.Keeps (Live P src r) (Reader.prefetchEntries P src es) (· = .ok ()) := by
  induction es with
  | nil => exact .pure rfl
  | cons e es ih =>
    refine .bind_ok (a := ()) ?_ (ih fun d hd => hes d (List.mem_cons_of_mem _ hd))
    rw [Reader.prefetchEntry]
    split
    · exact .pure rfl
    · refine (isCached_live _).bind (fun c _ => ?_) fun f ⟨_, hf⟩ => nomatch hf
      cases c with
      | true => exact .pure rfl
      | false =>
        -- a block that cannot be read is left to the scan
        have he := hes e List.mem_cons_self
        exact ((fetchBlock_fetchable hco he.data).attempt (isPanic_of_ne he.safe)).bind_ok (.pure rfl)

/-- **Reading ahead** leaves the table in use. -/
theorem prefetch_live (hco : Scannable P src r) {es : List IndexEntry}
    (hes : ∀ e ∈ es, Fetchable P src r e) (start : ℕ) :
    Prog.Keeps (Live P src r) (r.prefetch P src es start) (· = .ok ()) := by
  rw [Reader.prefetch]
  split
  · exact .pure rfl
  · next budget hbudget =>
    refine Prog.Keeps.bind (Q := fun x => ∃ b, x = .ok b) ?_ (fun c _ => ?_)
      fun f ⟨_, hf⟩ => nomatch hf
    · exact fun s hs => ⟨⟨_, rfl⟩, hs⟩
    · split
      · exact .pure rfl
      · have htargets : Prog.Keeps (Live P src r) (r.prefetchTargets budget es start)
            fun x => ∃ l, x = .ok l ∧ l ⊆ es := by
          have hmake : canMake 40 budget.blocks = true := by
            have h := hco.affordable
            rwa [hbudget] at h
          rw [Reader.prefetchTargets, if_pos hmake]
          split
          · exact .pure ⟨[], rfl, List.nil_subset _⟩
          · exact (prefetchTargetsLoop_live budget _ _ _).mono fun x ⟨l, hl, hsub⟩ =>
              ⟨l, hl, fun e he => List.mem_of_mem_drop (hsub he)⟩
        refine htargets.bind (fun l hl => ?_) fun f ⟨_, hf, _⟩ => nomatch hf
        obtain ⟨l', hok, hsub⟩ := hl
        obtain rfl := Except.ok.inj hok
        split
        · exact .pure rfl
        · exact prefetchEntries_live hco.toCoherent fun e he => hes e (hsub he)

end LSMEngine.Format
