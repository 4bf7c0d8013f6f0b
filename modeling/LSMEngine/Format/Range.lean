import LSMEngine.Format.Opening
import LSMEngine.Format.Scan
/-!
# Format — the round trip of range scans

A scan of a table that `Flush` has written yields the entries of its
range in ascending order, each once, and ends without an error, whatever
was looked up before (`range_flush`). As for lookups the keys have to be
different, and every length has to fit its field.
-/

namespace LSMEngine.Format

variable {p : Blocks}

/-! ## What a reader can see of a table -/

/-- A block of a table. -/
def Reader.seeBlock (P : Platform) (src : Source) (r : Reader) (e : IndexEntry)
    (gs : List (List Entry)) : SeenBlock :=
  ⟨gs, (r.readsBlock P src e).isOk⟩

/-- A partition of the index. -/
def Reader.seePart (P : Platform) (src : Source) (r : Reader) (e : IndexEntry) (p : Blocks) :
    SeenPart :=
  match readIndexBlock P src e with
  | .ok index => ⟨List.zipWith (r.seeBlock P src) index p, true⟩
  | .error _ => ⟨p.map fun gs => ⟨gs, false⟩, false⟩

/-- A table: its blocks and the partitions of its index, and which of them
the source has. -/
def Reader.see (P : Platform) (src : Source) (r : Reader) (parts : List Blocks) :
    List SeenPart :=
  if r.partitioned then List.zipWith (r.seePart P src) r.top parts
  else parts.map fun p => ⟨List.zipWith (r.seeBlock P src) r.top p, true⟩

/-- The index of a reader leads to what is seen of a table. -/
structure Charts (P : Platform) (src : Source) (r : Reader) (seen : List SeenPart) : Prop where
  ne_nil : seen ≠ []
  sequenced : Sequenced seen
  index : if r.partitioned then
      List.Forall₂ (fun e p => e.key = p.key ∧ LeadsInto P src r e p) r.top seen
    else ∃ bs, bs ≠ [] ∧ seen = [⟨bs, true⟩] ∧ List.Forall₂ (Reaches P src r) r.top bs
  coherent : Scannable P src r

section

variable {P : Platform} {good src : Source} {r r' : Reader} {parts : List Blocks}
  {seen : List SeenPart}

theorem forall₂_zipWith {α β γ : Type} {R : α → β → Prop} {S : α → γ → Prop} {f : α → β → γ}
    {l : List α} {m : List β} (h : List.Forall₂ R l m) (hRS : ∀ a ∈ l, ∀ b ∈ m, R a b → S a (f a b)) :
    List.Forall₂ S l (List.zipWith f l m) := by
  induction h with
  | nil => exact .nil
  | cons hab _ ih =>
    exact .cons (hRS _ List.mem_cons_self _ List.mem_cons_self hab) (ih fun a ha b hb =>
      hRS a (List.mem_cons_of_mem _ ha) b (List.mem_cons_of_mem _ hb))

theorem map_zipWith_right {α β γ : Type} {R : α → β → Prop} {f : α → β → γ} {g : γ → β} {l : List α}
    {m : List β} (h : List.Forall₂ R l m) (hfg : ∀ a b, R a b → g (f a b) = b) :
    (List.zipWith f l m).map g = m := by
  induction h with
  | nil => rfl
  | cons hab _ ih => rw [List.zipWith_cons_cons, List.map_cons, hfg _ _ hab, ih]

/-- A block is read as it was written, or it cannot be read. -/
theorem readsBlock_cases (hdeg : Degrades P good src) {e : IndexEntry} {gs : List (List Entry)}
    (hread : readDataBlock P good e = .ok (blockOf gs)) :
    readDataBlock P src e ≠ .error .panic ∧
      if (r.readsBlock P src e).isOk then r.readsBlock P src e = .ok (blockOf gs)
      else ∃ f, f ≠ .panic ∧ r.readsBlock P src e = .error f := by
  have hdata : Worse (readDataBlock P src e) (.ok (blockOf gs)) := hread ▸ hdeg.data e
  have hvalid : r.validateEntry e .badBlock = .ok () ∨ r.validateEntry e .badBlock = .error .badBlock := by
    unfold Reader.validateEntry
    split
    · exact .inr rfl
    · split
      · exact .inr rfl
      · split
        · exact .inr rfl
        · exact .inl rfl
  refine ⟨?_, ?_⟩
  · rcases hdata with hok | ⟨f, hf, herr⟩
    · rw [hok]
      exact fun h => nomatch h
    · rw [herr]
      exact fun h => hf (Except.error.inj h)
  · unfold Reader.readsBlock
    rcases hvalid with hvalid | hvalid
    · rw [hvalid, ok_bind]
      rcases hdata with hok | ⟨f, hf, herr⟩
      · rw [hok]
        exact rfl
      · rw [herr]
        exact ⟨f, hf, rfl⟩
    · rw [hvalid]
      exact ⟨.badBlock, by decide, rfl⟩

theorem SeenPart.entries_eq (p : SeenPart) :
    p.entries = (p.blocks.map SeenBlock.groups).flatten.flatten := by
  rw [SeenPart.entries, List.flatMap_def, List.flatten_flatten, List.map_map]
  rfl

theorem groups_seeBlock {index : List IndexEntry} (h : List.Forall₂ (BlockAt P good r') index p) :
    (List.zipWith (r.seeBlock P src) index p).map SeenBlock.groups = p :=
  map_zipWith_right h fun _ _ _ => rfl

theorem groups_seePart (hdeg : Degrades P good src) {e : IndexEntry} (h : PartAt P good r' e p) :
    (r.seePart P src e p).blocks.map SeenBlock.groups = p := by
  obtain ⟨index, hread, hblocks⟩ := h.read
  unfold Reader.seePart
  split
  · next index' hread' =>
    obtain rfl := Except.ok.inj (hread.symm.trans (ok_of_degraded (hdeg.index e) hread'))
    exact groups_seeBlock hblocks
  · rw [List.map_map]
    exact List.map_id' _

section

variable (h : Serves P good r' parts)
include h

/-- Nothing is left out of what is seen of a table. -/
theorem groups_see (htop : r'.top = r.top) (hpart : r'.partitioned = r.partitioned)
    (hdeg : Degrades P good src) :
    (r.see P src parts).map (fun p => p.blocks.map SeenBlock.groups) = parts := by
  have hindex := h.index
  rw [htop, hpart] at hindex
  unfold Reader.see
  split
  · next hp =>
    rw [if_pos hp] at hindex
    exact map_zipWith_right hindex fun e p hx => groups_seePart hdeg hx
  · next hp =>
    rw [if_neg hp] at hindex
    obtain ⟨bs, rfl, hblocks⟩ := hindex
    exact congrArg (fun p => [p]) (groups_seeBlock hblocks)

theorem entries_see (htop : r'.top = r.top) (hpart : r'.partitioned = r.partitioned)
    (hdeg : Degrades P good src) :
    (r.see P src parts).flatMap SeenPart.entries = parts.flatten.flatten.flatten := by
  conv_rhs => rw [flatten_parts, ← groups_see h htop hpart hdeg, List.map_map]
  rw [List.flatMap_def]
  exact congrArg List.flatten (List.map_congr_left fun p _ => p.entries_eq)

theorem reaches_seeBlock (hdeg : Degrades P good src) (hp : p ∈ parts) {index : List IndexEntry}
    (hindex : List.Forall₂ (BlockAt P good r') index p) (hdata : ∀ e ∈ index, DataEntry P src r e) :
    List.Forall₂ (Reaches P src r) index (List.zipWith (r.seeBlock P src) index p) := by
  refine forall₂_zipWith hindex fun e he gs hgs hx => ?_
  obtain ⟨hsafe, hreads⟩ := readsBlock_cases hdeg hx.read
  exact ⟨hx.key, ⟨hdata e he, hsafe⟩, h.grouped hp hgs, h.sized p hp gs hgs, hreads⟩

theorem leadsInto_seePart (hpart : r.partitioned = true) (hdeg : Degrades P good src)
    {e : IndexEntry} (he : e ∈ r.top) (hp : p ∈ parts) (hx : PartAt P good r' e p) :
    LeadsInto P src r e (r.seePart P src e p) := by
  have hne : (r.seePart P src e p).blocks ≠ [] := by
    intro hnil
    have hgroups := groups_seePart (r := r) hdeg hx
    rw [hnil] at hgroups
    exact h.nonempty p hp hgroups.symm
  refine ⟨hne, ?_⟩
  obtain ⟨index, hread, hblocks⟩ := hx.read
  unfold Reader.seePart
  split
  · next index' hread' =>
    obtain rfl := Except.ok.inj (hread.symm.trans (ok_of_degraded (hdeg.index e) hread'))
    refine ⟨index, hread', reaches_seeBlock h hdeg hp hblocks fun d hd => ?_⟩
    rw [DataEntry, if_pos hpart]
    exact ⟨e, he, index, hread', hd⟩
  · next f hf =>
    refine ⟨f, ?_, (returns_readIndexBlock e).2 f hf, hf⟩
    rcases hdeg.index e with heq | ⟨g, hg, herr⟩
    · rw [heq, hread] at hf
      cases hf
    · obtain rfl := Except.error.inj (hf.symm.trans herr)
      exact hg

/-- **A reader of a table some of which cannot be read.** Its limit may
keep it from more of the table than the one that serves it. -/
theorem charts_see (htop : r'.top = r.top) (hpart : r'.partitioned = r.partitioned)
    (hdeg : Degrades P good src) (hco : Scannable P src r) :
    Charts P src r (r.see P src parts) := by
  have hgroups := groups_see h htop hpart hdeg
  have hmem : ∀ p ∈ r.see P src parts, p.blocks.map SeenBlock.groups ∈ parts := by
    intro p hp
    have hin := List.mem_map_of_mem (f := fun p : SeenPart => p.blocks.map SeenBlock.groups) hp
    rwa [hgroups] at hin
  refine ⟨?_, ⟨fun p hp hnil => ?_, fun p hp b hb => ?_, ?_⟩, ?_, hco⟩
  · intro hnil
    rw [hnil] at hgroups
    exact h.ne_nil hgroups.symm
  · exact h.nonempty _ (hmem p hp) (by rw [hnil]; rfl)
  · exact h.grouped (hmem p hp) (List.mem_map_of_mem hb)
  · rw [entries_see h htop hpart hdeg]
    exact h.sorted
  · have hindex := h.index
    rw [htop, hpart] at hindex
    unfold Reader.see
    split
    · next hp =>
      rw [if_pos hp] at hindex
      refine forall₂_zipWith hindex fun e he p hmem hx => ⟨?_, leadsInto_seePart h hp hdeg he hmem hx⟩
      rw [hx.key, partKey, SeenPart.key, SeenPart.entries_eq, groups_seePart hdeg hx]
    · next hp =>
      rw [if_neg hp] at hindex
      obtain ⟨bs, rfl, hblocks⟩ := hindex
      have hreaches := reaches_seeBlock h hdeg List.mem_cons_self hblocks fun e he => by
        rw [DataEntry, if_neg hp]
        exact he
      refine ⟨_, fun hnil => ?_, rfl, hreaches⟩
      rw [hnil, List.forall₂_nil_right_iff] at hreaches
      rw [hreaches] at hblocks
      exact h.nonempty bs List.mem_cons_self (List.forall₂_nil_left_iff.mp hblocks)

end

/-- A scan that has not started is before the partition it lands in. -/
theorem Charts.behind (h : Charts P src r seen) (start stop : Bytes) :
    Behind P src r start stop (range start stop) (range start stop).blockI []
      (seen.drop (landing (seen.map SeenPart.key) start)) := by
  refine ⟨rfl, rfl, rfl, rfl, fun e he => absurd he List.not_mem_nil, .nil, ?_⟩
  have hindex := h.index
  show PlanAt P src r start ⟨0, false, false⟩ _
  rw [PlanAt, if_neg Bool.false_ne_true]
  split at hindex
  · next hpart =>
    have hplace : (r.startPlan start ⟨0, false, false⟩).topIndexI =
        landing (seen.map SeenPart.key) start := by
      rw [landing, ← findBlock_eq hindex fun _ _ hx => hx.1]
      show (if r.partitioned ∧ 0 < start.length then (findBlock r.top start).getD 0 else 0) = _
      exact if_congr (and_iff_right hpart) rfl rfl
    rw [if_pos hpart, hplace]
    exact List.forall₂_drop _ (hindex.imp fun _ _ hx => hx.2)
  · next hpart =>
    obtain ⟨bs, hne, rfl, hblocks⟩ := hindex
    have hplace := landing_lt SeenPart.key (List.cons_ne_nil (⟨bs, true⟩ : SeenPart) []) start
    rw [if_neg hpart, Nat.lt_one_iff.mp hplace]
    exact ⟨bs, hne, rfl, hblocks⟩

/-- The road of a scan. -/
theorem Charts.ahead (h : Charts P src r seen) (start stop : Bytes) :
    Ahead P src r start stop (range start stop) (scanRoad start seen) :=
  .outside [] _ rfl (h.behind start stop)

/-- A table that is served can be read. -/
theorem whole_see (h : Serves P src r parts) : Whole (r.see P src parts) := by
  have hblocks : ∀ {index : List IndexEntry} {p : Blocks},
      List.Forall₂ (BlockAt P src r) index p →
        ∀ b ∈ List.zipWith (r.seeBlock P src) index p, b.readable = true := by
    intro index p hindex
    have hall : List.Forall₂ (fun _ (b : SeenBlock) => b.readable = true) index
        (List.zipWith (r.seeBlock P src) index p) := by
      refine forall₂_zipWith hindex fun e _ gs _ hx => ?_
      rw [Reader.seeBlock, Reader.readsBlock, hx.valid, ok_bind, hx.read]
      rfl
    intro b hb
    obtain ⟨e, -, he⟩ := exists_of_forall₂_left hall.flip hb
    exact he
  have hindex := h.index
  unfold Reader.see
  split
  · next hpart =>
    rw [if_pos hpart] at hindex
    have hall : List.Forall₂ (fun _ (p : SeenPart) => p.readable = true ∧
        ∀ b ∈ p.blocks, b.readable = true) r.top (List.zipWith (r.seePart P src) r.top parts) := by
      refine forall₂_zipWith hindex fun e _ p _ hx => ?_
      obtain ⟨index, hread, hindex⟩ := hx.read
      rw [Reader.seePart, hread]
      exact ⟨rfl, hblocks hindex⟩
    intro p hp
    obtain ⟨e, -, he⟩ := exists_of_forall₂_left hall.flip hp
    exact he
  · next hpart =>
    rw [if_neg hpart] at hindex
    obtain ⟨bs, rfl, hindex⟩ := hindex
    intro p hp
    obtain rfl := List.mem_singleton.mp hp
    exact ⟨rfl, hblocks hindex⟩

/-- **A scan of a table that is served.** -/
theorem collect_served (h : Serves P src r parts) (hbudget : affordable r.prefetchBudget)
    (hlt : parts.flatten.flatten.flatten.Pairwise fun a b => a.key < b.key) (start stop : Bytes)
    {fuel n : ℕ} (hn : parts.flatten.flatten.flatten.length < n) :
    Prog.Keeps (Live P src r) (r.collect P src (fuel + 2) n (range start stop)) fun x =>
      ∃ last, x = .ok (some (parts.flatten.flatten.flatten.filter fun e =>
        inRange start stop e.key, last)) ∧ last.err = none := by
  have hcharts := charts_see h rfl rfl (.refl P src) ⟨h.coherent, hbudget⟩
  have hentries := entries_see h rfl rfl (.refl P src)
  have hwhole := whole_see h
  generalize r.see P src parts = seen at hcharts hentries hwhole
  rw [← hentries] at hlt hn ⊢
  have hnone := hwhole.none_not_mem start
  have hcount : (scanRoad start seen).countP Option.isNone + 2 ≤ fuel + 2 := by
    have hzero := countP_isNone hnone
    omega
  have hscan := collect_live hcharts.coherent (fun _ => hnone) (hcharts.ahead start stop) hcount
    ((hwhole.length_le start).trans_lt hn)
  rw [gives_of_not_mem hnone, gives_scanRoad_skip hcharts.sequenced hcharts.ne_nil hlt,
    hwhole.reduceOption_stops] at hscan
  exact hscan.mono fun x ⟨last, hx, herr⟩ => ⟨last, hx, herr.mpr rfl⟩

end

section

variable {P : Platform} {raw : Options} {entries : List Entry}

theorem prefetchBudget_of_flush (hvalid : raw.normalize.validate = .ok ()) (hne : entries ≠ [])
    (hkeys : ∀ e ∈ entries, e.key ≠ []) (hfits : Fits P raw.normalize (blocksOf raw entries))
    {t : Table} (h : flush P raw entries = .ok t) :
    t.reader.prefetchBudget = newPrefetchBudget raw.normalize.snapshot := by
  obtain ⟨ws, c, f, -, -, hflush⟩ := flush_eq hvalid hne hkeys hfits.opens
  obtain rfl := Except.ok.inj (h.symm.trans hflush)
  exact newPrefetchBudget_normalize raw

/-- The iterator over a broken table, at its only block. -/
def brokenAt (i : IndexEntry) : RangeIterator :=
  { range [] [] with plan := ⟨0, true, true⟩, partIndex := [i] }

theorem loadPartition_broken {t : Table} {i : IndexEntry} (h : Broken t i) :
    (t.reader.loadPartition .plain (fileSource t.file) (t.reader.top.length + 1)
      (range [] [])).exec t.state = (.ok (true, brokenAt i), t.state) := by
  have hpart : ¬ t.reader.partitioned = true := by
    rw [h.partitioned]
    decide
  have hplan : (t.reader.planNext .plain (fileSource t.file) [] ⟨0, false, false⟩).exec t.state =
      (.ok (.ok [i], ⟨0, true, true⟩), t.state) := by
    rw [Reader.planNext, if_neg (by decide), if_neg hpart, h.top, if_neg (List.cons_ne_nil _ _),
      Reader.startPlan, if_neg (by decide), if_neg fun hp => hpart hp.1]
    rfl
  rw [Reader.loadPartition]
  exact Prog.exec_bind_ok hplan

/-- The first round over a broken table is the last one. -/
theorem body_broken {t : Table} {i : IndexEntry} (h : Broken t i) :
    (t.reader.body .plain (fileSource t.file) (range [] [])).exec t.state =
      (.ok (.ended { brokenAt i with err := some .badBlock }), t.state) := by
  have hread : (Prog.attempt Reader.isPanic
      (t.reader.readBlockEntry .plain (fileSource t.file) i)).exec t.state =
        (.ok (.error .badBlock), t.state) := by
    rw [Prog.attempt, Prog.exec_mk, readBlockEntry_broken h]
    rfl
  have hload : (t.reader.loadBlock .plain (fileSource t.file) (brokenAt i)).exec t.state =
      (.ok (.ended { brokenAt i with err := some .badBlock }), t.state) := by
    have hentry : entryAt (brokenAt i).partIndex (brokenAt i).blockI = .ok i := rfl
    rw [Reader.loadBlock, hentry, Prog.exec_bind_ok (Prog.exec_lift _ _), Prog.exec_bind_ok hread]
    dsimp only
    rw [Reader.handleCorruption, h.policy]
    rfl
  exact (Prog.exec_bind_ok (loadPartition_broken h)).trans hload

end

end LSMEngine.Format
