import LSMEngine.Format.Get
import LSMEngine.Format.Prefetch
import LSMEngine.Format.Road
/-!
# Format — range scans

An iterator over a table whose blocks and partitions can be read or not
stands before a road (`Ahead`), and a round of its loop takes it to the
next entry, to the end of the range, to a place that cannot be read, or
over the end of a block (`body_ahead`). So a scan yields what its road
gives (`collect_live`).
-/

namespace LSMEngine.Format

variable {plan : Plan} {road : List (Option Entry)}

section

variable (P : Platform) (src : Source) (r : Reader) (start stop : Bytes)

/-- What a read of a block comes to without the caches. -/
def Reader.readsBlock (e : IndexEntry) : Except Fault Block := do
  r.validateEntry e .badBlock
  readDataBlock P src e

/-- The scan goes on behind what it cannot read. -/
def Reader.skips : Bool := r.corruptionPolicy = .skipBlock

/-! ## Where an iterator stands -/

/-- An entry of the index that leads to a block. -/
structure Reaches (e : IndexEntry) (b : SeenBlock) : Prop where
  key : e.key = b.key
  fetchable : Fetchable P src r e
  grouped : Grouped b.groups
  sized : Sized b.groups
  reads : if b.readable then r.readsBlock P src e = .ok (blockOf b.groups)
    else ∃ f, f ≠ .panic ∧ r.readsBlock P src e = .error f

/-- An entry at the top that leads to a partition. -/
structure LeadsInto (e : IndexEntry) (p : SeenPart) : Prop where
  ne_nil : p.blocks ≠ []
  reads : if p.readable then ∃ index, readIndexBlock P src e = .ok index ∧
      List.Forall₂ (Reaches P src r) index p.blocks
    else ∃ f, f ≠ .panic ∧ f ≠ .eof ∧ readIndexBlock P src e = .error f

/-- The partitions a plan has still to come to. -/
def PlanAt (plan : Plan) (ps : List SeenPart) : Prop :=
  if plan.done then ps = []
  else if r.partitioned then
    List.Forall₂ (LeadsInto P src r) (r.top.drop (r.startPlan start plan).topIndexI) ps
  else ∃ bs, bs ≠ [] ∧ ps = [⟨bs, true⟩] ∧ List.Forall₂ (Reaches P src r) r.top bs

/-- What an iterator has behind a place of the index: blocks of its
partition, and partitions. -/
structure Behind (it : RangeIterator) (place : ℕ) (bs : List SeenBlock) (ps : List SeenPart) :
    Prop where
  hstart : it.start = start
  hstop : it.stop = stop
  pending : it.pending = none
  err : it.err = none
  index : ∀ e ∈ it.partIndex, Fetchable P src r e
  blocks : List.Forall₂ (Reaches P src r) (it.partIndex.drop place) bs
  plan : PlanAt P src r start it.plan ps

/-- The road an iterator stands before: between blocks, at the start of
one, or in the middle of one. -/
inductive Ahead (it : RangeIterator) : List (Option Entry) → Prop
  | outside (bs : List SeenBlock) (ps : List SeenPart) (hblock : it.block = none)
      (h : Behind P src r start stop it it.blockI bs ps) :
      Ahead it (roadOf it.startApplied start bs ps)
  | entered (b : List (List Entry)) (bs : List SeenBlock) (ps : List SeenPart)
      (happlied : it.startApplied = true) (hblock : it.block = some (blockOf b))
      (hcursor : it.cursor = none) (hgrouped : Grouped b) (hsized : Sized b)
      (h : Behind P src r start stop it (it.blockI + 1) bs ps) :
      Ahead it (b.flatten.map some ++ stops bs ps)
  | inside (b : List (List Entry)) (c : Cursor) (qs : List (ℕ × Entry)) (bs : List SeenBlock)
      (ps : List SeenPart) (happlied : it.startApplied = true)
      (hblock : it.block = some (blockOf b)) (hcursor : it.cursor = some c)
      (hat : At (blockOf b).data c qs) (h : Behind P src r start stop it (it.blockI + 1) bs ps) :
      Ahead it ((qs.map Prod.snd).map some ++ stops bs ps)

/-- What a call of `Next` comes to: an entry, the end of the road, the end
of the range, or a place that cannot be read. Behind the end of the range
the iterator stands before what is given. -/
inductive Arrives (back : List (Option Entry)) : List (Option Entry) → Bool × RangeIterator → Prop
  | entry (e : Entry) (rest : List (Option Entry)) (it : RangeIterator)
      (hpast : isPast stop e.key = false) (hcurr : it.curr = some e.view)
      (happlied : it.startApplied = true) (h : Ahead P src r start stop it rest) :
      Arrives back (some e :: rest) (true, it)
  | done (it : RangeIterator) (herr : it.err = none) (h : Ahead P src r start stop it []) :
      Arrives back [] (false, it)
  | past (e : Entry) (rest : List (Option Entry)) (it : RangeIterator)
      (hpast : isPast stop e.key = true) (herr : it.err = none) (happlied : it.startApplied = true)
      (h : Ahead P src r start stop it back) :
      Arrives back (some e :: rest) (false, it)
  | failed (rest : List (Option Entry)) (it : RangeIterator) (herr : it.err ≠ none)
      (hskip : r.skips = false) : Arrives back (none :: rest) (false, it)

/-- The result of a round that is the last one. -/
def Round.result : Round → Option (Bool × RangeIterator)
  | .again _ => none
  | .found it => some (true, it)
  | .ended it => some (false, it)

/-- A round that is the last one. -/
def Settles (back road : List (Option Entry)) (round : Round) : Prop :=
  ∃ res, round.result = some res ∧ Arrives P src r start stop back road res

/-- How many rounds there can be. -/
def RangeIterator.turns (it : RangeIterator) (road : List (Option Entry)) : ℕ :=
  road.countP Option.isNone + if it.block.isNone && it.startApplied then 1 else 2

/-- How a round goes: it is the last one, or there are fewer to come. -/
def Goes (applied : Bool) (turns : ℕ) (road : List (Option Entry)) (round : Round) : Prop :=
  ∃ road', Skips r.skips road road' ∧
    ((∃ back, (applied = true → back = road'.tail) ∧ Settles P src r start stop back road' round) ∨
      ∃ it, round = .again it ∧ Ahead P src r start stop it road' ∧ it.turns road' < turns ∧
        (applied = true → it.startApplied = true))

end

section

variable {P : Platform} {src : Source} {r : Reader} {start stop : Bytes} {it : RangeIterator}
  {b : List (List Entry)} {bs : List SeenBlock} {ps : List SeenPart}

/-! ## Rounds in a block -/

/-- At the end of a block the iterator leaves it. -/
theorem advance_nil {c : Cursor} (happlied : it.startApplied = true)
    (hat : At (blockOf b).data c []) (h : Behind P src r start stop it (it.blockI + 1) bs ps) :
    ∃ it', r.advance it (blockOf b) c = pure (.again it') ∧ it'.block = none ∧
      it'.startApplied = true ∧ Behind P src r start stop it' it'.blockI bs ps := by
  rw [Reader.advance, h.pending, hat.next_nil]
  exact ⟨_, rfl, rfl, happlied, h.hstart, h.hstop, rfl, h.err, h.index, h.blocks, h.plan⟩

/-- Otherwise it comes to the next entry of the block. -/
theorem advance_cons {c : Cursor} {q : ℕ × Entry} {qs : List (ℕ × Entry)}
    (happlied : it.startApplied = true) (hblock : it.block = some (blockOf b))
    (hat : At (blockOf b).data c (q :: qs))
    (h : Behind P src r start stop it (it.blockI + 1) bs ps) :
    ∃ round, r.advance it (blockOf b) c = pure round ∧
      Settles P src r start stop ((qs.map Prod.snd).map some ++ stops bs ps)
        (some q.2 :: ((qs.map Prod.snd).map some ++ stops bs ps)) round := by
  obtain ⟨c', hnext, hat'⟩ := hat.next_cons
  have hpast : it.isBehind q.2.view.key = isPast stop q.2.key := by
    rw [RangeIterator.isBehind, isPast, h.hstop]
    rfl
  rw [Reader.advance, h.pending, hnext]
  dsimp only
  have hbehind : ∀ curr, Behind P src r start stop
      { it with cursor := some c', pending := none, curr := curr } (it.blockI + 1) bs ps := fun _ =>
    ⟨h.hstart, h.hstop, rfl, h.err, h.index, h.blocks, h.plan⟩
  split
  · next hstop =>
    exact ⟨_, rfl, _, rfl, .past _ _ _ (hpast ▸ hstop) h.err happlied
      (.inside b c' qs bs ps happlied hblock rfl hat' (hbehind it.curr))⟩
  · next hstop =>
    rw [hpast, Bool.not_eq_true] at hstop
    exact ⟨_, rfl, _, rfl, .entry _ _ _ hstop rfl happlied
      (.inside b c' qs bs ps happlied hblock rfl hat' (hbehind (some q.2.view)))⟩

/-- A block has entries. -/
theorem exists_piece {gs : List (List Entry)} (h : Sized gs) :
    ∃ q qs, pieces gs = q :: qs ∧ gs.flatten = q.2 :: qs.map Prod.snd := by
  have hmap := map_snd_pieces gs
  match hp : pieces gs with
  | [] =>
    rw [hp] at hmap
    exact absurd hmap.symm h.flatten_ne_nil
  | q :: qs =>
    rw [hp] at hmap
    exact ⟨q, qs, rfl, hmap.symm⟩

/-- **A block is entered at its start**, unless the start of the range is
looked for. -/
theorem position_entered (hseek : (!it.startApplied && decide (0 < it.start.length)) = false)
    (hblock : it.block = some (blockOf b)) (hcursor : it.cursor = none) (hgrouped : Grouped b)
    (hsized : Sized b) (h : Behind P src r start stop it (it.blockI + 1) bs ps) :
    ∃ round, r.position it (blockOf b) = pure round ∧
      Settles P src r start stop (b.flatten.map some ++ stops bs ps).tail
        (b.flatten.map some ++ stops bs ps) round := by
  have hat := at_start hgrouped.nonempty hsized.short
  obtain ⟨q, qs, hpieces, hflat⟩ := exists_piece hsized
  rw [hpieces] at hat
  rw [Reader.position, hcursor, hflat]
  dsimp only
  rw [if_neg (by rw [hseek]; decide)]
  have hbehind : Behind P src r start stop { it with
      startApplied := true
      cursor := some (newCursor (blockOf b) 0 (blockOf b).dataLen) } (it.blockI + 1) bs ps :=
    ⟨h.hstart, h.hstop, h.pending, h.err, h.index, h.blocks, h.plan⟩
  exact advance_cons rfl (by exact hblock) hat hbehind

/-- What `Seek` comes to. -/
theorem seek_sought (hgrouped : Grouped b) (hsized : Sized b) (hpos : 0 < start.length) :
    (sought b start = [] ∧ (blockOf b).seek start = .ok none) ∨
      ∃ (q : ℕ × Entry) (qs : List (ℕ × Entry)) (c : Cursor), sought b start = q.2 :: qs.map Prod.snd ∧
        (blockOf b).seek start = .ok (some (c, q.2.view)) ∧ At (blockOf b).data c qs := by
  obtain ⟨as, g, gs, hidx, hpick, hfound⟩ :=
    seek_blockOf hgrouped hsized.short hsized.small start
  have hsought : sought b start =
      ((pieces (g :: gs)).dropWhile fun p => p.2.key < start).map Prod.snd := by
    rw [sought, if_pos hpos, hidx, hpick.split, List.drop_left, ← map_snd_pieces (g :: gs),
      List.dropWhile_map]
    rfl
  rw [hsought]
  split at hfound
  · next hnil =>
    rw [hnil]
    exact .inl ⟨rfl, hfound⟩
  · next q qs hcons =>
    obtain ⟨c, hseek, hat⟩ := hfound
    rw [hcons]
    exact .inr ⟨q, qs, c, rfl, hseek, hat⟩

/-- How the first round in a block goes. Where the start of the range is
looked for and found behind the end of the range, the iterator stays at
the start of the block. -/
def Lands (P : Platform) (src : Source) (r : Reader) (start stop : Bytes) (seeking : Bool)
    (b : List (List Entry)) (bs : List SeenBlock) (ps : List SeenPart) (round : Round) : Prop :=
  if seeking then
    (sought b start = [] ∧ ∃ it, round = .again it ∧ it.block = none ∧ it.startApplied = true ∧
        Behind P src r start stop it it.blockI bs ps) ∨
      (sought b start ≠ [] ∧ Settles P src r start stop (b.flatten.map some ++ stops bs ps)
        ((sought b start).map some ++ stops bs ps) round)
  else Settles P src r start stop (b.flatten.map some ++ stops bs ps).tail
    (b.flatten.map some ++ stops bs ps) round

/-- **The first round in a block.** -/
theorem position_lands (hblock : it.block = some (blockOf b)) (hcursor : it.cursor = none)
    (hgrouped : Grouped b) (hsized : Sized b)
    (h : Behind P src r start stop it (it.blockI + 1) bs ps) :
    ∃ round, r.position it (blockOf b) = pure round ∧
      Lands P src r start stop (!it.startApplied && decide (0 < start.length)) b bs ps round := by
  by_cases hseek : (!it.startApplied && decide (0 < start.length)) = true
  · have hpos : 0 < start.length := by
      rw [Bool.and_eq_true, decide_eq_true_eq] at hseek
      exact hseek.2
    rw [Reader.position, hcursor]
    dsimp only
    rw [h.hstart, if_pos hseek, hseek]
    rcases seek_sought hgrouped hsized hpos with ⟨hnil, hnone⟩ | ⟨q, qs, c, hcons, hsome, hat⟩
    · rw [hnone]
      exact ⟨_, rfl, .inl ⟨hnil, _, rfl, rfl, rfl, rfl, h.hstop, h.pending, h.err, h.index, h.blocks,
        h.plan⟩⟩
    · have hpast : it.isBehind q.2.view.key = isPast stop q.2.key := by
        rw [RangeIterator.isBehind, isPast, h.hstop]
        rfl
      rw [hsome]
      dsimp only
      split
      · next hstop =>
        refine ⟨_, rfl, .inr ?_⟩
        rw [hcons]
        exact ⟨List.cons_ne_nil _ _, _, rfl, .past _ _ _ (hpast ▸ hstop) h.err rfl
          (.entered b bs ps rfl hblock rfl hgrouped hsized
            ⟨rfl, h.hstop, h.pending, h.err, h.index, h.blocks, h.plan⟩)⟩
      · next hstop =>
        rw [Bool.not_eq_true] at hstop
        refine ⟨_, rfl, .inr ?_⟩
        rw [hcons]
        exact ⟨List.cons_ne_nil _ _, _, rfl, .entry _ _ _ (hpast ▸ hstop) rfl rfl
          (.inside b c qs bs ps rfl hblock rfl hat
            ⟨rfl, h.hstop, rfl, h.err, h.index, h.blocks, h.plan⟩)⟩
  · rw [Bool.not_eq_true] at hseek
    rw [hseek]
    exact position_entered (by rwa [h.hstart]) hblock hcursor hgrouped hsized h

/-! ## Blocks -/

theorem readBlockEntry_live (hco : Coherent P src r) {e : IndexEntry} (he : DataEntry P src r e) :
    Prog.Keeps (Live P src r) (r.readBlockEntry P src e) (· = r.readsBlock P src e) := by
  refine Prog.Keeps.bind (Q := (· = r.validateEntry e .badBlock)) (.lift rfl) ?_ ?_
  · intro u hu
    refine (fetchBlock_fetchable hco he).mono fun x hx => ?_
    rw [hx, Reader.readsBlock, ← hu, ok_bind]
  · intro f hf
    rw [Reader.readsBlock, ← hf]
    rfl

theorem forall₂_tail_drop {α β : Type} {R : α → β → Prop} {l : List α} {i : ℕ} {x : β} {xs : List β}
    (h : List.Forall₂ R (l.drop i) (x :: xs)) : List.Forall₂ R (l.drop (i + 1)) xs := by
  have htail := List.forall₂_drop 1 h
  rwa [List.drop_drop] at htail

theorem exists_head_drop {α β : Type} {R : α → β → Prop} {l : List α} {i : ℕ} {x : β} {xs : List β}
    (h : List.Forall₂ R (l.drop i) (x :: xs)) :
    ∃ a, l[i]? = some a ∧ R a x := by
  obtain ⟨a, as, ha, -, hdrop⟩ := List.forall₂_cons_right_iff.mp h
  exact ⟨a, by rw [← List.head?_drop, hdrop]; rfl, ha⟩

/-- A read of a block, and what follows. -/
theorem loadBlock_of {b : SeenBlock} (hco : Scannable P src r)
    (h : Behind P src r start stop it it.blockI (b :: bs) ps) {Q : Except Fault Round → Prop}
    (hok : b.readable = true → Prog.Keeps (Live P src r)
      (r.position { it with block := some (blockOf b.groups), cursor := none, pending := none }
        (blockOf b.groups)) Q)
    (herr : b.readable = false → ∀ f, Prog.Keeps (Live P src r) (r.handleCorruption it f) Q) :
    Prog.Keeps (Live P src r) (r.loadBlock P src it) Q := by
  obtain ⟨e, hget, he⟩ := exists_head_drop h.blocks
  have hat : entryAt it.partIndex it.blockI = .ok e := by
    rw [entryAt, hget]
  have hread := readBlockEntry_live hco.toCoherent he.fetchable.data
  have hreads := he.reads
  rw [Reader.loadBlock]
  refine .bind_ok (a := e) (.lift hat) ?_
  cases hb : b.readable with
  | true =>
    rw [hb, if_pos rfl] at hreads
    rw [hreads] at hread
    refine .bind_ok (a := .ok (blockOf b.groups)) (hread.attempt fun f hf => nomatch hf) ?_
    exact .bind_ok (a := ()) (prefetch_live hco h.index _) (hok hb)
  | false =>
    rw [hb, if_neg Bool.false_ne_true] at hreads
    obtain ⟨f, hf, hreads⟩ := hreads
    rw [hreads] at hread
    have hattempt := hread.attempt (isPanic_of_ne fun h => hf (Except.error.inj h))
    exact hattempt.bind_ok (herr hb f)

/-- **A block that can be read.** -/
theorem loadBlock_lands (hco : Scannable P src r)
    (h : Behind P src r start stop it it.blockI (⟨b, true⟩ :: bs) ps) :
    Prog.Keeps (Live P src r) (r.loadBlock P src it) fun x => ∃ round, x = .ok round ∧
      Lands P src r start stop (!it.startApplied && decide (0 < start.length)) b bs ps round := by
  refine loadBlock_of hco h (fun _ => ?_) fun hb => Bool.noConfusion hb
  obtain ⟨e, -, he⟩ := exists_head_drop h.blocks
  have hbehind : Behind P src r start stop
      { it with block := some (blockOf b), cursor := none, pending := none } (it.blockI + 1) bs ps :=
    ⟨h.hstart, h.hstop, rfl, h.err, h.index, forall₂_tail_drop h.blocks, h.plan⟩
  obtain ⟨round, hround, hlands⟩ := position_lands rfl rfl he.grouped he.sized hbehind
  exact hround ▸ .pure ⟨round, rfl, hlands⟩

/-- A round that lands goes on the road. -/
theorem goes_of_lands {round : Round}
    (h : Lands P src r start stop (!it.startApplied && decide (0 < start.length)) b bs ps round) :
    Goes P src r start stop it.startApplied (it.turns (roadOf it.startApplied start (⟨b, true⟩ :: bs) ps))
      (roadOf it.startApplied start (⟨b, true⟩ :: bs) ps) round := by
  refine ⟨_, .refl _, ?_⟩
  rw [roadOf_block rfl]
  cases happlied : it.startApplied with
  | true =>
    rw [happlied] at h
    exact .inl ⟨_, fun _ => rfl, h⟩
  | false =>
    rw [happlied] at h
    by_cases hpos : 0 < start.length
    · rw [decide_eq_true hpos] at h
      rcases h with ⟨hnil, it', rfl, hblock', happlied', hbehind⟩ | ⟨-, h⟩
      · have hahead := Ahead.outside bs ps hblock' hbehind
        rw [happlied', roadOf_applied] at hahead
        refine .inr ⟨it', rfl, ?_, ?_, fun hf => absurd hf Bool.false_ne_true⟩
        · simpa [hnil] using hahead
        · simp [RangeIterator.turns, hblock', happlied', happlied, hnil]
      · exact .inl ⟨_, fun hf => absurd hf Bool.false_ne_true, h⟩
    · rw [decide_eq_false hpos] at h
      have hsought : sought b start = b.flatten := if_neg hpos
      rw [if_neg Bool.false_ne_true, hsought]
      exact .inl ⟨_, fun _ => rfl, h⟩

/-- A failed read is skipped, or it ends the scan. -/
theorem handleCorruption_eq (hdrop : r.corruptionPolicy ≠ .dropTable) (f : Fault) :
    r.handleCorruption it f = pure (if r.skips then
      .again { it with block := none, cursor := none, pending := none, blockI := it.blockI + 1 }
      else .ended { it with err := some f }) := by
  unfold Reader.handleCorruption Reader.skips
  split
  · next hpolicy => simp [hpolicy]
  · next hpolicy => exact absurd hpolicy hdrop
  · next hskip _ => rw [if_neg (by rw [decide_eq_true_eq]; exact hskip)]

/-- **A round that reads a block.** -/
theorem loadBlock_live {b : SeenBlock} (hco : Scannable P src r) (hblock : it.block = none)
    (hdrop : r.corruptionPolicy = .dropTable → none ∉ roadOf it.startApplied start (b :: bs) ps)
    (h : Behind P src r start stop it it.blockI (b :: bs) ps) :
    Prog.Keeps (Live P src r) (r.loadBlock P src it) fun x => ∃ round, x = .ok round ∧
      Goes P src r start stop it.startApplied (it.turns (roadOf it.startApplied start (b :: bs) ps))
        (roadOf it.startApplied start (b :: bs) ps) round := by
  obtain ⟨gs, readable⟩ := b
  cases readable with
  | true =>
    exact (loadBlock_lands hco h).mono fun x ⟨round, hround, hlands⟩ =>
      ⟨round, hround, goes_of_lands hlands⟩
  | false =>
    refine loadBlock_of hco h (fun hb => Bool.noConfusion hb) fun _ f => ?_
    rw [roadOf_badBlock rfl] at hdrop ⊢
    rw [handleCorruption_eq fun hpolicy => hdrop hpolicy List.mem_cons_self]
    refine .pure ⟨_, rfl, ?_⟩
    cases hskip : r.skips with
    | false =>
      refine ⟨_, .refl _, .inl ⟨_, fun _ => rfl, _, rfl, .failed _ _ ?_ hskip⟩⟩
      exact Option.some_ne_none f
    | true =>
      have hbehind : Behind P src r start stop
          { it with block := none, cursor := none, pending := none, blockI := it.blockI + 1 }
          (it.blockI + 1) bs ps :=
        ⟨h.hstart, h.hstop, rfl, h.err, h.index, forall₂_tail_drop h.blocks, h.plan⟩
      refine ⟨_, .skipped hskip (.refl _), .inr ⟨_, rfl, .outside bs ps rfl hbehind, ?_, id⟩⟩
      simp [RangeIterator.turns, hblock]

/-! ## Partitions -/

theorem fetchIndex_live (hco : Coherent P src r) {e : IndexEntry} (he : e ∈ r.top) :
    Prog.Keeps (Live P src r) (fetchIndex P src e) (· = readIndexBlock P src e) := by
  intro s hs
  have hkeeps := fetchIndex_keeps hco (.refl P src) he s hs.1
  exact ⟨hkeeps.1.elim id id, hkeeps.2, hs.2⟩

theorem planAt_done (hdone : plan.done = true) : PlanAt P src r start plan [] := by
  rw [PlanAt, if_pos hdone]

/-- The plan is at its end. -/
theorem planNext_nil (h : PlanAt P src r start plan []) :
    ∃ plan', PlanAt P src r start plan' [] ∧
      r.planNext P src start plan = pure (.error .eof, plan') := by
  unfold PlanAt at h
  rw [Reader.planNext]
  split at h
  · next hdone =>
    rw [if_pos hdone]
    exact ⟨plan, planAt_done hdone, rfl⟩
  · next hdone =>
    rw [if_neg hdone]
    split at h
    · next hpart =>
      rw [if_pos hpart, List.forall₂_nil_right_iff.mp h]
      exact ⟨_, planAt_done rfl, rfl⟩
    · obtain ⟨bs, -, hnil, -⟩ := h
      cases hnil

/-- The plan comes to the next partition. -/
theorem planNext_cons (hco : Scannable P src r) {p : SeenPart}
    (h : PlanAt P src r start plan (p :: ps)) :
    ∃ res plan', PlanAt P src r start plan' ps ∧ p.blocks ≠ [] ∧
      Prog.Keeps (Live P src r) (r.planNext P src start plan) (· = .ok (res, plan')) ∧
      if p.readable then ∃ index, res = .ok index ∧ List.Forall₂ (Reaches P src r) index p.blocks
      else ∃ f, f ≠ .eof ∧ res = .error f := by
  unfold PlanAt at h
  split at h
  · cases h
  · next hdone =>
    split at h
    · next hpart =>
      -- a split index: the entry at the top leads to the partition
      obtain ⟨e, es, he, hes, hdrop⟩ := List.forall₂_cons_right_iff.mp h
      have hmem : e ∈ r.top := List.mem_of_mem_drop (hdrop ▸ List.mem_cons_self)
      have hnext : PlanAt P src r start { r.startPlan start plan with
          topIndexI := (r.startPlan start plan).topIndexI + 1 } ps := by
        have hes' : r.top.drop ((r.startPlan start plan).topIndexI + 1) = es := by
          rw [← List.drop_drop, hdrop]
          rfl
        have hstarted : (r.startPlan start plan).started = true ∧
            (r.startPlan start plan).done = plan.done := by
          unfold Reader.startPlan
          split
          · next hstarted => exact ⟨hstarted, rfl⟩
          · exact ⟨rfl, rfl⟩
        rw [PlanAt, if_neg (by rw [hstarted.2]; exact hdone), if_pos hpart,
          Reader.startPlan, if_pos hstarted.1, hes']
        exact hes
      refine ⟨readIndexBlock P src e, _, hnext, he.ne_nil, ?_, ?_⟩
      · rw [Reader.planNext, if_neg hdone, if_pos hpart, hdrop, Reader.planLoop]
        have hreads := he.reads
        -- a read that fails does so without a panic
        have hsafe : readIndexBlock P src e ≠ .error .panic := by
          split at hreads
          · obtain ⟨index, hread, -⟩ := hreads
            rw [hread]
            exact fun hf => nomatch hf
          · obtain ⟨f, hf, -, hread⟩ := hreads
            rw [hread]
            exact fun hpanic => hf (Except.error.inj hpanic)
        refine ((fetchIndex_live hco.toCoherent hmem).attempt (isPanic_of_ne hsafe)).bind_ok ?_
        split
        · next f hf =>
          rw [hf]
          exact .pure rfl
        · next hnil =>
          -- an empty partition is passed over, but there is none
          split at hreads
          · obtain ⟨index, hread, hindex⟩ := hreads
            obtain rfl := Except.ok.inj (hnil.symm.trans hread)
            exact absurd (List.forall₂_nil_left_iff.mp hindex) he.ne_nil
          · obtain ⟨f, -, -, hread⟩ := hreads
            cases hnil.symm.trans hread
        · next index _ hindex =>
          rw [hindex]
          exact .pure rfl
      · have hreads := he.reads
        split at hreads
        · next hp =>
          rw [if_pos hp]
          exact hreads
        · next hp =>
          rw [if_neg hp]
          obtain ⟨f, -, hf, hread⟩ := hreads
          exact ⟨f, hf, hread⟩
    · next hpart =>
      -- an index in one piece is its only partition
      obtain ⟨bs, hne, hps, hindex⟩ := h
      obtain ⟨rfl, rfl⟩ := List.cons.inj hps
      have htop : r.top ≠ [] := by
        intro hnil
        rw [hnil] at hindex
        exact hne (List.forall₂_nil_left_iff.mp hindex)
      refine ⟨.ok r.top, { r.startPlan start plan with done := true }, planAt_done rfl, hne, ?_,
        r.top, rfl, hindex⟩
      rw [Reader.planNext, if_neg hdone, if_neg hpart, if_neg htop]
      exact .pure rfl

/-- A partition that can be read. -/
theorem loadPartition_part (hco : Scannable P src r) {p : SeenPart} (hp : p.readable = true)
    (h : Behind P src r start stop it it.blockI [] (p :: ps)) (fuel : ℕ) :
    ∃ it', it'.block = it.block ∧ it'.startApplied = it.startApplied ∧
      Behind P src r start stop it' it'.blockI (p.blocks.drop
        (if it.startApplied then 0 else landing (p.blocks.map SeenBlock.key) start)) ps ∧
      Prog.Keeps (Live P src r) (r.loadPartition P src (fuel + 1) it) (· = .ok (true, it')) := by
  obtain ⟨res, plan', hplan', -, hnext, hres⟩ := planNext_cons hco h.plan
  rw [hp, if_pos rfl] at hres
  obtain ⟨index, rfl, hindex⟩ := hres
  obtain rfl := h.hstart
  have hplace : (if !it.startApplied && decide (0 < it.start.length) then
      (findBlock index it.start).getD 0 else 0) =
        if it.startApplied then 0 else landing (p.blocks.map SeenBlock.key) it.start := by
    rw [findBlock_eq hindex fun _ _ hx => hx.key]
    cases it.startApplied with
    | true => rfl
    | false => simp [landing]
  refine ⟨{ it with
    plan := plan'
    partIndex := index
    blockI := if it.startApplied then 0 else landing (p.blocks.map SeenBlock.key) it.start },
    rfl, rfl, ⟨rfl, h.hstop, h.pending, h.err, fun e he => ?_, List.forall₂_drop _ hindex, hplan'⟩, ?_⟩
  · obtain ⟨b, -, hb⟩ := exists_of_forall₂_left hindex he
    exact hb.fetchable
  · rw [Reader.loadPartition]
    refine hnext.bind_ok (.pure ?_)
    exact congrArg (fun i => Except.ok (true, { it with
      plan := plan', partIndex := index, blockI := i })) hplace

/-- What the search for a partition comes to: a block, or no partition
that can be read. -/
def Finds (P : Platform) (src : Source) (r : Reader) (start stop : Bytes) (applied : Bool)
    (road : List (Option Entry)) (x : Except Fault (Bool × RangeIterator)) : Prop :=
  ∃ road' it, Skips r.skips road road' ∧
    ((x = .ok (true, it) ∧ it.block = none ∧ it.startApplied = applied ∧ ∃ b bs ps,
        road' = roadOf applied start (b :: bs) ps ∧
          Behind P src r start stop it it.blockI (b :: bs) ps) ∨
      (x = .ok (false, it) ∧ ∀ back, Arrives P src r start stop back road' (false, it)))

/-- **The next partition.** -/
theorem loadPartition_live (hco : Scannable P src r) (hblock : it.block = none)
    (hdrop : r.corruptionPolicy = .dropTable → none ∉ roadOf it.startApplied start [] ps)
    (h : Behind P src r start stop it it.blockI [] ps) {fuel : ℕ} (hfuel : ps.length < fuel) :
    Prog.Keeps (Live P src r) (r.loadPartition P src fuel it)
      (Finds P src r start stop it.startApplied (roadOf it.startApplied start [] ps)) := by
  induction ps generalizing it fuel with
  | nil =>
    obtain ⟨fuel, rfl⟩ := Nat.exists_eq_add_one_of_ne_zero (Nat.ne_zero_of_lt hfuel)
    -- the table has ended
    obtain ⟨plan', hplan', hnext⟩ := planNext_nil h.plan
    obtain rfl := h.hstart
    have hahead : Ahead P src r it.start stop { it with plan := plan' }
        (roadOf it.startApplied it.start [] []) :=
      .outside [] [] hblock ⟨rfl, h.hstop, h.pending, h.err, h.index, h.blocks, hplan'⟩
    rw [roadOf_nil] at hahead ⊢
    rw [Reader.loadPartition, hnext]
    exact .pure ⟨[], _, .refl _, .inr ⟨rfl, fun _ => .done _ h.err hahead⟩⟩
  | cons p ps ih =>
    obtain ⟨fuel, rfl⟩ := Nat.exists_eq_add_one_of_ne_zero (Nat.ne_zero_of_lt hfuel)
    cases hp : p.readable with
    | true =>
      obtain ⟨it', hblock', happlied, hbehind, hload⟩ := loadPartition_part hco hp h fuel
      -- the landing is one of the blocks, so the scan comes to a block
      have hne : p.blocks.drop
          (if it.startApplied then 0 else landing (p.blocks.map SeenBlock.key) start) ≠ [] := by
        obtain ⟨-, -, -, hblocks, -⟩ := planNext_cons hco h.plan
        have hlanding := landing_lt SeenBlock.key hblocks start
        have hpos := List.length_pos_iff.mpr hblocks
        rw [Ne, List.drop_eq_nil_iff]
        split <;> omega
      obtain ⟨b, bs, hcons⟩ := List.exists_cons_of_ne_nil hne
      rw [roadOf_part hp, hcons]
      rw [hcons] at hbehind
      exact hload.mono fun x hx => ⟨_, it', .refl _, .inl ⟨hx, hblock'.trans hblock, happlied, b, bs,
        ps, rfl, hbehind⟩⟩
    | false =>
      obtain ⟨res, plan', hplan', -, hnext, hres⟩ := planNext_cons hco h.plan
      rw [hp, if_neg Bool.false_ne_true] at hres
      obtain ⟨f, hf, rfl⟩ := hres
      rw [roadOf_badPart hp] at hdrop ⊢
      obtain rfl := h.hstart
      rw [Reader.loadPartition]
      refine hnext.bind_ok ?_
      dsimp only
      split
      · next heof => exact absurd (Except.error.inj heof) hf
      · next f' _ heq =>
        obtain rfl := Except.error.inj heq
        split
        · next hpolicy =>
          -- the partition is skipped, and the loop goes round once more
          have hskip : r.skips = true := decide_eq_true hpolicy
          have hbehind : Behind P src r it.start stop { it with
              plan := plan', partIndex := [], block := none, cursor := none, pending := none }
              it.blockI [] ps :=
            ⟨rfl, h.hstop, rfl, h.err, fun e he => absurd he List.not_mem_nil,
              by rw [List.drop_nil]; exact .nil, hplan'⟩
          have hrest := @ih { it with
            plan := plan', partIndex := [], block := none, cursor := none, pending := none } rfl
            (fun hd hmem => hdrop hd (List.mem_cons_of_mem _ hmem)) hbehind _
            (Nat.lt_of_succ_lt_succ hfuel)
          exact hrest.mono fun x ⟨road', it', hskips, hx⟩ => ⟨road', it', .skipped hskip hskips, hx⟩
        · next hpolicy => exact absurd List.mem_cons_self (hdrop hpolicy)
        · next hskip _ =>
          exact .pure ⟨_, _, .refl _, .inr ⟨rfl, fun _ => .failed _ _ (Option.some_ne_none f)
            (decide_eq_false hskip)⟩⟩
      · next heq => cases heq

/-! ## Rounds -/

theorem Goes.of_skips {applied : Bool} {turns turns' : ℕ} {road' : List (Option Entry)}
    {round : Round} (hskips : Skips r.skips road road') (hturns : turns' ≤ turns)
    (h : Goes P src r start stop applied turns' road' round) :
    Goes P src r start stop applied turns road round := by
  obtain ⟨road'', hskips', h⟩ := h
  refine ⟨road'', hskips.trans hskips', h.imp_right ?_⟩
  rintro ⟨it, hround, hahead, hlt, happlied⟩
  exact ⟨it, hround, hahead, hlt.trans_le hturns, happlied⟩

theorem PlanAt.length_le (h : PlanAt P src r start plan ps) : ps.length ≤ r.top.length := by
  unfold PlanAt at h
  split at h
  · rw [h]
    exact Nat.zero_le _
  · split at h
    · have hlen := h.length_eq
      rw [List.length_drop] at hlen
      omega
    · obtain ⟨bs, hne, rfl, htop⟩ := h
      have hpos := List.length_pos_iff.mpr hne
      rw [htop.length_eq, List.length_singleton]
      exact hpos

/-- **A round of the loop.** -/
theorem body_ahead (hco : Scannable P src r) (hdrop : r.corruptionPolicy = .dropTable → none ∉ road)
    (h : Ahead P src r start stop it road) :
    Prog.Keeps (Live P src r) (r.body P src it) fun x => ∃ round, x = .ok round ∧
      Goes P src r start stop it.startApplied (it.turns road) road round := by
  cases h with
  | outside bs ps hblock h =>
    -- between blocks: the next block of the partition, or the next partition
    rw [Reader.body, hblock]
    dsimp only
    cases bs with
    | cons b bs =>
      have hlt : ¬ it.partIndex.length ≤ it.blockI := by
        intro hle
        have hlen := h.blocks.length_eq
        rw [List.drop_eq_nil_of_le hle, List.length_nil, List.length_cons] at hlen
        omega
      rw [if_neg hlt]
      exact loadBlock_live hco hblock hdrop h
    | nil =>
      have hle : it.partIndex.length ≤ it.blockI :=
        List.drop_eq_nil_iff.mp (List.forall₂_nil_right_iff.mp h.blocks)
      rw [if_pos hle]
      refine (loadPartition_live hco hblock hdrop h (Nat.lt_succ_of_le h.plan.length_le)).bind
        (fun res hres => ?_) fun f hf => ?_
      · obtain ⟨road', it', hskips, hres⟩ := hres
        rcases hres with ⟨hok, hblock', happlied, b, bs, ps', rfl, hbehind⟩ | ⟨hok, harrives⟩
        · obtain rfl := Except.ok.inj hok
          rw [← happlied] at hskips hdrop ⊢
          have hload := loadBlock_live hco hblock'
            (fun hd hmem => hdrop hd (hskips.suffix.mem hmem)) hbehind
          refine hload.mono fun x ⟨round, hround, hgoes⟩ => ⟨round, hround, hgoes.of_skips hskips ?_⟩
          -- what was skipped has used up turns
          have hcount := hskips.countP_le
          simp only [RangeIterator.turns, hblock, hblock', ← happlied]
          omega
        · obtain rfl := Except.ok.inj hok
          exact .pure ⟨_, rfl, road', hskips, .inl ⟨_, fun _ => rfl, _, rfl, harrives _⟩⟩
      · obtain ⟨road', it', -, ⟨hok, -⟩ | ⟨hok, -⟩⟩ := hf <;> cases hok
  | entered b bs ps happlied hblock hcursor hgrouped hsized h =>
    -- before the first entry of a block
    have hseek : (!it.startApplied && decide (0 < it.start.length)) = false := by
      rw [happlied]
      rfl
    obtain ⟨round, hround, hsettles⟩ := position_entered hseek hblock hcursor hgrouped hsized h
    rw [Reader.body, hblock]
    dsimp only
    rw [hround]
    exact .pure ⟨round, rfl, _, .refl _, .inl ⟨_, fun _ => rfl, hsettles⟩⟩
  | inside b c qs bs ps happlied hblock hcursor hat h =>
    -- inside a block: its next entry, or its end
    rw [Reader.body, hblock]
    dsimp only
    rw [Reader.position, hcursor]
    dsimp only
    cases qs with
    | nil =>
      obtain ⟨it', hround, hblock', happlied', hbehind⟩ := advance_nil (r := r) happlied hat h
      have hahead := Ahead.outside bs ps hblock' hbehind
      rw [happlied', roadOf_applied] at hahead
      rw [hround]
      refine .pure ⟨_, rfl, _, .refl _, .inr ⟨it', rfl, hahead, ?_, fun _ => happlied'⟩⟩
      simp [RangeIterator.turns, hblock, hblock', happlied']
    | cons q qs =>
      obtain ⟨round, hround, hsettles⟩ := advance_cons happlied hblock hat h
      rw [hround]
      exact .pure ⟨round, rfl, _, .refl _, .inl ⟨_, fun _ => rfl, hsettles⟩⟩

/-! ## Whole scans -/

/-- A call of `Next`. -/
def Yields (P : Platform) (src : Source) (r : Reader) (start stop : Bytes) (applied : Bool)
    (road : List (Option Entry)) (x : Except Fault (Option (Bool × RangeIterator))) : Prop :=
  ∃ road' back res, Skips r.skips road road' ∧ (applied = true → back = road'.tail) ∧
    x = .ok (some res) ∧ Arrives P src r start stop back road' res

/-- A loop with enough rounds. -/
theorem nextLoop_live (hco : Scannable P src r)
    (hdrop : r.corruptionPolicy = .dropTable → none ∉ road) (h : Ahead P src r start stop it road)
    {fuel : ℕ} (hfuel : it.turns road ≤ fuel) :
    Prog.Keeps (Live P src r) (r.nextLoop P src fuel it)
      (Yields P src r start stop it.startApplied road) := by
  induction fuel generalizing it road with
  | zero =>
    unfold RangeIterator.turns at hfuel
    split at hfuel <;> omega
  | succ fuel ih =>
    rw [Reader.nextLoop]
    refine (body_ahead hco hdrop h).bind (fun round hround => ?_) fun f ⟨_, hf, _⟩ => nomatch hf
    obtain ⟨round', hok, road', hskips, hgoes⟩ := hround
    obtain rfl := Except.ok.inj hok
    rcases hgoes with ⟨back, hback, res, hres, harrives⟩ | ⟨it', rfl, hahead, hlt, happlied⟩
    · have hyields : Yields P src r start stop it.startApplied road (.ok (some res)) :=
        ⟨road', back, res, hskips, hback, rfl, harrives⟩
      cases round with
      | again => cases hres
      | found => exact .pure (Option.some.inj hres ▸ hyields)
      | ended => exact .pure (Option.some.inj hres ▸ hyields)
    · have hrest := ih (fun hd hmem => hdrop hd (hskips.suffix.mem hmem)) hahead (by omega)
      refine hrest.mono fun x ⟨road'', back, res, hskips', hback, hx⟩ => ?_
      exact ⟨road'', back, res, hskips.trans hskips', fun ha => hback (happlied ha), hx⟩

theorem next_live {fuel : ℕ} {Q : Except Fault (Option (Bool × RangeIterator)) → Prop}
    (h : Prog.Keeps (Live P src r) (r.nextLoop P src fuel it) Q) :
    Prog.Keeps (Live P src r) (r.next P src fuel it) Q := by
  intro s hs
  have hdropped : isDropped.exec s = (.ok false, s) := by
    rw [isDropped, Prog.exec_mk, hs.2]
  rw [Reader.next, Prog.exec_bind_ok hdropped]
  exact h s hs

/-- **A scan yields what its road gives.** -/
theorem collect_live (hco : Scannable P src r)
    (hdrop : r.corruptionPolicy = .dropTable → none ∉ road) (h : Ahead P src r start stop it road)
    {fuel n : ℕ} (hfuel : road.countP Option.isNone + 2 ≤ fuel) (hn : road.length < n) :
    Prog.Keeps (Live P src r) (r.collect P src fuel n it) fun x =>
      ∃ last, x = .ok (some ((gives r.skips stop road).1, last)) ∧
        (last.err = none ↔ (gives r.skips stop road).2 = false) := by
  induction n generalizing it road with
  | zero => omega
  | succ n ih =>
    have hturns : it.turns road ≤ fuel := by
      unfold RangeIterator.turns
      split <;> omega
    rw [Reader.collect]
    refine (next_live (nextLoop_live hco hdrop h hturns)).bind (fun y hy => ?_) fun f hf => ?_
    · obtain ⟨road', back, res, hskips, -, hok, harrives⟩ := hy
      obtain rfl := Except.ok.inj hok
      rw [hskips.gives_eq]
      cases harrives with
      | entry e rest it' hpast hcurr _ hahead =>
        have hsub : rest <:+ road := (List.suffix_cons _ _).trans hskips.suffix
        have hcount := hsub.sublist.countP_le (p := Option.isNone)
        have hlen := hskips.suffix.length_le
        rw [List.length_cons] at hlen
        have htail := ih (fun hd hmem => hdrop hd (hsub.mem hmem)) hahead (by omega) (by omega)
        refine htail.bind (fun z hz => ?_) fun f ⟨_, hf, _⟩ => nomatch hf
        obtain ⟨last, hz, herr⟩ := hz
        obtain rfl := Except.ok.inj hz
        rw [gives, if_neg (by rw [hpast]; decide)]
        refine .pure ⟨last, ?_, herr⟩
        rw [hcurr]
        rfl
      | done it' herr _ => exact .pure ⟨it', rfl, by simp [herr, gives]⟩
      | past e rest it' hpast herr =>
        rw [gives, if_pos hpast]
        exact .pure ⟨it', rfl, by simp [herr]⟩
      | failed rest it' herr hskip =>
        rw [gives, hskip, if_neg Bool.false_ne_true]
        exact .pure ⟨it', rfl, by simp [herr]⟩
    · obtain ⟨_, _, _, _, _, hf, _⟩ := hf
      cases hf

end

end LSMEngine.Format
