import LSMEngine.Format.Range
import Mathlib.Data.List.Infix
/-!
# Format — iterators that have ended

`Next` can be called again after it has returned false. An iterator that
has come to the end of its range, or of the table, stays there: the
entries behind it are not below the end of the range either. The one
exception is the search for the start of the range. Where it finds an
entry behind the end of the range, the iterator keeps the block without a
cursor, and the next call reads the block from its first entry on, which
may be below the end of the range (`nexts_false_iff`).
-/

namespace LSMEngine.Format

/-- The search for the start of a range finds an entry behind the end of
the range, in a block that starts before it. -/
def Reenters (parts : List Blocks) (start stop : Bytes) : Prop :=
  ∃ p b e, parts[landing (parts.map partKey) start]? = some p ∧
    p[landing (p.map blockKey) start]? = some b ∧
    b.flatten.find? (fun e => start ≤ e.key) = some e ∧
    isPast stop (blockKey b) = false ∧ isPast stop e.key = true

/-- Once false, always false. -/
def StaysFalse (results : List Bool) : Prop := results.Pairwise fun a b => a = false → b = false

section

variable {P : Platform} {src : Source} {r : Reader} {start stop : Bytes} {it : RangeIterator}
  {seen : List SeenPart} {fuel : ℕ}

/-- The key `Seek` comes to, whatever the groups of the block. -/
theorem head_sought {gs : List (List Entry)} (h : Grouped gs) (start : Bytes) :
    (sought gs start).head?.map Entry.key =
      (gs.flatten.find? fun e => start ≤ e.key).map Entry.key := by
  obtain ⟨as, bs, hsplit, hsought, hhead⟩ := exists_sought h start
  have hfind : (bs.find? fun e => start ≤ e.key) =
      (bs.dropWhile fun e => e.key < start).head? := by
    rw [List.find?_eq_head?_dropWhile_not]
    exact congrArg (fun p => (bs.dropWhile p).head?)
      (funext fun e => decide_not.symm.trans (decide_eq_decide.mpr not_le))
  have hsorted := h.sorted
  rw [hsplit] at hsorted
  rw [hsought, ← hfind, hsplit, List.find?_append]
  cases hbefore : as.find? fun e => start ≤ e.key with
  | none => rfl
  | some x =>
    -- an entry that is skipped is not below the start: the first one read has its key
    have hx := List.mem_of_find?_eq_some hbefore
    have hstart : start ≤ x.key := by simpa using List.find?_some hbefore
    obtain ⟨z, zs, rfl, hz⟩ := hhead (List.ne_nil_of_mem hx)
    have hxz : x.key ≤ z.key := (List.pairwise_append.mp hsorted).2.2 x hx z List.mem_cons_self
    rw [List.find?_cons_of_pos (by simpa using hstart.trans hxz)]
    exact congrArg some ((le_antisymm hxz (hz.trans hstart)).symm)

/-! ## Calls -/

theorem Yields.of_nil {applied : Bool} {x : Except Fault (Option (Bool × RangeIterator))}
    (h : Yields P src r start stop applied [] x) : Yields P src r start stop true [] x := by
  obtain ⟨road', back, res, hskips, -, hx, harrives⟩ := h
  obtain rfl := hskips.eq_of_not_mem List.not_mem_nil
  cases harrives with
  | done it herr hahead => exact ⟨[], _, _, .refl _, fun _ => rfl, hx, .done it herr hahead⟩

theorem yields_next (hco : Scannable P src r) {road : List (Option Entry)} (hnone : none ∉ road)
    (h : Ahead P src r start stop it road) (happlied : it.startApplied = true ∨ road = []) :
    Prog.Keeps (Live P src r) (r.next P src (fuel + 2) it)
      (Yields P src r start stop true road) := by
  have hturns : it.turns road ≤ fuel + 2 := by
    have hzero := countP_isNone hnone
    unfold RangeIterator.turns
    split <;> omega
  have hnext := next_live (nextLoop_live hco (fun _ => hnone) h hturns)
  rcases happlied with happlied | rfl
  · rwa [happlied] at hnext
  · exact hnext.mono fun x hx => hx.of_nil

/-- How many entries of a road come before the end of the range. -/
def due (stop : Bytes) (road : List (Option Entry)) : ℕ :=
  (road.reduceOption.takeWhile fun e => !isPast stop e.key).length

theorem due_cons (stop : Bytes) (e : Entry) (rest : List (Option Entry)) :
    due stop (some e :: rest) = if isPast stop e.key then 0 else due stop rest + 1 := by
  rw [due, List.reduceOption_cons_of_some, List.takeWhile_cons]
  cases isPast stop e.key <;> rfl

/-- The entries behind the end of the range stay behind it. -/
theorem due_eq_zero {e : Entry} {rest : List (Option Entry)}
    (hsorted : (some e :: rest).reduceOption.Pairwise fun a b => a.key ≤ b.key)
    (hpast : isPast stop e.key = true) : due stop rest = 0 := by
  rw [List.reduceOption_cons_of_some] at hsorted
  rw [due]
  cases hrest : rest.reduceOption with
  | nil => rfl
  | cons d ds =>
    have hle := (List.pairwise_cons.mp hsorted).1 d (hrest ▸ List.mem_cons_self)
    cases hd : isPast stop d.key with
    | true => rw [List.takeWhile_cons_of_neg (by rw [hd]; decide), List.length_nil]
    | false =>
      rw [not_isPast_mono hle hd] at hpast
      cases hpast

/-- **Calls one after the other** on a road in order return true once for
every entry before the end of the range, and then false. -/
theorem nexts_live (hco : Scannable P src r) {road : List (Option Entry)} (hnone : none ∉ road)
    (hsorted : road.reduceOption.Pairwise fun a b => a.key ≤ b.key)
    (h : Prog.Keeps (Live P src r) (r.next P src (fuel + 2) it)
      (Yields P src r start stop true road)) (n : ℕ) :
    Prog.Keeps (Live P src r) (r.nexts P src (fuel + 2) n it)
      (· = .ok (some ((List.range n).map fun i => decide (i < due stop road)))) := by
  induction n generalizing it road with
  | zero => exact .pure rfl
  | succ n ih =>
    rw [Reader.nexts]
    refine h.bind (fun y hy => ?_) fun f ⟨_, _, _, _, _, hf, _⟩ => nomatch hf
    obtain ⟨road', back, res, hskips, hback, hok, harrives⟩ := hy
    obtain rfl := Except.ok.inj hok
    rw [hskips.eq_of_not_mem hnone] at hback harrives
    -- the calls after this one, on what is left of the road
    have hrest : ∀ {it' : RangeIterator} {rest : List (Option Entry)} {found : Bool},
        rest <:+ road → Ahead P src r start stop it' rest →
        (it'.startApplied = true ∨ rest = []) → found = decide (0 < due stop road) →
        due stop rest = due stop road - 1 →
        Prog.Keeps (Live P src r) (do return (← r.nexts P src (fuel + 2) n it').map (found :: ·))
          (· = .ok (some ((List.range (n + 1)).map fun i => decide (i < due stop road)))) := by
      rintro it' rest found hsuffix hahead happlied rfl hdue
      have hnone' : none ∉ rest := fun hmem => hnone (hsuffix.mem hmem)
      have hsorted' := hsorted.sublist (hsuffix.sublist.filterMap id)
      refine (ih hnone' hsorted' (yields_next hco hnone' hahead happlied)).bind_ok (.pure ?_)
      rw [Option.map_some, List.range_succ_eq_map, List.map_cons, List.map_map]
      refine congrArg (fun l => Except.ok (some (_ :: l))) (List.map_congr_left fun i _ => ?_)
      rw [Function.comp_apply, hdue, decide_eq_decide]
      omega
    cases harrives with
    | entry e rest it' hpast _ happlied hahead =>
      have hdue : due stop (some e :: rest) = due stop rest + 1 := by
        rw [due_cons, hpast, if_neg Bool.false_ne_true]
      refine hrest (List.suffix_cons _ _) hahead (.inl happlied) ?_ (by omega)
      exact (decide_eq_true (by omega)).symm
    | done it' _ hahead => exact hrest (List.suffix_refl _) hahead (.inr rfl) rfl rfl
    | past e rest it' hpast _ happlied hahead =>
      have hdue : due stop (some e :: rest) = 0 := by
        rw [due_cons, if_pos hpast]
      rw [hback rfl] at hahead
      refine hrest (List.suffix_cons _ _) hahead (.inl happlied) ?_ ?_
      · rw [hdue]
        rfl
      · rw [hdue]
        exact due_eq_zero hsorted hpast
    | failed => exact absurd List.mem_cons_self hnone

/-! ## The first call -/

variable {p : SeenPart} {ps : List SeenPart} {b : List (List Entry)} {bs : List SeenBlock}

/-- The first round of a scan lands in a block. -/
theorem body_range (hco : Scannable P src r) (hp : p.readable = true)
    (hdrop : p.blocks.drop (landing (p.blocks.map SeenBlock.key) start) = ⟨b, true⟩ :: bs)
    (h : Behind P src r start stop (range start stop) (range start stop).blockI [] (p :: ps)) :
    Prog.Keeps (Live P src r) (r.body P src (range start stop)) fun x => ∃ round,
      x = .ok round ∧ Lands P src r start stop (decide (0 < start.length)) b bs ps round := by
  obtain ⟨it, -, happlied, hbehind, hload⟩ := loadPartition_part hco hp h r.top.length
  have hstart : (range start stop).startApplied = false := rfl
  rw [hstart, if_neg Bool.false_ne_true, hdrop] at hbehind
  have hlands := loadBlock_lands hco hbehind
  rw [happlied, hstart, Bool.not_false, Bool.true_and] at hlands
  exact hload.bind_ok hlands

/-- The search for the start of the range ends behind the range. -/
def SeeksPast (start stop : Bytes) (b : List (List Entry)) : Prop :=
  0 < start.length ∧ ∃ e ∈ (sought b start).head?, isPast stop e.key = true

/-- What the first call gives of the block that the scan lands in and the
road behind it. -/
def FirstGives (P : Platform) (src : Source) (r : Reader) (start stop : Bytes)
    (b : List (List Entry)) (road : List (Option Entry))
    (x : Except Fault (Option (Bool × RangeIterator))) : Prop :=
  (SeeksPast start stop b → ∃ it, x = .ok (some (false, it)) ∧ it.startApplied = true ∧
    Ahead P src r start stop it (b.flatten.map some ++ road)) ∧
  (¬ SeeksPast start stop b → Yields P src r start stop true ((sought b start).map some ++ road) x)

/-- **The first call of `Next`** goes on the road as every other one does,
unless the search ends behind the range. -/
theorem next_range (hco : Scannable P src r) (hp : p.readable = true)
    (hdrop : p.blocks.drop (landing (p.blocks.map SeenBlock.key) start) = ⟨b, true⟩ :: bs)
    (hnone : none ∉ stops bs ps)
    (h : Behind P src r start stop (range start stop) (range start stop).blockI [] (p :: ps)) :
    Prog.Keeps (Live P src r) (r.next P src (fuel + 2) (range start stop))
      (FirstGives P src r start stop b (stops bs ps)) := by
  refine next_live ?_
  rw [Reader.nextLoop]
  refine (body_range hco hp hdrop h).bind (fun round hround => ?_) fun f hfails => ?_
  rotate_left
  · obtain ⟨_, hf, _⟩ := hfails
    cases hf
  obtain ⟨round', hok, hlands⟩ := hround
  obtain rfl := Except.ok.inj hok
  -- the round finds nothing in the block, or it is the last one
  have hcases : (sought b start = [] ∧ ∃ it, round = .again it ∧ it.block = none ∧
        it.startApplied = true ∧ Behind P src r start stop it it.blockI bs ps) ∨
      ∃ res, round.result = some res ∧
        FirstGives P src r start stop b (stops bs ps) (.ok (some res)) := by
    by_cases hpos : 0 < start.length
    · rw [decide_eq_true hpos] at hlands
      rcases hlands with hnil | ⟨hne, res, hres, harrives⟩
      · exact Or.inl hnil
      · refine Or.inr ⟨res, hres, ?_⟩
        obtain ⟨e, es, hes⟩ := List.exists_cons_of_ne_nil hne
        rw [hes] at harrives
        cases harrives with
        | entry _ rest it hpast hcurr happlied hahead =>
          refine ⟨fun hreenters => ?_, fun _ => ?_⟩
          · obtain ⟨_, d, hd, hdpast⟩ := hreenters
            rw [hes, List.head?_cons, Option.mem_some_iff] at hd
            rw [← hd, hpast] at hdpast
            cases hdpast
          · rw [hes]
            exact ⟨_, _, _, .refl _, fun _ => rfl, rfl, .entry e _ it hpast hcurr happlied hahead⟩
        | past _ rest it hpast herr happlied hahead =>
          refine ⟨fun _ => ⟨it, rfl, happlied, hahead⟩,
            fun hclear => absurd ⟨hpos, e, ?_, hpast⟩ hclear⟩
          rw [hes]
          rfl
    · rw [decide_eq_false hpos] at hlands
      have hsought : sought b start = b.flatten := if_neg hpos
      obtain ⟨res, hres, harrives⟩ := hlands
      refine Or.inr ⟨res, hres, fun hpast => absurd hpast.1 hpos, fun _ => ?_⟩
      rw [hsought]
      exact ⟨_, _, _, .refl _, fun _ => rfl, rfl, harrives⟩
  rcases hcases with ⟨hnil, it, rfl, hblock, happlied, hbehind⟩ | ⟨res, hres, hgives⟩
  · have hahead := Ahead.outside bs ps hblock hbehind
    rw [happlied, roadOf_applied] at hahead
    have hturns : it.turns (stops bs ps) ≤ fuel + 1 := by
      have hzero := countP_isNone hnone
      simp [RangeIterator.turns, hblock, happlied, hzero]
    have hloop := nextLoop_live hco (fun _ => hnone) hahead hturns
    rw [happlied] at hloop
    refine hloop.mono fun x hx => ⟨fun hpast => ?_, fun _ => by rw [hnil]; exact hx⟩
    obtain ⟨-, e, he, -⟩ := hpast
    rw [hnil] at he
    cases he
  · cases round with
    | again => cases hres
    | found => exact .pure (Option.some.inj hres ▸ hgives)
    | ended => exact .pure (Option.some.inj hres ▸ hgives)

end

section

variable {P : Platform} {src : Source} {r : Reader} {parts : List Blocks}
  {seen : List SeenPart} {start stop : Bytes}

/-- Where a scan lands in a table that can be read. -/
theorem exists_entry_block (hcharts : Charts P src r seen) (hwhole : Whole seen)
    (hparts : seen.map (fun p => p.blocks.map SeenBlock.groups) = parts) (start : Bytes) :
    ∃ p ps b bs, seen.drop (landing (seen.map SeenPart.key) start) = p :: ps ∧ p.readable = true ∧
      p.blocks.drop (landing (p.blocks.map SeenBlock.key) start) = ⟨b, true⟩ :: bs ∧
      none ∉ stops bs ps ∧ Grouped b ∧ b.flatten ≠ [] ∧
      (b.flatten ++ (stops bs ps).reduceOption).Pairwise (fun a b => a.key ≤ b.key) ∧
      parts[landing (parts.map partKey) start]? = some (p.blocks.map SeenBlock.groups) ∧
      (p.blocks.map SeenBlock.groups)[
        landing ((p.blocks.map SeenBlock.groups).map blockKey) start]? = some b := by
  -- name the partition the walk lands in, then the block of it, and what stands behind each
  have hlt := landing_lt SeenPart.key hcharts.ne_nil start
  have hpdrop := List.drop_eq_getElem_cons hlt
  generalize hp : seen[landing (seen.map SeenPart.key) start] = p at hpdrop
  generalize seen.drop (landing (seen.map SeenPart.key) start + 1) = ps at hpdrop
  have hsuffix : p :: ps <:+ seen := hpdrop ▸ List.drop_suffix _ _
  have hmem : p ∈ seen := hsuffix.mem List.mem_cons_self
  have hblt := landing_lt SeenBlock.key (hcharts.sequenced.blocks p hmem) start
  have hbdrop := List.drop_eq_getElem_cons hblt
  generalize hb : p.blocks[landing (p.blocks.map SeenBlock.key) start] = sb at hbdrop
  generalize p.blocks.drop (landing (p.blocks.map SeenBlock.key) start + 1) = bs at hbdrop
  have hbsuffix : sb :: bs <:+ p.blocks := hbdrop ▸ List.drop_suffix _ _
  have hbmem : sb ∈ p.blocks := hbsuffix.mem List.mem_cons_self
  obtain ⟨hreadable, hblocks⟩ := hwhole p hmem
  have hsb : sb = ⟨sb.groups, true⟩ := by
    rw [← hblocks sb hbmem]
  have hstops := stops_of_whole
    (fun x hx => hblocks x (hbsuffix.mem (List.mem_cons_of_mem _ hx)))
    (fun q hq => hwhole q (hsuffix.mem (List.mem_cons_of_mem _ hq)) : Whole ps)
  refine ⟨p, ps, sb.groups, bs, hpdrop, hreadable, hsb ▸ hbdrop, ?_,
    hcharts.sequenced.grouped p hmem sb hbmem, hcharts.sequenced.entries_ne_nil hmem sb hbmem,
    ?_, ?_, ?_⟩
  · rw [hstops]
    simp
  · rw [hstops, reduceOption_map_some, ← List.append_assoc]
    refine hcharts.sequenced.sorted.sublist (.trans ?_ (hsuffix.flatMap _).sublist)
    rw [List.flatMap_cons]
    exact (hbsuffix.flatMap SeenBlock.entries).sublist.append (.refl _)
  · -- the search lands by the keys of the charts, which are the keys of the parts
    have hkeys : parts.map partKey = seen.map SeenPart.key := by
      rw [← hparts, List.map_map]
      exact List.map_congr_left fun q _ => by
        rw [Function.comp_apply, partKey, SeenPart.key, SeenPart.entries_eq]
    rw [hkeys, ← hparts, List.getElem?_map, List.getElem?_eq_getElem hlt, hp]
    rfl
  · have hkeys : (p.blocks.map SeenBlock.groups).map blockKey = p.blocks.map SeenBlock.key := by
      rw [List.map_map]
      rfl
    rw [hkeys, List.getElem?_map, List.getElem?_eq_getElem hblt, hb]
    rfl

theorem reenters_iff {p : Blocks} {b : List (List Entry)} (hgrouped : Grouped b)
    (hne : b.flatten ≠ []) (hpart : parts[landing (parts.map partKey) start]? = some p)
    (hblock : p[landing (p.map blockKey) start]? = some b) :
    Reenters parts start stop ↔ SeeksPast start stop b ∧ isPast stop (blockKey b) = false := by
  have hfound := head_sought hgrouped start
  constructor
  · rintro ⟨p', b', d, hp', hb', hd, hfrom, hpast⟩
    obtain rfl := Option.some.inj (hpart.symm.trans hp')
    obtain rfl := Option.some.inj (hblock.symm.trans hb')
    rw [hd, Option.map_some, Option.map_eq_some_iff] at hfound
    obtain ⟨d', hd', hdkey⟩ := hfound
    refine ⟨⟨Nat.pos_of_ne_zero fun hzero => ?_, d', hd', hdkey ▸ hpast⟩, hfrom⟩
    -- without a start the search ends at the first entry
    have hsought : sought b start = b.flatten := if_neg (by omega)
    obtain ⟨e, es, hes⟩ := List.exists_cons_of_ne_nil hne
    rw [hsought, hes, List.head?_cons, Option.some.injEq] at hd'
    rw [blockKey, hes, firstKey_cons, hd', hdkey, hpast] at hfrom
    cases hfrom
  · rintro ⟨⟨-, d, hd, hpast⟩, hfrom⟩
    rw [Option.mem_def.mp hd, Option.map_some, eq_comm, Option.map_eq_some_iff] at hfound
    obtain ⟨d', hd', hdkey⟩ := hfound
    exact ⟨_, _, d', hpart, hblock, hd', hfrom, hdkey ▸ hpast⟩

theorem staysFalse_map_range (n k : ℕ) :
    StaysFalse ((List.range n).map fun i => decide (i < k)) := by
  refine List.pairwise_map.mpr (List.pairwise_lt_range.imp fun hij hi => ?_)
  rw [decide_eq_false_iff_not] at hi ⊢
  omega

/-- **Iterators that have ended.** In a table that can be read no call of
`Next` returns true after one that returned false, unless the search for
the start of the range comes to an entry behind the end of it in a block
that starts before. -/
theorem nexts_false_iff (h : Serves P src r parts) (hbudget : affordable r.prefetchBudget)
    {s : State} (hlive : Live P src r s) (start stop : Bytes) (fuel : ℕ) :
    (∀ n, ∃ results, ((r.nexts P src (fuel + 2) n (range start stop)).exec s).1 =
      .ok (some results) ∧ StaysFalse results) ↔ ¬ Reenters parts start stop := by
  have hco : Scannable P src r := ⟨h.coherent, hbudget⟩
  have hcharts := charts_see h rfl rfl (.refl P src) hco
  have hparts := groups_see h rfl rfl (.refl P src)
  have hwhole := whole_see h
  generalize r.see P src parts = seen at hcharts hparts hwhole
  obtain ⟨p, ps, b, bs, hpdrop, hp, hbdrop, hnone, hgrouped, hne, hsorted, hpart, hblock⟩ :=
    exists_entry_block hcharts hwhole hparts start
  have hbehind := hcharts.behind start stop
  rw [hpdrop] at hbehind
  have hfirst := @next_range P src r start stop fuel p ps b bs hco hp hbdrop hnone hbehind
  have hroad : ∀ es : List Entry, none ∉ es.map some ++ stops bs ps := fun es hmem =>
    (List.mem_append.mp hmem).elim (fun hmap => by simp at hmap) hnone
  have horder : ∀ es : List Entry, es.Sublist b.flatten →
      (es.map some ++ stops bs ps).reduceOption.Pairwise fun a b => a.key ≤ b.key := by
    intro es hes
    rw [List.reduceOption_append, reduceOption_map_some]
    exact hsorted.sublist (hes.append (.refl _))
  rw [reenters_iff hgrouped hne hpart hblock]
  by_cases hpast : SeeksPast start stop b
  · -- the first call returns false, and the next ones start with the block
    have hcalls : ∀ n, Prog.Keeps (Live P src r)
        (r.nexts P src (fuel + 2) (n + 1) (range start stop))
        (· = .ok (some (false :: (List.range n).map fun i =>
          decide (i < due stop (b.flatten.map some ++ stops bs ps))))) := by
      intro n
      rw [Reader.nexts]
      refine hfirst.bind (fun y hy => ?_) fun f hf => ?_
      · obtain ⟨it, hok, happlied, hahead⟩ := hy.1 hpast
        obtain rfl := Except.ok.inj hok
        exact (nexts_live hco (hroad _) (horder _ (.refl _))
          (yields_next hco (hroad _) hahead (.inl happlied)) n).bind_ok (.pure rfl)
      · obtain ⟨it, hok, -⟩ := hf.1 hpast
        cases hok
    have hdue : due stop (b.flatten.map some ++ stops bs ps) = 0 ↔
        ¬ isPast stop (blockKey b) = false := by
      obtain ⟨e, es, hes⟩ := List.exists_cons_of_ne_nil hne
      rw [blockKey, hes, firstKey_cons, List.map_cons, List.cons_append, due_cons]
      split <;> simp [*]
    rw [and_iff_right hpast, ← hdue]
    constructor
    · intro hall
      obtain ⟨results, hok, hstays⟩ := hall 2
      rw [(hcalls 1 s hlive).1] at hok
      obtain rfl := Option.some.inj (Except.ok.inj hok)
      have hfalse := (List.pairwise_cons.mp hstays).1 _ List.mem_cons_self rfl
      exact Nat.eq_zero_of_not_pos (of_decide_eq_false hfalse)
    · intro hzero n
      cases n with
      | zero => exact ⟨[], rfl, .nil⟩
      | succ n =>
        refine ⟨_, (hcalls n s hlive).1, List.pairwise_cons.mpr
          ⟨fun x hx _ => ?_, staysFalse_map_range _ _⟩⟩
        obtain ⟨i, -, rfl⟩ := List.mem_map.mp hx
        rw [hzero, decide_eq_false_iff_not]
        omega
  · have hcalls := nexts_live hco (hroad _) (horder _ (sublist_sought b start))
      (hfirst.mono fun x hx => hx.2 hpast)
    exact iff_of_true (fun n => ⟨_, (hcalls n s hlive).1, staysFalse_map_range n _⟩)
      fun hboth => hpast hboth.1

/-- A table of two entries in one block. -/
theorem nexts_false_two :
    ∃ t, flush .plain .plain [⟨[1], [], false, 1⟩, ⟨[4], [], false, 2⟩] = .ok t ∧
      ∀ start stop fuel, (∀ n, ∃ results, ((t.reader.nexts .plain (fileSource t.file) (fuel + 2) n
          (range start stop)).exec t.state).1 = .ok (some results) ∧ StaysFalse results) ↔
        ¬ Reenters (partsOf Options.plain.normalize (blocksOf .plain
          [⟨[1], [], false, 1⟩, ⟨[4], [], false, 2⟩])) start stop := by
  have hfits : Fits .plain Options.plain.normalize
      (blocksOf .plain [⟨[1], [], false, 1⟩, ⟨[4], [], false, 2⟩]) :=
    ⟨fun _ _ => ⟨_, _, rfl⟩, by decide +kernel, by decide +kernel, by decide +kernel, rfl⟩
  obtain ⟨t, hflush, hserves, hlive⟩ := flush_serves rfl (by decide) (by decide)
    ⟨hfits, fun _ => by decide +kernel⟩
  have hbudget := prefetchBudget_of_flush rfl (by decide) (by decide) hfits hflush
  exact ⟨t, hflush, nexts_false_iff hserves (by rw [hbudget]; decide) hlive⟩

/-- **An ended iterator goes on.** The table has the keys 1 and 4. From 2 to
3 there is no entry: the first call of `Next` returns false, and the second
one comes to the entry of the key 1. -/
theorem nexts_reentered :
    (do
      let t ← flush .plain .plain [⟨[1], [], false, 1⟩, ⟨[4], [], false, 2⟩]
      ((t.reader.nexts .plain (fileSource t.file) 2 3 (range [2] [3])).exec t.state).1) =
      .ok (some [false, true, false]) := by
  decide +kernel

end

end LSMEngine.Format
