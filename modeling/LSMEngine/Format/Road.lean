import LSMEngine.Format.Lookup
import LSMEngine.Format.Model.Range
import Mathlib.Data.List.Flatten
import Mathlib.Data.List.ReduceOption
/-!
# Format — the road of a scan

What a scan has ahead of it, as a list: entries, and places that cannot
be read, which are blocks and partitions of the index. A scan that has
not come to the start of its range lands in a partition and a block by
their first keys, and enters the first block it can read at the start of
the range (`seekParts`); from there on it comes to everything (`stops`).
What it yields of its road depends on whether it skips what it cannot
read (`gives`).
-/

namespace LSMEngine.Format

/-! ## What can be read -/

/-- A block of a table, and whether it can be read. -/
structure SeenBlock where
  groups : List (List Entry)
  readable : Bool

/-- A partition of the index, and whether it can be read. -/
structure SeenPart where
  blocks : List SeenBlock
  readable : Bool

def SeenBlock.entries (b : SeenBlock) : List Entry := b.groups.flatten

def SeenBlock.key (b : SeenBlock) : Bytes := firstKey b.entries

def SeenPart.entries (p : SeenPart) : List Entry := p.blocks.flatMap SeenBlock.entries

def SeenPart.key (p : SeenPart) : Bytes := firstKey p.entries

/-- The entries of a block, or a place that cannot be read. -/
def SeenBlock.stops (b : SeenBlock) : List (Option Entry) :=
  if b.readable then b.entries.map some else [none]

/-- The same of the blocks of a partition. -/
def SeenPart.stops (p : SeenPart) : List (Option Entry) :=
  if p.readable then p.blocks.flatMap SeenBlock.stops else [none]

/-- What blocks and the partitions behind them come to. -/
def stops (bs : List SeenBlock) (ps : List SeenPart) : List (Option Entry) :=
  bs.flatMap SeenBlock.stops ++ ps.flatMap SeenPart.stops

/-! ## The start of a range -/

/-- Where `findBlock` lets a scan start. -/
def landing (keys : List Bytes) (start : Bytes) : ℕ :=
  if 0 < start.length then (findKey keys start).getD 0 else 0

theorem stepBack_le (keys : List Bytes) (k : Bytes) (i : ℕ) : stepBack keys k i ≤ i := by
  induction i with
  | zero => exact le_rfl
  | succ i ih =>
    rw [stepBack]
    split
    · exact ih.trans (Nat.le_succ i)
    · exact le_rfl

theorem findKey_lt {keys : List Bytes} {k : Bytes} {i : ℕ} (h : findKey keys k = some i) :
    i < keys.length := by
  have hsearch := search_le keys.length fun i => (keys[i]?).any fun x => decide (k < x)
  unfold findKey at h
  split at h
  · cases h
  · split at h
    · cases h
    · dsimp only at h
      split at h
      · cases h
      · split at h
        · have hback := stepBack_le keys k ((search keys.length fun i =>
            (keys[i]?).any fun x => decide (k < x)) - 1)
          have := Option.some.inj h
          omega
        · have := Option.some.inj h
          omega

theorem landing_lt {α : Type} (key : α → Bytes) {items : List α} (hne : items ≠ []) (start : Bytes) :
    landing (items.map key) start < items.length := by
  have hpos := List.length_pos_iff.mpr hne
  unfold landing
  split
  · cases hfind : findKey (items.map key) start with
    | none => exact hpos
    | some i => simpa using findKey_lt hfind
  · exact hpos

/-- The entries of a block from the start of a range on, as `Seek` comes
to them. -/
def sought (gs : List (List Entry)) (start : Bytes) : List Entry :=
  if 0 < start.length then
    (gs.drop ((blockOf gs).restartIndex start)).flatten.dropWhile fun e => e.key < start
  else gs.flatten

/-- A scan that looks for the start of its range in blocks. -/
def seekBlocks (start : Bytes) (ps : List SeenPart) (more : List (Option Entry)) :
    List SeenBlock → List (Option Entry)
  | [] => more
  | b :: bs =>
    if b.readable then (sought b.groups start).map some ++ stops bs ps
    else none :: seekBlocks start ps more bs

/-- A scan that looks for the start of its range in partitions. -/
def seekParts (start : Bytes) : List SeenPart → List (Option Entry)
  | [] => []
  | p :: ps =>
    if p.readable then
      seekBlocks start ps (seekParts start ps)
        (p.blocks.drop (landing (p.blocks.map SeenBlock.key) start))
    else none :: seekParts start ps

/-- **The road of a scan** over a table. -/
def scanRoad (start : Bytes) (seen : List SeenPart) : List (Option Entry) :=
  seekParts start (seen.drop (landing (seen.map SeenPart.key) start))

/-- The road of a scan between blocks, which has come to the start of its
range or not. -/
def roadOf (applied : Bool) (start : Bytes) (bs : List SeenBlock) (ps : List SeenPart) :
    List (Option Entry) :=
  if applied then stops bs ps else seekBlocks start ps (seekParts start ps) bs

section

variable {applied : Bool} {start : Bytes} {b : SeenBlock} {bs : List SeenBlock} {p : SeenPart}
  {ps : List SeenPart}

theorem roadOf_applied : roadOf true start bs ps = stops bs ps := rfl

theorem roadOf_nil : roadOf applied start [] [] = [] := by
  cases applied <;> rfl

theorem roadOf_block (hb : b.readable = true) :
    roadOf applied start (b :: bs) ps =
      (if applied then b.groups.flatten else sought b.groups start).map some ++ stops bs ps := by
  cases applied with
  | true => simp [roadOf, stops, SeenBlock.stops, SeenBlock.entries, hb]
  | false => simp [roadOf, seekBlocks, hb]

theorem roadOf_badBlock (hb : b.readable = false) :
    roadOf applied start (b :: bs) ps = none :: roadOf applied start bs ps := by
  cases applied with
  | true => simp [roadOf, stops, SeenBlock.stops, hb]
  | false => simp [roadOf, seekBlocks, hb]

theorem roadOf_part (hp : p.readable = true) :
    roadOf applied start [] (p :: ps) = roadOf applied start
      (p.blocks.drop (if applied then 0 else landing (p.blocks.map SeenBlock.key) start)) ps := by
  cases applied with
  | true => simp [roadOf, stops, SeenPart.stops, hp]
  | false => simp [roadOf, seekBlocks, seekParts, hp]

theorem roadOf_badPart (hp : p.readable = false) :
    roadOf applied start [] (p :: ps) = none :: roadOf applied start [] ps := by
  cases applied with
  | true => simp [roadOf, stops, SeenPart.stops, hp]
  | false => simp [roadOf, seekBlocks, seekParts, hp]

end

/-! ## What a scan yields -/

/-- Whether a key is behind a range. -/
def isPast (stop key : Bytes) : Bool := 0 < stop.length ∧ stop ≤ key

/-- Whether a key is in a range; an empty end is no end. -/
def inRange (start stop : Bytes) (key : Bytes) : Bool := start ≤ key ∧ (stop = [] ∨ key < stop)

theorem isPast_eq_false_iff {stop key : Bytes} :
    isPast stop key = false ↔ stop = [] ∨ key < stop := by
  rw [isPast, decide_eq_false_iff_not, not_and_or, Nat.not_lt, Nat.le_zero,
    List.length_eq_zero_iff, not_le]

/-- The end of a range is met once. -/
theorem not_isPast_mono {stop a b : Bytes} (hab : a ≤ b) (hb : isPast stop b = false) :
    isPast stop a = false :=
  isPast_eq_false_iff.mpr ((isPast_eq_false_iff.mp hb).imp_right hab.trans_lt)

theorem inRange_eq (start stop key : Bytes) :
    inRange start stop key = (decide (start ≤ key) && !isPast stop key) := by
  rw [Bool.eq_iff_iff, Bool.and_eq_true, Bool.not_eq_true', isPast_eq_false_iff, inRange]
  simp

/-- What a scan yields of its road, and whether it fails. -/
def gives (skip : Bool) (stop : Bytes) : List (Option Entry) → List Entry × Bool
  | [] => ([], false)
  | some e :: road =>
    if isPast stop e.key then ([], false)
    else (e :: (gives skip stop road).1, (gives skip stop road).2)
  | none :: road => if skip then gives skip stop road else ([], true)

/-- Where everything can be read it does not matter. -/
theorem gives_of_not_mem {road : List (Option Entry)} (h : none ∉ road) (skip : Bool) (stop : Bytes) :
    gives skip stop road = gives true stop road := by
  induction road with
  | nil => rfl
  | cons o road ih =>
    cases o with
    | none => exact absurd List.mem_cons_self h
    | some e => rw [gives, gives, ih fun hmem => h (List.mem_cons_of_mem _ hmem)]

/-- Places that cannot be read are passed over. -/
inductive Skips (skip : Bool) : List (Option Entry) → List (Option Entry) → Prop
  | refl (road : List (Option Entry)) : Skips skip road road
  | skipped {road road' : List (Option Entry)} (hskip : skip = true) (h : Skips skip road road') :
      Skips skip (none :: road) road'

namespace Skips

variable {skip : Bool} {road road' : List (Option Entry)}

section

variable (h : Skips skip road road')
include h

theorem gives_eq (stop : Bytes) : gives skip stop road = gives skip stop road' := by
  induction h with
  | refl => rfl
  | skipped hskip _ ih => rw [gives, if_pos hskip, ih]

theorem trans {road'' : List (Option Entry)} :
    Skips skip road' road'' → Skips skip road road'' := by
  induction h with
  | refl => exact id
  | skipped hskip _ ih => exact fun h => .skipped hskip (ih h)

theorem suffix : road' <:+ road := by
  induction h with
  | refl => exact List.suffix_refl _
  | skipped _ _ ih => exact ih.trans (List.suffix_cons _ _)

theorem countP_le : road'.countP Option.isNone ≤ road.countP Option.isNone :=
  h.suffix.sublist.countP_le

/-- Where everything can be read nothing is passed over. -/
theorem eq_of_not_mem (hnone : none ∉ road) : road' = road := by
  cases h with
  | refl => rfl
  | skipped => exact absurd List.mem_cons_self hnone

end

end Skips

/-! ## Tables in order -/

section Landing

variable {α : Type} {f : α → List Entry} {items : List α}

/-- **Where a scan lands**: what is behind the place is not below the
start of the range, and of different keys those before it are. -/
theorem exists_landing (hne : items ≠ []) (hfull : ∀ x ∈ items, f x ≠ [])
    (hsorted : (items.flatMap f).Pairwise fun a b => a.key ≤ b.key) (start : Bytes) :
    ∃ as x bs, items = as ++ x :: bs ∧
      landing (items.map fun x => firstKey (f x)) start = as.length ∧
      (∀ e ∈ bs.flatMap f, start ≤ e.key) ∧
      ((items.flatMap f).Pairwise (fun a b => a.key < b.key) → ∀ e ∈ as.flatMap f, e.key < start) := by
  have hsections := hsorted
  rw [List.flatMap_def] at hsections
  have hmem : ∀ x ∈ items, ∀ e ∈ f x, firstKey (f x) ≤ e.key := fun x hx e he =>
    firstKey_le (hsections.sublist (List.sublist_flatten_of_mem (List.mem_map_of_mem hx))) he
  -- a start that is not above any key lands at the first place
  have hfirst : landing (items.map fun x => firstKey (f x)) start = 0 →
      (∀ e ∈ items.flatMap f, start ≤ e.key) → ∃ as x bs, items = as ++ x :: bs ∧
        landing (items.map fun x => firstKey (f x)) start = as.length ∧
        (∀ e ∈ bs.flatMap f, start ≤ e.key) ∧
        ((items.flatMap f).Pairwise (fun a b => a.key < b.key) →
          ∀ e ∈ as.flatMap f, e.key < start) := by
    intro hzero hle
    obtain ⟨x, bs, rfl⟩ := List.exists_cons_of_ne_nil hne
    refine ⟨[], x, bs, rfl, hzero, fun e he => hle e ?_, fun _ e he => absurd he List.not_mem_nil⟩
    rw [List.flatMap_cons]
    exact List.mem_append_right _ he
  by_cases hpos : 0 < start.length
  · rcases findKey_spec (pairwise_firstKey hfull hsections) start with ⟨hnone, hgt⟩ | ⟨as, x, bs, hsome, hc⟩
    · refine hfirst (by rw [landing, if_pos hpos, hnone]; rfl) fun e he => ?_
      obtain ⟨x, hx, hex⟩ := List.mem_flatMap.mp he
      exact (hgt x hx).le.trans (hmem x hx e hex)
    · obtain ⟨z, hz, hkey⟩ := firstKey_mem (hfull x hc.mem)
      refine ⟨as, x, bs, hc.split, by rw [landing, if_pos hpos, hsome]; rfl, fun e he => ?_,
        fun hlt e he => ?_⟩
      · rcases hc.turn with ⟨-, hgt⟩ | ⟨heq, -⟩
        · obtain ⟨y, hy, hey⟩ := List.mem_flatMap.mp he
          have hyitems : y ∈ items :=
            hc.split ▸ List.mem_append_right _ (List.mem_cons_of_mem _ hy)
          exact (hgt y hy).le.trans (hmem y hyitems e hey)
        · rw [hc.split, List.flatMap_append, List.flatMap_cons] at hsorted
          have hbehind := (List.pairwise_append.mp (List.pairwise_append.mp hsorted).2.1).2.2
          exact heq ▸ hkey.le.trans (hbehind z hz e he)
      · rw [hc.split, List.flatMap_append, List.flatMap_cons] at hlt
        have hbefore := (List.pairwise_append.mp hlt).2.2 e he z (List.mem_append_left _ hz)
        exact hbefore.trans_le (hkey ▸ hc.le)
  · have hnil : start = [] := List.eq_nil_of_length_eq_zero (Nat.eq_zero_of_not_pos hpos)
    exact hfirst (if_neg hpos) fun e _ => hnil ▸ not_lt.mp (List.not_lt_nil e.key)

end Landing

theorem dropWhile_of_le {start : Bytes} {es : List Entry} (h : ∀ e ∈ es, start ≤ e.key) :
    es.dropWhile (fun e => e.key < start) = es := by
  cases es with
  | nil => rfl
  | cons e es => exact List.dropWhile_cons_of_neg (by simpa using h e List.mem_cons_self)

/-- A search skips some entries unread, and then those below the start;
the first one it reads is not above the start. -/
theorem exists_sought {gs : List (List Entry)} (h : Grouped gs) (start : Bytes) :
    ∃ as bs, gs.flatten = as ++ bs ∧ (sought gs start = bs.dropWhile fun e => e.key < start) ∧
      (as ≠ [] → ∃ z zs, bs = z :: zs ∧ z.key ≤ start) := by
  unfold sought
  split
  · obtain ⟨as, g, bs, hidx, hpick⟩ := restartIndex_spec h start
    refine ⟨as.flatten, (g :: bs).flatten, ?_, ?_, fun has => ?_⟩
    · rw [hpick.split, List.flatten_append]
    · rw [hidx]
      conv_lhs => rw [hpick.split, List.drop_left]
    · obtain ⟨z, zs, hz⟩ := List.exists_cons_of_ne_nil (h.nonempty g hpick.mem)
      have hle := hpick.le fun hnil => has (hnil ▸ rfl)
      rw [hz] at hle
      exact ⟨z, zs ++ bs.flatten, by rw [List.flatten_cons, hz, List.cons_append], hle⟩
  · next hpos =>
    have hnil : start = [] := List.eq_nil_of_length_eq_zero (Nat.eq_zero_of_not_pos hpos)
    refine ⟨[], gs.flatten, rfl, ?_, fun hne => absurd rfl hne⟩
    exact (dropWhile_of_le fun e _ => hnil ▸ not_lt.mp (List.not_lt_nil e.key)).symm

/-- In a block of different keys the search comes to the first entry that
is not below the start. -/
theorem sought_eq {gs : List (List Entry)} (h : Grouped gs)
    (hlt : gs.flatten.Pairwise fun a b => a.key < b.key) (start : Bytes) :
    sought gs start = gs.flatten.dropWhile fun e => e.key < start := by
  obtain ⟨as, bs, hsplit, hsought, hhead⟩ := exists_sought h start
  rw [hsplit] at hlt
  have hbefore : ∀ e ∈ as, decide (e.key < start) = true := by
    intro e he
    obtain ⟨z, zs, rfl, hz⟩ := hhead (List.ne_nil_of_mem he)
    have hez := (List.pairwise_append.mp hlt).2.2 e he z List.mem_cons_self
    exact decide_eq_true (hez.trans_le hz)
  rw [hsought, hsplit, List.dropWhile_append_of_pos hbefore]

/-- The parts of a table, as the writer lays them out. -/
structure Sequenced (seen : List SeenPart) : Prop where
  blocks : ∀ p ∈ seen, p.blocks ≠ []
  grouped : ∀ p ∈ seen, ∀ b ∈ p.blocks, Grouped b.groups
  sorted : (seen.flatMap SeenPart.entries).Pairwise fun a b => a.key ≤ b.key

namespace Sequenced

variable {seen ps : List SeenPart} {p : SeenPart} {start : Bytes}

theorem of_append {as : List SeenPart} (h : Sequenced (as ++ ps)) : Sequenced ps := by
  have hsorted := h.sorted
  rw [List.flatMap_append] at hsorted
  exact ⟨fun p hp => h.blocks p (List.mem_append_right _ hp),
    fun p hp => h.grouped p (List.mem_append_right _ hp), (List.pairwise_append.mp hsorted).2.1⟩

theorem entries_ne_nil (h : Sequenced seen) (hp : p ∈ seen) : ∀ b ∈ p.blocks, b.entries ≠ [] := by
  intro b hb hnil
  have hgrouped := h.grouped p hp b hb
  obtain ⟨g, hg⟩ := List.exists_mem_of_ne_nil _ hgrouped.ne_nil
  exact hgrouped.nonempty g hg (List.flatten_eq_nil_iff.mp hnil g hg)

theorem part_ne_nil (h : Sequenced seen) (hp : p ∈ seen) : p.entries ≠ [] := by
  obtain ⟨b, hb⟩ := List.exists_mem_of_ne_nil _ (h.blocks p hp)
  exact fun hnil => h.entries_ne_nil hp b hb (List.flatMap_eq_nil_iff.mp hnil b hb)

theorem sublist_part (hp : p ∈ seen) : p.entries.Sublist (seen.flatMap SeenPart.entries) :=
  List.flatMap_def ▸ List.sublist_flatten_of_mem (List.mem_map_of_mem hp)

/-- Where a scan lands in a partition. -/
theorem exists_block (h : Sequenced seen) (hp : p ∈ seen) (start : Bytes) :
    ∃ as b bs, p.blocks = as ++ b :: bs ∧
      landing (p.blocks.map SeenBlock.key) start = as.length ∧
      (∀ e ∈ bs.flatMap SeenBlock.entries, start ≤ e.key) ∧
      ((seen.flatMap SeenPart.entries).Pairwise (fun a b => a.key < b.key) →
        ∀ e ∈ as.flatMap SeenBlock.entries, e.key < start) := by
  obtain ⟨as, b, bs, hsplit, hlanding, hbehind, hbefore⟩ := exists_landing (h.blocks p hp)
    (h.entries_ne_nil hp) (h.sorted.sublist (sublist_part hp)) start
  exact ⟨as, b, bs, hsplit, hlanding, hbehind, fun hlt => hbefore (hlt.sublist (sublist_part hp))⟩

end Sequenced

/-! ## Scans of different keys -/

section

variable {start : Bytes} {bs : List SeenBlock} {ps seen : List SeenPart}

/-- Where nothing is below the start, a scan comes to all of a block. -/
theorem seekBlocks_eq (hgrouped : ∀ b ∈ bs, Grouped b.groups)
    (hlt : (bs.flatMap SeenBlock.entries).Pairwise fun a b => a.key < b.key)
    (hle : ∀ e ∈ bs.flatMap SeenBlock.entries, start ≤ e.key) :
    seekBlocks start ps (ps.flatMap SeenPart.stops) bs = stops bs ps := by
  induction bs with
  | nil => rfl
  | cons b bs ih =>
    rw [List.flatMap_cons] at hlt hle
    rw [seekBlocks]
    split
    · next hb =>
      have hsought : sought b.groups start = b.entries := by
        rw [sought_eq (hgrouped b List.mem_cons_self) (List.pairwise_append.mp hlt).1]
        exact dropWhile_of_le fun e he => hle e (List.mem_append_left _ he)
      simp [stops, SeenBlock.stops, hb, hsought]
    · next hb =>
      rw [ih (fun b hb => hgrouped b (List.mem_cons_of_mem _ hb)) (List.pairwise_append.mp hlt).2.1
        fun e he => hle e (List.mem_append_right _ he)]
      simp [stops, SeenBlock.stops, hb]

/-- The same of partitions. -/
theorem seekParts_eq (h : Sequenced ps)
    (hlt : (ps.flatMap SeenPart.entries).Pairwise fun a b => a.key < b.key)
    (hle : ∀ e ∈ ps.flatMap SeenPart.entries, start ≤ e.key) :
    seekParts start ps = ps.flatMap SeenPart.stops := by
  induction ps with
  | nil => rfl
  | cons p ps ih =>
    have hrest := ih (@Sequenced.of_append ps [p] h)
      (by rw [List.flatMap_cons] at hlt; exact (List.pairwise_append.mp hlt).2.1)
      fun e he => hle e (by rw [List.flatMap_cons]; exact List.mem_append_right _ he)
    have hp : p ∈ p :: ps := List.mem_cons_self
    rw [seekParts, hrest, List.flatMap_cons]
    split
    · next hread =>
      obtain ⟨as, b, bs, hsplit, hlanding, -, hbefore⟩ := h.exists_block hp start
      have hpart : ∀ e ∈ p.entries, start ≤ e.key := fun e he =>
        hle e ((Sequenced.sublist_part hp).mem he)
      -- a block before the place would have entries below the start
      have has : as = [] := by
        rcases as with - | ⟨a, as⟩
        · rfl
        · have ha : a ∈ p.blocks := hsplit ▸ List.mem_cons_self
          obtain ⟨e, he⟩ := List.exists_mem_of_ne_nil _ (h.entries_ne_nil hp a ha)
          have hbelow := hbefore hlt e (List.mem_flatMap.mpr ⟨a, List.mem_cons_self, he⟩)
          exact absurd (hpart e (List.mem_flatMap.mpr ⟨a, ha, he⟩)) (not_le.mpr hbelow)
      rw [hlanding, has, List.length_nil, List.drop_zero, seekBlocks_eq (h.grouped p hp)
        (hlt.sublist (Sequenced.sublist_part hp)) hpart]
      simp [stops, SeenPart.stops, hread]
    · next hread => simp [SeenPart.stops, hread]

/-- What a table comes to from the block on where a scan lands. -/
def fromLanding (start : Bytes) : List SeenPart → List (Option Entry)
  | [] => []
  | p :: ps =>
    if p.readable then stops (p.blocks.drop (landing (p.blocks.map SeenBlock.key) start)) ps
    else stops [] (p :: ps)

/-- What a table comes to from the block on where a scan lands. -/
def landed (start : Bytes) (seen : List SeenPart) : List (Option Entry) :=
  fromLanding start (seen.drop (landing (seen.map SeenPart.key) start))

/-- What a scan goes on with, once it has come to the start of its range. -/
def notBelow (start : Bytes) (o : Option Entry) : Bool := o.all fun e => start ≤ e.key

theorem mem_stops {e : Entry} (h : some e ∈ stops bs ps) :
    e ∈ bs.flatMap SeenBlock.entries ∨ e ∈ ps.flatMap SeenPart.entries := by
  have hblock : ∀ b : SeenBlock, some e ∈ b.stops → e ∈ b.entries := by
    intro b hb
    unfold SeenBlock.stops at hb
    split at hb
    · simpa using hb
    · simp at hb
  rcases List.mem_append.mp h with h | h
  · obtain ⟨b, hb, he⟩ := List.mem_flatMap.mp h
    exact .inl (List.mem_flatMap.mpr ⟨b, hb, hblock b he⟩)
  · obtain ⟨p, hp, he⟩ := List.mem_flatMap.mp h
    unfold SeenPart.stops at he
    split at he
    · obtain ⟨b, hb, he⟩ := List.mem_flatMap.mp he
      exact .inr (List.mem_flatMap.mpr ⟨p, hp, List.mem_flatMap.mpr ⟨b, hb, hblock b he⟩⟩)
    · simp at he

theorem filter_stops (hbs : ∀ e ∈ bs.flatMap SeenBlock.entries, start ≤ e.key)
    (hps : ∀ e ∈ ps.flatMap SeenPart.entries, start ≤ e.key) :
    (stops bs ps).filter (notBelow start) = stops bs ps := by
  refine List.filter_eq_self.mpr fun o ho => ?_
  cases o with
  | none => rfl
  | some e => exact decide_eq_true ((mem_stops ho).elim (hbs e) (hps e))

/-- **The road of a scan** of different keys: what the table comes to
from the landing on, without the entries below the start. -/
theorem scanRoad_eq (h : Sequenced seen) (hne : seen ≠ [])
    (hlt : (seen.flatMap SeenPart.entries).Pairwise fun a b => a.key < b.key) (start : Bytes) :
    scanRoad start seen = (landed start seen).filter (notBelow start) := by
  obtain ⟨as, p, ps, rfl, hlanding, hbehind, -⟩ :=
    exists_landing hne (fun p hp => h.part_ne_nil hp) h.sorted start
  change landing ((as ++ p :: ps).map SeenPart.key) start = as.length at hlanding
  have hp : p ∈ as ++ p :: ps := List.mem_append_right _ List.mem_cons_self
  have hrest : seekParts start ps = ps.flatMap SeenPart.stops := by
    have hsplit : as ++ p :: ps = (as ++ [p]) ++ ps := by simp
    rw [hsplit] at h hlt
    rw [List.flatMap_append] at hlt
    exact seekParts_eq h.of_append (List.pairwise_append.mp hlt).2.1 hbehind
  rw [scanRoad, landed, hlanding, List.drop_left, seekParts, fromLanding, hrest]
  split
  · obtain ⟨cs, b, ds, hsplit, hplace, hblocks, -⟩ := h.exists_block hp start
    have hb : b ∈ p.blocks := hsplit ▸ List.mem_append_right _ List.mem_cons_self
    have hentries : p.entries = cs.flatMap SeenBlock.entries ++
        (b.entries ++ ds.flatMap SeenBlock.entries) := by
      rw [SeenPart.entries, hsplit, List.flatMap_append, List.flatMap_cons]
    have hpart := hentries ▸ hlt.sublist (Sequenced.sublist_part hp)
    have hbds := List.pairwise_append.mp (List.pairwise_append.mp hpart).2.1
    have hgrouped := h.grouped p hp
    have hstops : stops (b :: ds) ps = b.stops ++ stops ds ps := by
      simp [stops]
    rw [hplace, hsplit, List.drop_left, seekBlocks, hstops, List.filter_append,
      filter_stops hblocks hbehind]
    split
    · next hread =>
      have hbelow : b.entries.Pairwise fun x y =>
          decide (y.key < start) = true → decide (x.key < start) = true :=
        hbds.1.imp fun hxy hy => decide_eq_true (hxy.trans (of_decide_eq_true hy))
      rw [sought_eq (hgrouped b hb) hbds.1, SeenBlock.stops, if_pos hread, List.filter_map]
      change ((b.entries.dropWhile fun e => e.key < start).map some) ++ stops ds ps = _
      rw [dropWhile_eq_filter hbelow]
      refine congrArg (fun l => l.map some ++ stops ds ps) (List.filter_congr fun e _ => ?_)
      exact decide_not.symm.trans (decide_eq_decide.mpr not_lt)
    · next hread =>
      rw [seekBlocks_eq (fun d hd => hgrouped d (by rw [hsplit]; simp [hd])) hbds.2.1 hblocks,
        SeenBlock.stops, if_neg hread]
      rfl
  · next hread =>
    have hstops : stops [] (p :: ps) = none :: ps.flatMap SeenPart.stops := by
      simp [stops, SeenPart.stops, hread]
    have hfilter : (stops [] ps).filter (notBelow start) = stops [] ps :=
      filter_stops (fun e he => absurd he List.not_mem_nil) hbehind
    rw [hstops, List.filter_cons_of_pos rfl]
    exact congrArg (none :: ·) hfilter.symm

/-! ## What different keys give -/

/-- The entries ahead of the first place that cannot be read. -/
def upToFault (road : List (Option Entry)) : List Entry := (road.takeWhile Option.isSome).reduceOption

variable {road : List (Option Entry)} {stop : Bytes}

theorem filter_eq_nil_of_past {e : Entry} {es : List Entry} (he : isPast stop e.key = true)
    (hle : ∀ d ∈ es, e.key ≤ d.key) : (e :: es).filter (fun d => !isPast stop d.key) = [] := by
  refine List.filter_eq_nil_iff.mpr fun d hd hpast => ?_
  rw [Bool.not_eq_true'] at hpast
  have hed : e.key ≤ d.key := (List.mem_cons.mp hd).elim (fun h => h ▸ le_rfl) (hle d)
  rw [not_isPast_mono hed hpast] at he
  cases he

/-- A scan that skips yields everything in its range. -/
theorem gives_skip (h : road.reduceOption.Pairwise fun a b => a.key ≤ b.key) :
    gives true stop road = (road.reduceOption.filter fun e => !isPast stop e.key, false) := by
  induction road with
  | nil => rfl
  | cons o road ih =>
    cases o with
    | none => exact ih h
    | some e =>
      rw [List.reduceOption_cons_of_some] at h ⊢
      rw [gives]
      split
      · next he => rw [filter_eq_nil_of_past he (List.pairwise_cons.mp h).1]
      · next he => rw [ih (List.pairwise_cons.mp h).2, List.filter_cons_of_pos (by simpa using he)]

/-- One that does not skip yields what is in its range up to the first
place that cannot be read, and fails there unless its range has ended. -/
theorem gives_failFast (h : (upToFault road).Pairwise fun a b => a.key ≤ b.key) :
    gives false stop road = ((upToFault road).filter fun e => !isPast stop e.key,
      decide (none ∈ road ∧ ∀ e ∈ upToFault road, isPast stop e.key = false)) := by
  induction road with
  | nil => rfl
  | cons o road ih =>
    cases o with
    | none => simp [gives, upToFault]
    | some e =>
      have hcons : upToFault (some e :: road) = e :: upToFault road := by
        rw [upToFault, List.takeWhile_cons_of_pos rfl, List.reduceOption_cons_of_some, upToFault]
      rw [hcons] at h ⊢
      rw [gives]
      split
      · next he =>
        rw [filter_eq_nil_of_past he (List.pairwise_cons.mp h).1]
        simp [he]
      · next he =>
        rw [ih (List.pairwise_cons.mp h).2, List.filter_cons_of_pos (by simpa using he)]
        simp [he]

theorem reduceOption_filter (road : List (Option Entry)) :
    (road.filter (notBelow start)).reduceOption =
      road.reduceOption.filter fun e => start ≤ e.key := by
  induction road with
  | nil => rfl
  | cons o road ih =>
    cases o with
    | none => exact ih
    | some e =>
      rw [List.reduceOption_cons_of_some, List.filter_cons, List.filter_cons, ← ih]
      split
      · next he => rw [if_pos (by exact he), List.reduceOption_cons_of_some]
      · next he => rw [if_neg (by exact he)]

theorem upToFault_filter (road : List (Option Entry)) :
    upToFault (road.filter (notBelow start)) = (upToFault road).filter fun e => start ≤ e.key := by
  have htake : (road.filter (notBelow start)).takeWhile Option.isSome =
      (road.takeWhile Option.isSome).filter (notBelow start) := by
    rw [List.takeWhile_filter]
    congr 2
    funext o
    cases o with
    | none => rfl
    | some e => simp
  rw [upToFault, htake, reduceOption_filter, upToFault]

theorem filter_inRange (es : List Entry) :
    (es.filter fun e => start ≤ e.key).filter (fun e => !isPast stop e.key) =
      es.filter fun e => inRange start stop e.key := by
  rw [List.filter_filter]
  refine List.filter_congr fun e _ => ?_
  rw [inRange_eq, Bool.and_comm]

theorem reduceOption_map_some {α : Type} (l : List α) : (l.map some).reduceOption = l := by
  rw [List.reduceOption, List.filterMap_map]
  exact List.filterMap_some

/-- What can be read of a table is in the order of the table. -/
theorem sublist_stops (bs : List SeenBlock) (ps : List SeenPart) :
    (stops bs ps).reduceOption.Sublist
      (bs.flatMap SeenBlock.entries ++ ps.flatMap SeenPart.entries) := by
  have hblocks : ∀ bs : List SeenBlock, (bs.flatMap SeenBlock.stops).reduceOption.Sublist
      (bs.flatMap SeenBlock.entries) := by
    intro bs
    rw [List.reduceOption, List.filterMap_flatMap]
    refine List.Sublist.flatMap_right bs fun b _ => ?_
    unfold SeenBlock.stops
    split
    · rw [← List.reduceOption, reduceOption_map_some]
    · exact List.nil_sublist _
  rw [stops, List.reduceOption_append]
  refine (hblocks bs).append ?_
  rw [List.reduceOption, List.filterMap_flatMap]
  refine List.Sublist.flatMap_right ps fun p _ => ?_
  unfold SeenPart.stops
  split
  · exact hblocks p.blocks
  · exact List.nil_sublist _

theorem landed_sorted (h : Sequenced seen) :
    (landed start seen).reduceOption.Pairwise fun a b => a.key ≤ b.key := by
  have hdrop : ((seen.drop (landing (seen.map SeenPart.key) start)).flatMap
      SeenPart.entries).Pairwise fun a b => a.key ≤ b.key :=
    h.sorted.sublist ((List.drop_sublist _ _).flatMap _)
  unfold landed
  cases hparts : seen.drop (landing (seen.map SeenPart.key) start) with
  | nil => exact .nil
  | cons p ps =>
    rw [hparts] at hdrop
    rw [fromLanding]
    split
    · refine hdrop.sublist ((sublist_stops _ ps).trans ?_)
      rw [List.flatMap_cons]
      exact ((List.drop_sublist _ _).flatMap _).append (.refl _)
    · exact hdrop.sublist (sublist_stops [] _)

theorem filter_stops_below (hbs : ∀ e ∈ bs.flatMap SeenBlock.entries, e.key < start)
    (hps : ∀ e ∈ ps.flatMap SeenPart.entries, e.key < start) :
    (stops bs ps).reduceOption.filter (fun e => inRange start stop e.key) = [] := by
  refine List.filter_eq_nil_iff.mpr fun e he hin => ?_
  have hlt : e.key < start := (mem_stops (List.reduceOption_mem_iff.mp he)).elim (hbs e) (hps e)
  rw [inRange_eq, Bool.and_eq_true, decide_eq_true_eq] at hin
  exact absurd hin.1 (not_le.mpr hlt)

section

variable (h : Sequenced seen) (hne : seen ≠ []) (hlt : (seen.flatMap SeenPart.entries).Pairwise fun a b => a.key < b.key)
include h hne hlt

/-- What is before the landing is not in the range. -/
theorem filter_landed :
    (landed start seen).reduceOption.filter (fun e => inRange start stop e.key) =
      (seen.flatMap SeenPart.stops).reduceOption.filter fun e => inRange start stop e.key := by
  obtain ⟨as, p, ps, rfl, hlanding, -, hbefore⟩ :=
    exists_landing hne (fun p hp => h.part_ne_nil hp) h.sorted start
  change landing ((as ++ p :: ps).map SeenPart.key) start = as.length at hlanding
  have has : (as.flatMap SeenPart.stops).reduceOption.filter
      (fun e => inRange start stop e.key) = [] := by
    show (stops [] as).reduceOption.filter _ = []
    exact filter_stops_below (fun e he => absurd he List.not_mem_nil) (hbefore hlt)
  rw [landed, hlanding, List.drop_left, fromLanding, List.flatMap_append, List.reduceOption_append,
    List.filter_append, has, List.nil_append]
  split
  · next hread =>
    have hp : p ∈ as ++ p :: ps := List.mem_append_right _ List.mem_cons_self
    obtain ⟨cs, b, ds, hsplit, hplace, -, hblocks⟩ := h.exists_block hp start
    have hcs : (cs.flatMap SeenBlock.stops).reduceOption.filter
        (fun e => inRange start stop e.key) = [] := by
      have hnil : (stops cs []).reduceOption.filter (fun e => inRange start stop e.key) = [] :=
        filter_stops_below (hblocks hlt) fun e he => absurd he List.not_mem_nil
      rwa [stops, List.flatMap_nil, List.append_nil] at hnil
    have hstops : p.stops = cs.flatMap SeenBlock.stops ++ (b :: ds).flatMap SeenBlock.stops := by
      rw [SeenPart.stops, if_pos hread, hsplit, List.flatMap_append]
    rw [hplace, hsplit, List.drop_left, List.flatMap_cons, hstops, stops]
    simp only [List.reduceOption_append, List.filter_append, hcs, List.nil_append]
  · rfl

/-- **A scan that skips.** -/
theorem gives_scanRoad_skip :
    gives true stop (scanRoad start seen) =
      ((seen.flatMap SeenPart.stops).reduceOption.filter fun e => inRange start stop e.key, false) := by
  have hsorted : ((landed start seen).reduceOption.filter fun e => start ≤ e.key).Pairwise
      fun a b => a.key ≤ b.key := (landed_sorted h).filter _
  rw [← reduceOption_filter] at hsorted
  rw [scanRoad_eq h hne hlt, gives_skip hsorted, reduceOption_filter, filter_inRange,
    filter_landed h hne hlt]

/-- **A scan that does not skip.** -/
theorem gives_scanRoad_failFast :
    gives false stop (scanRoad start seen) =
      ((upToFault (landed start seen)).filter fun e => inRange start stop e.key,
        decide (none ∈ landed start seen ∧
          ∀ e ∈ upToFault (landed start seen), start ≤ e.key → isPast stop e.key = false)) := by
  have hsorted : ((upToFault (landed start seen)).filter fun e => start ≤ e.key).Pairwise
      fun a b => a.key ≤ b.key :=
    ((landed_sorted h).sublist ((List.takeWhile_sublist _).filterMap id)).filter _
  rw [← upToFault_filter] at hsorted
  rw [scanRoad_eq h hne hlt, gives_failFast hsorted, upToFault_filter, filter_inRange]
  have hnone : none ∈ (landed start seen).filter (notBelow start) ↔ none ∈ landed start seen :=
    List.mem_filter.trans (and_iff_left rfl)
  simp only [hnone, List.mem_filter, decide_eq_true_eq, and_imp]

end

/-! ## Tables that can be read -/

theorem sublist_sought (gs : List (List Entry)) (start : Bytes) :
    (sought gs start).Sublist gs.flatten := by
  unfold sought
  split
  · exact (List.dropWhile_sublist _).trans (List.drop_sublist _ _).flatten
  · exact List.Sublist.refl _

/-- A scan comes to entries of the table in their order. -/
theorem sublist_seekParts (start : Bytes) (ps : List SeenPart) :
    (seekParts start ps).reduceOption.Sublist (ps.flatMap SeenPart.entries) := by
  induction ps with
  | nil => exact List.Sublist.refl _
  | cons p ps ih =>
    have hblocks : ∀ bs : List SeenBlock,
        (seekBlocks start ps (seekParts start ps) bs).reduceOption.Sublist
          (bs.flatMap SeenBlock.entries ++ ps.flatMap SeenPart.entries) := by
      intro bs
      induction bs with
      | nil => exact ih
      | cons b bs ihb =>
        rw [List.flatMap_cons, List.append_assoc, seekBlocks]
        split
        · rw [List.reduceOption_append, reduceOption_map_some]
          exact (sublist_sought b.groups start).append (sublist_stops bs ps)
        · exact ihb.trans (List.sublist_append_right _ _)
    rw [seekParts, List.flatMap_cons]
    split
    · exact (hblocks _).trans (((List.drop_sublist _ _).flatMap _).append (.refl _))
    · exact ih.trans (List.sublist_append_right _ _)

theorem sublist_scanRoad (start : Bytes) (seen : List SeenPart) :
    (scanRoad start seen).reduceOption.Sublist (seen.flatMap SeenPart.entries) :=
  (sublist_seekParts start _).trans ((List.drop_sublist _ _).flatMap _)

/-- Everything can be read. -/
def Whole (seen : List SeenPart) : Prop :=
  ∀ p ∈ seen, p.readable = true ∧ ∀ b ∈ p.blocks, b.readable = true

theorem stops_of_whole (hbs : ∀ b ∈ bs, b.readable = true) (hps : Whole ps) :
    stops bs ps = (bs.flatMap SeenBlock.entries ++ ps.flatMap SeenPart.entries).map some := by
  have hblocks : ∀ bs : List SeenBlock, (∀ b ∈ bs, b.readable = true) →
      bs.flatMap SeenBlock.stops = (bs.flatMap SeenBlock.entries).map some := by
    intro bs hbs
    rw [List.map_flatMap]
    exact List.flatMap_congr fun b hb => if_pos (hbs b hb)
  rw [stops, List.map_append, hblocks bs hbs, List.append_cancel_left_eq, List.map_flatMap]
  refine List.flatMap_congr fun p hp => ?_
  rw [SeenPart.stops, if_pos (hps p hp).1, hblocks p.blocks (hps p hp).2, SeenPart.entries]

theorem none_not_mem_seekParts (h : Whole ps) (start : Bytes) : none ∉ seekParts start ps := by
  induction ps with
  | nil => exact List.not_mem_nil
  | cons p ps ih =>
    obtain ⟨hp, hblocks⟩ := h p List.mem_cons_self
    have hps : Whole ps := fun q hq => h q (List.mem_cons_of_mem _ hq)
    rw [seekParts, if_pos hp]
    cases hdrop : p.blocks.drop (landing (p.blocks.map SeenBlock.key) start) with
    | nil =>
      rw [seekBlocks]
      exact ih hps
    | cons b bs =>
      have hmem : ∀ d ∈ b :: bs, d ∈ p.blocks := fun d hd => List.mem_of_mem_drop (hdrop ▸ hd)
      rw [seekBlocks, if_pos (hblocks b (hmem b List.mem_cons_self)),
        stops_of_whole (fun d hd => hblocks d (hmem d (List.mem_cons_of_mem _ hd))) hps]
      simp

theorem Whole.none_not_mem (h : Whole seen) (start : Bytes) : none ∉ scanRoad start seen :=
  none_not_mem_seekParts (fun p hp => h p (List.mem_of_mem_drop hp)) start

theorem countP_isNone {road : List (Option Entry)} (hnone : none ∉ road) :
    road.countP Option.isNone = 0 :=
  List.countP_eq_zero.mpr fun _ ho hisNone => hnone (Option.isNone_iff_eq_none.mp hisNone ▸ ho)

/-- A road without faults is as long as what it yields. -/
theorem Whole.length_le (h : Whole seen) (start : Bytes) :
    (scanRoad start seen).length ≤ (seen.flatMap SeenPart.entries).length := by
  have hall : ∀ o ∈ scanRoad start seen, o.isSome = true := by
    intro o ho
    cases o with
    | none => exact absurd ho (h.none_not_mem start)
    | some e => rfl
  rw [← List.reduceOption_length_eq_iff.mpr hall]
  exact (sublist_scanRoad start seen).length_le

theorem Whole.reduceOption_stops (h : Whole seen) :
    (seen.flatMap SeenPart.stops).reduceOption = seen.flatMap SeenPart.entries := by
  have hall : stops [] seen = _ := stops_of_whole (fun b hb => absurd hb List.not_mem_nil) h
  exact (congrArg List.reduceOption hall).trans (reduceOption_map_some _)

end

end LSMEngine.Format
