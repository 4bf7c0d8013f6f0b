import LSMEngine.Format.Bloom
import LSMEngine.Format.Caches
import LSMEngine.Format.Layout
import LSMEngine.Format.Search
/-!
# Format — lookups in a table that is served

What a reader needs of its source in order to serve a table (`Serves`):
its index leads to the partitions, the blocks and their groups, the
filters rule out none of their entries, and the key range leaves none
out. A lookup then comes to the first entry with the key in one group:
that of the key in the block chosen for it, in the partition chosen for
it (`pipelineGet_served`). The keys need not be different.
-/

namespace LSMEngine.Format

variable {b : List (List Entry)} {p : Blocks}

/-! ## Tables -/

/-- The first key of a partition. -/
def partKey (part : Blocks) : Bytes := firstKey part.flatten.flatten

/-- A filter that answers, and rules out none of the entries. -/
structure Covers (f : Filter) (es : List Entry) : Prop where
  answers : ∀ key, ∃ b, f.mayContain key = .ok b
  contains : ∀ e ∈ es, f.mayContain e.key = .ok true

/-- An entry of the index leads to a block. -/
structure BlockAt (P : Platform) (src : Source) (r : Reader) (e : IndexEntry)
    (b : List (List Entry)) : Prop where
  key : e.key = blockKey b
  valid : r.validateEntry e .badBlock = .ok ()
  read : readDataBlock P src e = .ok (blockOf b)

/-- An entry at the top leads to a partition of the index. -/
structure PartAt (P : Platform) (src : Source) (r : Reader) (e : IndexEntry) (part : Blocks) :
    Prop where
  key : e.key = partKey part
  read : ∃ index, readIndexBlock P src e = .ok index ∧ List.Forall₂ (BlockAt P src r) index part

/-- An entry of the filter index leads to the filter of a partition. -/
structure FilterAt (P : Platform) (src : Source) (e : IndexEntry) (part : Blocks) : Prop where
  key : e.key = partKey part
  read : ∃ f, readFilterBlock P src e = .ok f ∧ Covers f part.flatten.flatten

/-- A block with entries, small enough for its offsets. -/
structure Sized (b : List (List Entry)) : Prop where
  ne_nil : b ≠ []
  nonempty : ∀ g ∈ b, g ≠ []
  short : ∀ e ∈ b.flatten, Short e
  small : (blockData b).length < 2 ^ 32

/-- The reader serves the partitions of a table from the source. -/
structure Serves (P : Platform) (src : Source) (r : Reader) (parts : List Blocks) : Prop where
  ne_nil : parts ≠ []
  nonempty : ∀ p ∈ parts, p ≠ []
  sized : ∀ p ∈ parts, ∀ b ∈ p, Sized b
  sorted : parts.flatten.flatten.flatten.Pairwise fun a b => a.key ≤ b.key
  index : if r.partitioned then List.Forall₂ (PartAt P src r) r.top parts
    else ∃ bs, parts = [bs] ∧ List.Forall₂ (BlockAt P src r) r.top bs
  filters : if r.filterPartitioned then List.Forall₂ (FilterAt P src) r.filterIndex parts
    else ∀ f ∈ r.filter, Covers f parts.flatten.flatten.flatten
  inside : ∀ e ∈ parts.flatten.flatten.flatten, r.isOutside e.key = false
  coherent : Coherent P src r

/-! ## Sections -/

/-- In sections of sorted entries the first keys are in order. -/
theorem pairwise_firstKey {α : Type} {f : α → List Entry} {items : List α}
    (hne : ∀ x ∈ items, f x ≠ []) (h : (items.map f).flatten.Pairwise fun a b => a.key ≤ b.key) :
    items.Pairwise fun a b => firstKey (f a) ≤ firstKey (f b) := by
  have hsections := List.pairwise_map.mp (List.pairwise_flatten.mp h).2
  refine hsections.imp_of_mem fun {a b} ha hb hab => ?_
  obtain ⟨x, hx, hfx⟩ := firstKey_mem (hne a ha)
  obtain ⟨y, hy, hfy⟩ := firstKey_mem (hne b hb)
  rw [hfx, hfy]
  exact hab x hx y hy

/-- The entries of a table, by partition. -/
theorem flatten_parts (parts : List Blocks) :
    parts.flatten.flatten.flatten = (parts.map fun p => p.flatten.flatten).flatten := by
  rw [List.flatten_flatten (L := parts), List.flatten_flatten, List.map_map]
  rfl

theorem Sized.flatten_ne_nil (h : Sized b) : b.flatten ≠ [] := by
  obtain ⟨g, gs, rfl⟩ := List.exists_cons_of_ne_nil h.ne_nil
  exact List.append_ne_nil_of_left_ne_nil (h.nonempty g List.mem_cons_self) _

theorem flatten_flatten_ne_nil (hp : p ≠ []) (hb : ∀ b ∈ p, b.flatten ≠ []) :
    p.flatten.flatten ≠ [] := by
  obtain ⟨b, bs, rfl⟩ := List.exists_cons_of_ne_nil hp
  rw [List.flatten_cons, List.flatten_append]
  exact List.append_ne_nil_of_left_ne_nil (hb b List.mem_cons_self) _

section

variable {P : Platform} {src : Source} {r : Reader} {parts : List Blocks}

section

variable (h : Serves P src r parts)
include h

theorem Serves.part_ne_nil (hp : p ∈ parts) : p.flatten.flatten ≠ [] :=
  flatten_flatten_ne_nil (h.nonempty p hp) fun b hb => (h.sized p hp b hb).flatten_ne_nil

/-- The entries of a partition are in order. -/
theorem Serves.sorted_part (hp : p ∈ parts) :
    p.flatten.flatten.Pairwise fun a b => a.key ≤ b.key := by
  have hsorted := h.sorted
  rw [flatten_parts] at hsorted
  exact hsorted.sublist (List.sublist_flatten_of_mem
    (List.mem_map_of_mem (f := fun p => p.flatten.flatten) hp))

theorem Serves.sorted_block (hp : p ∈ parts) (hb : b ∈ p) :
    b.flatten.Pairwise fun a b => a.key ≤ b.key := by
  have hsorted := h.sorted_part hp
  rw [List.flatten_flatten] at hsorted
  exact hsorted.sublist (List.sublist_flatten_of_mem (List.mem_map_of_mem hb))

theorem Serves.partKeys : parts.Pairwise fun a b => partKey a ≤ partKey b := by
  have hsorted := h.sorted
  rw [flatten_parts] at hsorted
  exact pairwise_firstKey (fun p hp => h.part_ne_nil hp) hsorted

theorem Serves.blockKeys (hp : p ∈ parts) : p.Pairwise fun a b => blockKey a ≤ blockKey b := by
  have hsorted := h.sorted_part hp
  rw [List.flatten_flatten] at hsorted
  exact pairwise_firstKey (fun b hb => (h.sized p hp b hb).flatten_ne_nil) hsorted

theorem Serves.grouped (hp : p ∈ parts) (hb : b ∈ p) : Grouped b :=
  ⟨(h.sized p hp b hb).ne_nil, (h.sized p hp b hb).nonempty, h.sorted_block hp hb⟩

end

/-- A partition starts with its first block. -/
theorem partKey_cons (h : b.flatten ≠ []) (bs : Blocks) :
    partKey (b :: bs) = blockKey b := by
  obtain ⟨e, es, hflat⟩ := List.exists_cons_of_ne_nil h
  rw [partKey, blockKey, List.flatten_cons, List.flatten_append, hflat]
  rfl

/-- A partition that does not start above a key has a block for it. -/
theorem Serves.chooses_block (h : Serves P src r parts) (hp : p ∈ parts) {k : Bytes}
    (hle : partKey p ≤ k) :
    ∃ as b bs, findKey (p.map blockKey) k = some as.length ∧ Chooses blockKey p k as b bs := by
  rcases findKey_spec (h.blockKeys hp) k with ⟨-, hlt⟩ | hc
  · obtain ⟨b, bs, rfl⟩ := List.exists_cons_of_ne_nil (h.nonempty p hp)
    rw [partKey_cons (h.sized _ hp b List.mem_cons_self).flatten_ne_nil] at hle
    exact absurd (hlt b List.mem_cons_self) (not_lt.mpr hle)
  · exact hc

/-! ## The filter -/

/-- **The filter** answers, and where it says no, the partition of the
key does not have it. -/
theorem mayContain_served (h : Serves P src r parts) (k : Bytes) :
    Prog.Keeps (Sound P src r) (r.mayContain P src k) fun x =>
      ∃ b, x = .ok b ∧ (b = false → ∀ i p, findKey (parts.map partKey) k = some i →
        parts[i]? = some p → ∀ e ∈ p.flatten.flatten, e.key ≠ k) := by
  have hfilters := h.filters
  rw [Reader.mayContain]
  split
  · -- partitioned: only the filter of the partition the key falls in is asked
    next hpart =>
    rw [if_pos hpart] at hfilters
    rw [findBlock_eq hfilters fun _ _ hx => hx.key]
    rcases findKey_spec h.partKeys k with ⟨hnone, -⟩ | ⟨as, p, bs, hsome, hc⟩
    · rw [hnone]
      exact .pure ⟨true, rfl, fun hf => by cases hf⟩
    · obtain ⟨e, he, hat, hfilter⟩ := entryAt_of_forall₂ (hc.split ▸ hfilters)
      obtain ⟨f, hread, hcovers⟩ := hfilter.read
      rw [hsome]
      refine .bind_ok (a := e) (.lift hat) (.bind_ok (a := f) ?_ ?_)
      · exact (fetchFilter_keeps h.coherent (.refl P src) he).mono
          fun x hx => (hx.elim id id).trans hread
      · obtain ⟨b, hb⟩ := hcovers.answers k
        refine .lift ⟨b, hb, fun hfalse i p' hi hp' e' he' hkey => ?_⟩
        obtain rfl := Option.some.inj hi
        rw [hc.split, List.getElem?_append_right le_rfl, Nat.sub_self] at hp'
        obtain rfl : p = p' := Option.some.inj hp'
        have hcontains := hcovers.contains e' he'
        rw [hkey, hb, hfalse] at hcontains
        cases hcontains
  · -- one filter covers the table, so it covers every partition
    next hpart =>
    rw [if_neg hpart] at hfilters
    split
    · exact .pure ⟨true, rfl, fun hf => by cases hf⟩
    · next f hf =>
      obtain ⟨b, hb⟩ := (hfilters f hf).answers k
      refine .lift ⟨b, hb, fun hfalse i p _ hp e he hkey => ?_⟩
      have hmem : e ∈ parts.flatten.flatten.flatten := by
        rw [flatten_parts]
        exact List.mem_flatten_of_mem (List.mem_map_of_mem (List.mem_of_getElem? hp)) he
      have hcontains := (hfilters f hf).contains e hmem
      rw [hkey, hb, hfalse] at hcontains
      cases hcontains

/-! ## The index -/

/-- **The index** misses only keys before the first one, and leads every
other key to the block chosen for it in the partition chosen for it. -/
theorem find_served (h : Serves P src r parts) (k : Bytes) :
    (Prog.Keeps (Sound P src r) (r.find P src k) (· = .ok none) ∧
        ∀ e ∈ parts.flatten.flatten.flatten, k < e.key) ∨
      ∃ as p bs as' b bs' e, findKey (parts.map partKey) k = some as.length ∧
        Chooses partKey parts k as p bs ∧ Chooses blockKey p k as' b bs' ∧
        BlockAt P src r e b ∧ DataEntry P src r e ∧
        Prog.Keeps (Sound P src r) (r.find P src k) (· = .ok (some e)) := by
  have hindex := h.index
  -- a key before every partition is before every entry
  have hbefore : (∀ p ∈ parts, k < partKey p) → ∀ e ∈ parts.flatten.flatten.flatten, k < e.key := by
    intro hlt e he
    rw [flatten_parts] at he
    obtain ⟨s, hs, hmem⟩ := List.mem_flatten.mp he
    obtain ⟨p, hp, rfl⟩ := List.mem_map.mp hs
    exact (hlt p hp).trans_le (firstKey_le (h.sorted_part hp) hmem)
  rw [Reader.find]
  by_cases hpart : r.partitioned = true
  · rw [if_pos hpart] at hindex
    rw [findBlock_eq hindex fun _ _ hx => hx.key]
    rcases findKey_spec h.partKeys k with ⟨hnone, hlt⟩ | ⟨as, p, bs, hsome, hc⟩
    · rw [hnone]
      exact .inl ⟨.pure rfl, hbefore hlt⟩
    · right
      have hp : p ∈ parts := hc.mem
      obtain ⟨t, ht, hat, hpartAt⟩ := entryAt_of_forall₂ (hc.split ▸ hindex)
      obtain ⟨index, hread, hblocks⟩ := hpartAt.read
      obtain ⟨as', b, bs', hsome', hc'⟩ := h.chooses_block hp hc.le
      obtain ⟨e, he, hat', hblockAt⟩ := entryAt_of_forall₂ (hc'.split ▸ hblocks)
      refine ⟨as, p, bs, as', b, bs', e, hsome, hc, hc', hblockAt, ?_, ?_⟩
      · rw [DataEntry, if_pos hpart]
        exact ⟨t, ht, index, hread, he⟩
      · rw [hsome]
        refine .bind_ok (a := t) (.lift hat) ?_
        rw [if_pos hpart]
        refine .bind_ok (a := index) ?_ ?_
        · exact (fetchIndex_keeps h.coherent (.refl P src) ht).mono
            fun x hx => (hx.elim id id).trans hread
        · rw [findBlock_eq hblocks (fun _ _ hx => hx.key), hsome']
          exact .bind_ok (a := e) (.lift hat') (.pure rfl)
  · rw [if_neg hpart] at hindex
    obtain ⟨bs, rfl, hblocks⟩ := hindex
    rw [findBlock_eq hblocks fun _ _ hx => hx.key]
    rcases findKey_spec h.partKeys k with ⟨-, hlt⟩ | ⟨as, p, bs', hsome, hc⟩
    · left
      have hnone : findKey (bs.map blockKey) k = none := by
        rcases findKey_spec (h.blockKeys List.mem_cons_self) k with ⟨hnone, -⟩ | ⟨as, b, bs', -, hc⟩
        · exact hnone
        · have hb : b ∈ bs := hc.mem
          obtain ⟨e, he, hkey⟩ := firstKey_mem (h.sized bs List.mem_cons_self b hb).flatten_ne_nil
          have hmem : e ∈ [bs].flatten.flatten.flatten := by
            rw [List.flatten_singleton]
            exact List.mem_flatten_of_mem (List.mem_flatten_of_mem hb (List.mem_flatten.mp he).choose_spec.1)
              (List.mem_flatten.mp he).choose_spec.2
          exact absurd (hbefore hlt e hmem) (not_lt.mpr (hkey ▸ hc.le))
      rw [hnone]
      exact ⟨.pure rfl, hbefore hlt⟩
    · right
      have hp : p ∈ [bs] := hc.mem
      obtain rfl := List.mem_singleton.mp hp
      obtain ⟨as', b, bs'', hsome', hc'⟩ := h.chooses_block hp hc.le
      obtain ⟨e, he, hat, hblockAt⟩ := entryAt_of_forall₂ (hc'.split ▸ hblocks)
      refine ⟨as, p, bs', as', b, bs'', e, hsome, hc, hc', hblockAt, ?_, ?_⟩
      · rw [DataEntry, if_neg hpart]
        exact he
      · rw [hsome']
        refine .bind_ok (a := e) (.lift hat) ?_
        rw [if_neg hpart]
        exact .pure rfl

/-! ## Lookups -/

/-- The way of a lookup of a key: the partition, the block and the group
it ends in, each between those before and behind it. -/
structure Route (parts : List Blocks) (k : Bytes) where
  partsBefore : List Blocks
  part : Blocks
  partsBehind : List Blocks
  blocksBefore : Blocks
  block : List (List Entry)
  blocksBehind : Blocks
  groupsBefore : List (List Entry)
  group : List Entry
  groupsBehind : List (List Entry)
  part_chosen : Chooses partKey parts k partsBefore part partsBehind
  block_chosen : Chooses blockKey part k blocksBefore block blocksBehind
  group_picked : PicksGroup block k groupsBefore group groupsBehind

/-- **A lookup** comes to the first entry with the key in the group of
the key, and to nothing where every key is behind it. -/
theorem pipelineGet_served (h : Serves P src r parts) (k : Bytes) :
    (Prog.Keeps (Sound P src r) (r.pipelineGet P src k) (· = .ok none) ∧
        ∀ e ∈ parts.flatten.flatten.flatten, k < e.key) ∨
      ∃ route : Route parts k, Prog.Keeps (Sound P src r) (r.pipelineGet P src k)
        (· = .ok ((route.group.find? fun e => e.key = k).map Entry.view)) := by
  have hmay := mayContain_served h k
  rcases find_served h k with ⟨hfind, hlt⟩ | ⟨as, p, bs, as', b, bs', e, hsome, hc, hc', he, hdata, hfind⟩
  · left
    refine ⟨hmay.bind (fun b _ => ?_) (fun f hf => absurd hf fun ⟨_, hok, _⟩ => nomatch hok), hlt⟩
    cases b with
    | false => exact .pure rfl
    | true => exact .bind_ok (a := none) hfind (.pure rfl)
  · right
    have hp : p ∈ parts := hc.mem
    have hb : b ∈ p := hc'.mem
    have hsized := h.sized p hp b hb
    obtain ⟨gs, g, gs', hpick, hview⟩ := findView_blockOf (h.grouped hp hb) hsized.short hsized.small k
    refine ⟨⟨as, p, bs, as', b, bs', gs, g, gs', hc, hc', hpick⟩, ?_⟩
    refine hmay.bind (fun m hm => ?_) fun f hf => absurd hf fun ⟨_, hok, _⟩ => nomatch hok
    obtain ⟨m', hmm, hno⟩ := hm
    obtain rfl := Except.ok.inj hmm
    cases m with
    | false =>
      -- the filter rules the key out, and rightly so
      have hget : parts[as.length]? = some p := by
        rw [hc.split, List.getElem?_append_right le_rfl, Nat.sub_self]
        rfl
      have hnone : g.find? (fun e => decide (e.key = k)) = none := by
        rw [List.find?_eq_none]
        intro d hd
        have hg : g ∈ b := hpick.mem
        have hmem : d ∈ p.flatten.flatten :=
          List.mem_flatten_of_mem (List.mem_flatten_of_mem hb hg) hd
        simpa using hno rfl as.length p hsome hget d hmem
      simp only [hnone]
      exact .pure rfl
    | true =>
      refine .bind_ok (a := some e) hfind ?_
      refine .bind_ok (a := blockOf b) ?_ (.lift hview)
      refine .bind_ok (a := ()) (.lift he.valid) ?_
      exact (fetchBlock_keeps h.coherent (.refl P src) hdata).mono
        fun x hx => (hx.elim id id).trans he.read

end

end LSMEngine.Format
