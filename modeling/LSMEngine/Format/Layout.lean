import LSMEngine.Format.Block
import LSMEngine.Format.Frame
import LSMEngine.Format.Model.Writer
import Mathlib.Data.List.Forall2
/-!
# Format — where the writer cuts

The loop of `Flush` without its bytes: a list of blocks, each a list of
restart groups. The loop itself writes exactly these blocks and lists
them in the index (`writeBlocks_spec`).
-/

namespace LSMEngine.Format

/-- Entries by block and group. -/
abbrev Blocks := List (List (List Entry))

/-! ## The cut -/

/-- The blocks cut so far, and the groups of the one that is built. -/
structure Cut where
  builder : Builder
  groups : List (List Entry)
  blocks : Blocks

namespace Cut

variable (o : Options)

/-- The block is done. -/
def flush (c : Cut) : Cut := ⟨c.builder.reset, [], c.blocks ++ [c.groups]⟩

def add (c : Cut) (e : Entry) : Cut :=
  ⟨c.builder.add e, addToGroups c.groups e (c.builder.nextEntrySizing e).restart, c.blocks⟩

/-- The cut ahead of an entry. -/
def before (c : Cut) (e : Entry) : Cut :=
  if 0 < c.builder.sizeBytes ∧ o.blockTargetBytes < c.builder.estimatedSizeAfter e then c.flush
  else c

/-- An entry goes into a block, which is done if it has the size. -/
def place (c : Cut) (e : Entry) : Cut :=
  if c.builder.sizeBytes = 0 ∧ o.blockMaxBytes < c.builder.estimatedSizeAfter e then
    (c.add e).flush
  else if o.blockMaxBytes ≤ (c.add e).builder.sizeBytes then (c.add e).flush
  else c.add e

def step (c : Cut) (e : Entry) : Cut := (c.before o e).place o e

def start : Cut := ⟨(newOutput o).builder, [], []⟩

/-- The last block. -/
def finish (c : Cut) : Cut := if 0 < c.builder.sizeBytes then c.flush else c

end Cut

/-- The blocks of a file. -/
def layout (o : Options) (entries : List Entry) : Blocks :=
  (entries.foldl (Cut.step o) (Cut.start o)).finish.blocks

/-! ## What a block is written as -/

/-- The payload of a block. -/
def payloadOf (gs : List (List Entry)) : Bytes :=
  blockData gs ++ (((groupOffsets 0 gs).map UInt32.ofNat).flatMap (fun off => leBytes 4 off.toNat) ++
    leBytes 4 gs.length)

/-- A block in its frame. -/
def encodedBlock (P : Platform) (o : Options) (gs : List (List Entry)) : Bytes :=
  match compressPayload P (payloadOf gs) o.compression with
  | .ok (z, n) => encodeBlock z .data o.compression n
  | .error _ => []

/-- The key of a block in the index. -/
def blockKey (gs : List (List Entry)) : Bytes := firstKey gs.flatten

/-- The block can be compressed. -/
def Packs (P : Platform) (o : Options) (gs : List (List Entry)) : Prop :=
  ∃ z n, compressPayload P (payloadOf gs) o.compression = .ok (z, n)

theorem finish_eq_payloadOf {b : Builder} {gs : List (List Entry)} (h : b.Holds gs) :
    b.finish = payloadOf gs := by
  rw [Builder.finish, payloadOf, h.buf, h.restarts, List.length_map, length_groupOffsets]

/-! ## The cut keeps the entries -/

/-- The cut of some entries. -/
structure Cut.Of (c : Cut) (entries : List Entry) : Prop where
  holds : c.builder.Holds c.groups
  blocks : ∀ b ∈ c.blocks, b ≠ [] ∧ ∀ g ∈ b, g ≠ []
  entries : c.blocks.flatten.flatten ++ c.groups.flatten = entries

namespace Cut.Of

variable {o : Options} {c : Cut} {es : List Entry}

theorem start (o : Options) : (Cut.start o).Of [] :=
  ⟨holds_newBuilder _ _ _ _, fun _ hb => absurd hb List.not_mem_nil, rfl⟩

theorem flush (h : c.Of es) (hgroups : c.groups ≠ []) : c.flush.Of es := by
  refine ⟨holds_reset _, fun b hb => ?_, ?_⟩
  · rcases List.mem_append.mp hb with hb | hb
    · exact h.blocks b hb
    · rw [List.mem_singleton.mp hb]
      exact ⟨hgroups, h.holds.nonempty⟩
  · rw [← h.entries, Cut.flush, List.flatten_append, List.flatten_append, List.flatten_singleton]
    exact List.append_nil _

theorem add (h : c.Of es) (e : Entry) : (c.add e).Of (es ++ [e]) := by
  refine ⟨h.holds.add e, h.blocks, ?_⟩
  rw [Cut.add, h.holds.flatten_addToGroups, ← List.append_assoc, h.entries]

theorem groups_add (h : c.Of es) (e : Entry) : (c.add e).groups ≠ [] := by
  intro hnil
  have := h.holds.flatten_addToGroups e
  rw [show addToGroups c.groups e (c.builder.nextEntrySizing e).restart = [] from hnil] at this
  exact List.append_ne_nil_of_right_ne_nil _ (List.cons_ne_nil e []) this.symm

theorem before (h : c.Of es) (e : Entry) : (c.before o e).Of es := by
  unfold Cut.before
  split
  · next hcut => exact h.flush (h.holds.sizeBytes_pos_iff.mp hcut.1)
  · exact h

theorem place (h : c.Of es) (e : Entry) : (c.place o e).Of (es ++ [e]) := by
  unfold Cut.place
  split
  · exact (h.add e).flush (h.groups_add e)
  · split
    · exact (h.add e).flush (h.groups_add e)
    · exact h.add e

theorem step (h : c.Of es) (e : Entry) : (c.step o e).Of (es ++ [e]) := (h.before e).place e

theorem foldl (h : c.Of es) (ds : List Entry) : (ds.foldl (Cut.step o) c).Of (es ++ ds) := by
  induction ds generalizing c es with
  | nil => rwa [List.append_nil]
  | cons d ds ih =>
    have := ih (h.step (o := o) d)
    rwa [List.append_assoc, List.singleton_append] at this

theorem finish (h : c.Of es) : c.finish.Of es ∧ c.finish.groups = [] := by
  unfold Cut.finish
  split
  · next hpos => exact ⟨h.flush (h.holds.sizeBytes_pos_iff.mp hpos), rfl⟩
  · next hpos => exact ⟨h, not_not.mp fun hne => hpos (h.holds.sizeBytes_pos_iff.mpr hne)⟩

end Cut.Of

/-- **The blocks hold the entries**, and none is empty. -/
theorem layout_spec (o : Options) (entries : List Entry) :
    (layout o entries).flatten.flatten = entries ∧
      ∀ b ∈ layout o entries, b ≠ [] ∧ ∀ g ∈ b, g ≠ [] := by
  obtain ⟨h, hgroups⟩ := ((Cut.Of.start o).foldl (o := o) entries).finish
  refine ⟨?_, h.blocks⟩
  have := h.entries
  rwa [hgroups, List.flatten_nil, List.append_nil, List.nil_append] at this

/-! ## Blocks only grow in number -/

theorem Cut.flush_blocks (c : Cut) : c.blocks <+: c.flush.blocks := List.prefix_append _ _

theorem Cut.before_blocks (o : Options) (c : Cut) (e : Entry) : c.blocks <+: (c.before o e).blocks := by
  unfold Cut.before
  split
  · exact c.flush_blocks
  · exact List.prefix_rfl

theorem Cut.place_blocks (o : Options) (c : Cut) (e : Entry) :
    c.blocks <+: (c.place o e).blocks := by
  unfold Cut.place
  split
  · exact (c.add e).flush_blocks
  · split
    · exact (c.add e).flush_blocks
    · exact List.prefix_rfl

theorem Cut.foldl_blocks (o : Options) (c : Cut) (es : List Entry) :
    c.blocks <+: (es.foldl (Cut.step o) c).blocks := by
  induction es generalizing c with
  | nil => exact List.prefix_rfl
  | cons e es ih =>
    exact (c.before_blocks o e).trans (((c.before o e).place_blocks o e).trans (ih _))

theorem Cut.finish_blocks (c : Cut) : c.blocks <+: c.finish.blocks := by
  unfold Cut.finish
  split
  · exact c.flush_blocks
  · exact List.prefix_rfl

/-! ## The loop writes the blocks -/

/-- The bytes are the write that an entry of an index names. -/
def PlacedAt (ws : List Bytes) (e : IndexEntry) (x : Bytes) : Prop :=
  ∃ as bs, ws = as ++ x :: bs ∧ e.offset = offsetOf as ∧ e.length = UInt32.ofNat x.length

theorem PlacedAt.mono {ws ws' : List Bytes} {e : IndexEntry} {x : Bytes} (h : PlacedAt ws e x)
    (hpre : ws <+: ws') : PlacedAt ws' e x := by
  obtain ⟨as, bs, rfl, hoff, hlen⟩ := h
  obtain ⟨rest, rfl⟩ := hpre
  exact ⟨as, bs ++ rest, by rw [List.append_assoc, List.cons_append], hoff, hlen⟩

theorem placedAt_concat (ws : List Bytes) (key x : Bytes) :
    PlacedAt (ws ++ [x]) ⟨key, offsetOf ws, UInt32.ofNat x.length⟩ x := ⟨ws, [], rfl, rfl, rfl⟩

/-- An index lists items: their keys, and the writes they are stored
in. -/
def Lists {α : Type} (key : α → Bytes) (store : α → Bytes) (w : Listing) (items : List α) : Prop :=
  List.Forall₂ (fun e x => e.key = key x ∧ PlacedAt w.writes e (store x)) w.index items

theorem Lists.mono {α : Type} {key store : α → Bytes} {w : Listing} {items : List α}
    (h : Lists key store w items) {ws : List Bytes} (hpre : w.writes <+: ws) :
    Lists key store ⟨ws, w.index⟩ items :=
  List.Forall₂.imp (fun _ _ hex => ⟨hex.1, hex.2.mono hpre⟩) h

/-- One more write. -/
theorem Lists.write {α : Type} {key store : α → Bytes} {w : Listing} {items : List α}
    (h : Lists key store w items) (x : α) :
    Lists key store (w.write (key x) (store x)) (items ++ [x]) := by
  refine List.rel_append (h.mono (List.prefix_append _ [store x])) ?_
  exact .cons ⟨rfl, placedAt_concat _ _ _⟩ .nil

/-- The loop of `Flush` and the cut side by side. -/
structure Follows (P : Platform) (o : Options) (w : Output) (c : Cut) : Prop where
  builder : w.builder = c.builder
  writes : w.listing.writes = c.blocks.map (encodedBlock P o)
  lists : Lists blockKey (encodedBlock P o) w.listing c.blocks
  counts : w.blockEntryCounts = c.blocks.map fun b => b.flatten.length

section Loop

variable {P : Platform} {o : Options} {w : Output} {c : Cut} {es : List Entry}

theorem follows_start (P : Platform) (o : Options) : Follows P o (newOutput o) (Cut.start o) :=
  ⟨rfl, rfl, .nil, rfl⟩

theorem Follows.add (h : Follows P o w c) (e : Entry) : Follows P o (w.add e) (c.add e) :=
  ⟨congrArg (fun b : Builder => b.add e) h.builder, h.writes, h.lists, h.counts⟩

/-- The first key a builder has seen. -/
theorem first_eq {b : Builder} {gs : List (List Entry)} (h : b.Holds gs) (hgs : gs ≠ [])
    (hkeys : ∀ e ∈ gs.flatten, e.key ≠ []) : b.first = blockKey gs ∧ 0 < b.first.length := by
  obtain ⟨g, gs, rfl⟩ := List.exists_cons_of_ne_nil hgs
  obtain ⟨e, g, rfl⟩ := List.exists_cons_of_ne_nil (h.nonempty g List.mem_cons_self)
  have he : e.key ≠ [] := hkeys e List.mem_cons_self
  have hfirst : b.first = e.key := by
    rw [h.first, List.flatten_cons, List.cons_append, List.find?_cons_of_pos (by simpa using he)]
    rfl
  exact ⟨hfirst, hfirst ▸ List.length_pos_of_ne_nil he⟩

section

variable (h : Follows P o w c) (hc : c.Of es)
include h hc

/-- **`flushBlock`** writes the block that is cut. -/
theorem Follows.flushBlock (hgroups : c.groups ≠ []) (hkeys : ∀ e ∈ c.groups.flatten, e.key ≠ [])
    (hpacks : Packs P o c.groups) : ∃ w', flushBlock P o w = .ok w' ∧ Follows P o w' c.flush := by
  obtain ⟨z, n, hz⟩ := hpacks
  have hholds : w.builder.Holds c.groups := h.builder ▸ hc.holds
  obtain ⟨hfirst, hpos⟩ := first_eq hholds hgroups hkeys
  have hblock : encodedBlock P o c.groups = encodeBlock z .data o.compression n := by
    rw [encodedBlock, hz]
  refine ⟨_, by
    rw [Format.flushBlock, finish_eq_payloadOf hholds, hz, ok_bind]
    exact congrArg Except.ok rfl, ⟨?_, ?_, ?_, ?_⟩⟩
  · exact congrArg Builder.reset h.builder
  · simp only [if_pos hpos]
    rw [Listing.write, h.writes, ← hblock, Cut.flush, List.map_append]
    rfl
  · simp only [if_pos hpos]
    rw [← hblock, hfirst]
    exact h.lists.write c.groups
  · rw [h.counts, hholds.count, Cut.flush, List.map_append]
    rfl

theorem Follows.flushBefore (e : Entry) (hkeys : ∀ d ∈ es, d.key ≠ [])
    (hpacks : ∀ b ∈ (c.before o e).blocks, Packs P o b) :
    ∃ w', flushBefore P o w e = .ok w' ∧ Follows P o w' (c.before o e) := by
  unfold Cut.before at hpacks ⊢
  rw [Format.flushBefore, h.builder]
  split
  · next hcut =>
    rw [if_pos hcut] at hpacks
    refine h.flushBlock hc (hc.holds.sizeBytes_pos_iff.mp hcut.1) (fun d hd => hkeys d ?_)
      (hpacks _ (List.mem_append_right _ (List.mem_singleton_self _)))
    rw [← hc.entries]
    exact List.mem_append_right _ hd
  · exact ⟨w, rfl, h⟩

/-- **A round of the loop** does what a step of the cut does. -/
theorem Follows.addEntry (e : Entry) (hkeys : ∀ d ∈ es ++ [e], d.key ≠ [])
    (hpacks : ∀ b ∈ (c.step o e).blocks, Packs P o b) :
    ∃ w', addEntry P o w e = .ok w' ∧ Follows P o w' (c.step o e) := by
  obtain ⟨w₁, hw₁, h₁⟩ := h.flushBefore hc e (fun d hd => hkeys d (List.mem_append_left _ hd))
    fun b hb => hpacks b (((c.before o e).place_blocks o e).subset hb)
  have hc₁ : (c.before o e).Of es := hc.before e
  have hc₂ := hc₁.add e
  have hflush : (∀ b ∈ ((c.before o e).add e).flush.blocks, Packs P o b) →
      ∃ w', Format.flushBlock P o (w₁.add e) = .ok w' ∧
        Follows P o w' ((c.before o e).add e).flush := by
    intro hall
    refine (h₁.add e).flushBlock hc₂ (hc₁.groups_add e) (fun d hd => hkeys d ?_)
      (hall _ (List.mem_append_right _ (List.mem_singleton_self _)))
    rw [← hc₂.entries]
    exact List.mem_append_right _ hd
  rw [Format.addEntry, hw₁, ok_bind, h₁.builder, (h₁.add e).builder]
  unfold Cut.step Cut.place at hpacks ⊢
  split
  · next hmax =>
    rw [if_pos hmax] at hpacks
    exact hflush hpacks
  · next hmax =>
    rw [if_neg hmax] at hpacks
    split
    · next hfull =>
      rw [if_pos hfull] at hpacks
      exact hflush hpacks
    · exact ⟨_, rfl, h₁.add e⟩

theorem Follows.addEntries (ds : List Entry) (hkeys : ∀ d ∈ es ++ ds, d.key ≠ [])
    (hpacks : ∀ b ∈ (ds.foldl (Cut.step o) c).blocks, Packs P o b) :
    ∃ w', addEntries P o w ds = .ok w' ∧ Follows P o w' (ds.foldl (Cut.step o) c) := by
  induction ds generalizing w c es with
  | nil => exact ⟨w, rfl, h⟩
  | cons d ds ih =>
    have hsplit : es ++ d :: ds = es ++ [d] ++ ds := by
      rw [List.append_assoc, List.singleton_append]
    rw [hsplit] at hkeys
    obtain ⟨w₁, hw₁, h₁⟩ := h.addEntry hc d (fun x hx => hkeys x (List.mem_append_left _ hx))
      fun b hb => hpacks b ((Cut.foldl_blocks o (c.step o d) ds).subset hb)
    rw [Format.addEntries, hw₁, ok_bind]
    exact ih h₁ (hc.step d) hkeys hpacks

end

end Loop

/-- **The data blocks of a file** are the blocks of its layout, listed in
the index. -/
theorem writeBlocks_spec {P : Platform} {o : Options} {entries : List Entry}
    (hkeys : ∀ e ∈ entries, e.key ≠ []) (hpacks : ∀ b ∈ layout o entries, Packs P o b) :
    ∃ w, writeBlocks P o entries = .ok w ∧
      w.listing.writes = (layout o entries).map (encodedBlock P o) ∧
      Lists blockKey (encodedBlock P o) w.listing (layout o entries) ∧
      w.blockEntryCounts = (layout o entries).map fun b => b.flatten.length := by
  have hof := (Cut.Of.start o).foldl (o := o) entries
  obtain ⟨w, hw, h⟩ := (follows_start P o).addEntries (Cut.Of.start o) entries hkeys
    fun b hb => hpacks b ((Cut.finish_blocks _).subset hb)
  unfold layout at hpacks ⊢
  rw [writeBlocks, hw, ok_bind, h.builder]
  unfold Cut.finish at hpacks ⊢
  split
  · next hpos =>
    rw [if_pos hpos] at hpacks
    obtain ⟨w', hw', h'⟩ := h.flushBlock hof (hof.holds.sizeBytes_pos_iff.mp hpos)
      (fun d hd => hkeys d (by
        have := hof.entries
        rw [List.nil_append] at this
        rw [← this]
        exact List.mem_append_right _ hd))
      (hpacks _ (List.mem_append_right _ (List.mem_singleton_self _)))
    exact ⟨w', hw', h'.writes, h'.lists, h'.counts⟩
  · exact ⟨w, rfl, h.writes, h.lists, h.counts⟩

end LSMEngine.Format
