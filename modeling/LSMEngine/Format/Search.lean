import LSMEngine.Format.Block
import LSMEngine.Format.Model.Reader
import Mathlib.Data.List.Forall2
import Mathlib.Data.List.Induction
/-!
# Format — searches

What the binary searches of the reader come down to, on keys that are in
order but not necessarily different. In an index `findBlock` chooses the
first entry that has the key, or else the last one below it
(`findKey_spec`). In a block the restart points are searched for the last
one that is not above the key, and the scan from there finds the first
entry of the group with the key (`findView_blockOf`).
-/

namespace LSMEngine.Format

variable {α : Type} {key : α → Bytes} {items : List α} {R : IndexEntry → α → Prop}
  {entries : List IndexEntry} {gs : List (List Entry)} {g : List Entry}

/-! ## The index -/

/-- The place of a key among items in the order of their keys: the item
chosen for it, between those before and behind it. -/
structure Chooses {α : Type} (key : α → Bytes) (items : List α) (k : Bytes) (as : List α) (x : α)
    (bs : List α) : Prop where
  split : items = as ++ x :: bs
  le : key x ≤ k
  turn : (key x < k ∧ ∀ b ∈ bs, k < key b) ∨ (key x = k ∧ ∀ a ∈ as, key a < k)

theorem Chooses.mem {as bs : List α} {k : Bytes} {x : α} (h : Chooses key items k as x bs) :
    x ∈ items :=
  h.split ▸ List.mem_append_right _ List.mem_cons_self

/-- Keys that are not above stay so up to the search's result. -/
theorem pairwise_above {keys : List Bytes} (h : keys.Pairwise (· ≤ ·)) (k : Bytes) :
    keys.Pairwise fun a b => decide (k < a) = true → decide (k < b) = true := by
  refine h.imp fun {a b} hab ha => ?_
  rw [decide_eq_true_eq] at ha ⊢
  exact ha.trans_le hab

/-- Stepping back over the entries with the key. -/
theorem stepBack_split {as : List Bytes} {k : Bytes} (has : as.Pairwise (· ≤ ·))
    (hle : ∀ a ∈ as, a ≤ k) (bs : List Bytes) :
    ∃ as' bs', as ++ k :: bs = as' ++ k :: bs' ∧
      stepBack (as ++ k :: bs) k as.length = as'.length ∧ ∀ a ∈ as', a < k := by
  induction as using List.reverseRecOn generalizing bs with
  | nil => exact ⟨[], bs, rfl, rfl, fun a ha => absurd ha List.not_mem_nil⟩
  | append_singleton as a ih =>
    have hget : (as ++ [a] ++ k :: bs)[as.length]? = some a := by
      rw [List.append_assoc, List.getElem?_append_right le_rfl, Nat.sub_self]
      rfl
    have hlast : a ∈ as ++ [a] := List.mem_append_right _ (List.mem_singleton_self a)
    rw [List.length_append, List.length_singleton, stepBack, hget, Option.any_some]
    by_cases hkey : a = k
    · subst hkey
      rw [if_pos (by simp), List.append_assoc]
      exact ih (List.pairwise_append.mp has).1
        (fun a' ha' => hle a' (List.mem_append_left _ ha')) (a :: bs)
    · rw [if_neg (by simpa using hkey)]
      have hlt : a < k := lt_of_le_of_ne (hle a hlast) hkey
      refine ⟨as ++ [a], bs, rfl, by rw [List.length_append, List.length_singleton], ?_⟩
      intro a' ha'
      rcases List.mem_append.mp ha' with h' | h'
      · exact ((List.pairwise_append.mp has).2.2 a' h' a (List.mem_singleton_self a)).trans_lt hlt
      · rw [List.mem_singleton.mp h']
        exact hlt

/-- **`findBlock`** on keys in order: it misses only what is before the
first key, and finds the place of every other key. -/
theorem findKey_cases {keys : List Bytes} (h : keys.Pairwise (· ≤ ·)) (k : Bytes) :
    (findKey keys k = none ∧ ∀ x ∈ keys, k < x) ∨
      ∃ as x bs, findKey keys k = some as.length ∧ Chooses id keys k as x bs := by
  obtain ⟨as, bs, rfl, hsearch, has, hbs⟩ := search_list (pairwise_above h k)
  have hle : ∀ a ∈ as, a ≤ k := fun a ha => not_lt.mp (of_decide_eq_false (has a ha))
  have hgt : ∀ b ∈ bs, k < b := fun b hb => of_decide_eq_true (hbs b hb)
  rw [findKey]
  rcases List.eq_nil_or_concat' as with rfl | ⟨as, x, rfl⟩
  · -- every key is above
    refine .inl ⟨?_, by simpa using hgt⟩
    rcases bs with - | ⟨b, bs⟩
    · rfl
    · exact if_pos (hgt b List.mem_cons_self)
  · right
    have has' : as.Pairwise (· ≤ ·) := (List.pairwise_append.mp (List.pairwise_append.mp h).1).1
    have hx : x ≤ k := hle x (List.mem_append_right _ (List.mem_singleton_self x))
    have hget : (as ++ [x] ++ bs)[as.length]? = some x := by
      rw [List.append_assoc, List.getElem?_append_right le_rfl, Nat.sub_self]
      rfl
    obtain ⟨first, hfirst, hfirstle⟩ : ∃ d, (as ++ [x] ++ bs).head? = some d ∧ d ≤ k := by
      rcases as with - | ⟨d, as⟩
      · exact ⟨x, rfl, hx⟩
      · exact ⟨d, rfl, hle d List.mem_cons_self⟩
    have hlen : (as ++ [x]).length = as.length + 1 := by
      rw [List.length_append, List.length_singleton]
    rw [hlen] at hsearch
    rw [hfirst]
    simp only [hsearch, if_neg (not_lt.mpr hfirstle), Nat.add_sub_cancel, hget, Option.any_some,
      Nat.succ_ne_zero, if_false, decide_eq_true_eq]
    by_cases hkey : x = k
    · subst hkey
      obtain ⟨as', bs', hsplit, hback, hlt⟩ := stepBack_split has'
        (fun a ha => hle a (List.mem_append_left _ ha)) bs
      refine ⟨as', x, bs', ?_, ⟨?_, le_rfl, .inr ⟨rfl, hlt⟩⟩⟩
      · rw [if_pos rfl, List.append_assoc, List.singleton_append, hback]
      · rw [List.append_assoc, List.singleton_append, hsplit]
    · exact ⟨as, x, bs, if_neg hkey, ⟨by rw [List.append_assoc, List.singleton_append], hx,
        .inl ⟨lt_of_le_of_ne hx hkey, hgt⟩⟩⟩

/-- The same for items with keys. -/
theorem findKey_spec (h : items.Pairwise fun a b => key a ≤ key b) (k : Bytes) :
    (findKey (items.map key) k = none ∧ ∀ x ∈ items, k < key x) ∨
      ∃ as x bs, findKey (items.map key) k = some as.length ∧ Chooses key items k as x bs := by
  rcases findKey_cases (List.pairwise_map.mpr h) k with ⟨hnone, hgt⟩ | ⟨as, x, bs, hsome, hc⟩
  · exact .inl ⟨hnone, fun x hx => hgt _ (List.mem_map_of_mem hx)⟩
  · right
    obtain ⟨as', rest, rfl, rfl, hrest⟩ := List.map_eq_append_iff.mp hc.split
    obtain ⟨x', bs', rfl, rfl, rfl⟩ := List.map_eq_cons_iff.mp hrest
    refine ⟨as', x', bs', by rw [hsome, List.length_map], ⟨rfl, hc.le, ?_⟩⟩
    rcases hc.turn with ⟨hlt, hgt⟩ | ⟨heq, hlt⟩
    · exact .inl ⟨hlt, fun b hb => hgt _ (List.mem_map_of_mem hb)⟩
    · exact .inr ⟨heq, fun a ha => hlt _ (List.mem_map_of_mem ha)⟩

/-- The entry of an item in an index. -/
theorem entryAt_of_forall₂ {as bs : List α} {x : α} (h : List.Forall₂ R entries (as ++ x :: bs)) :
    ∃ e ∈ entries, entryAt entries as.length = .ok e ∧ R e x := by
  induction as generalizing entries with
  | nil =>
    cases h with
    | cons hex _ => exact ⟨_, List.mem_cons_self, rfl, hex⟩
  | cons a as ih =>
    cases h with
    | cons _ h =>
      obtain ⟨e, he, hat, hex⟩ := ih h
      exact ⟨e, List.mem_cons_of_mem _ he, hat, hex⟩

theorem map_key_eq (key : α → Bytes) (h : List.Forall₂ R entries items)
    (hR : ∀ e x, R e x → e.key = key x) : entries.map IndexEntry.key = items.map key := by
  induction h with
  | nil => rfl
  | cons hex _ ih => rw [List.map_cons, List.map_cons, ih, hR _ _ hex]

/-- An index finds by the keys of its items. -/
theorem findBlock_eq (h : List.Forall₂ R entries items) (hR : ∀ e x, R e x → e.key = key x)
    (k : Bytes) : findBlock entries k = findKey (items.map key) k := by
  rw [findBlock, map_key_eq key h hR]

/-! ## Blocks -/

/-- The group of a key: the last one that does not start above it, or
else the first. -/
structure PicksGroup (gs : List (List Entry)) (key : Bytes) (as : List (List Entry))
    (g : List Entry) (bs : List (List Entry)) : Prop where
  split : gs = as ++ g :: bs
  le : as ≠ [] → firstKey g ≤ key
  behind : ∀ b ∈ bs, key < firstKey b

theorem PicksGroup.mem {as bs : List (List Entry)} {key : Bytes} (h : PicksGroup gs key as g bs) :
    g ∈ gs :=
  h.split ▸ List.mem_append_right _ List.mem_cons_self

/-- The entries in the order of their keys, cut into groups. -/
structure Grouped (gs : List (List Entry)) : Prop where
  ne_nil : gs ≠ []
  nonempty : ∀ g ∈ gs, g ≠ []
  sorted : gs.flatten.Pairwise fun a b => a.key ≤ b.key

theorem firstKey_mem (hg : g ≠ []) : ∃ e ∈ g, firstKey g = e.key := by
  obtain ⟨e, es, rfl⟩ := List.exists_cons_of_ne_nil hg
  exact ⟨e, List.mem_cons_self, rfl⟩

theorem firstKey_le (h : g.Pairwise fun a b => a.key ≤ b.key) {e : Entry} (he : e ∈ g) :
    firstKey g ≤ e.key := by
  obtain ⟨d, ds, rfl⟩ := List.exists_cons_of_ne_nil (List.ne_nil_of_mem he)
  rcases List.mem_cons.mp he with rfl | he
  · exact le_rfl
  · exact (List.pairwise_cons.mp h).1 e he

theorem Grouped.firstKeys (h : Grouped gs) : gs.Pairwise fun a b => firstKey a ≤ firstKey b := by
  have hpair := (List.pairwise_flatten.mp h.sorted).2
  refine hpair.imp_of_mem fun {a b} ha hb hab => ?_
  obtain ⟨x, hx, hfx⟩ := firstKey_mem (h.nonempty a ha)
  obtain ⟨y, hy, hfy⟩ := firstKey_mem (h.nonempty b hb)
  rw [hfx, hfy]
  exact hab x hx y hy

/-- The restart point of a key, as a cut of the groups. -/
theorem restartIndex_spec (h : Grouped gs) (key : Bytes) :
    ∃ as g bs, (blockOf gs).restartIndex key = as.length ∧ PicksGroup gs key as g bs := by
  obtain ⟨ks, ks', hsplit, hsearch, hks, hks'⟩ :=
    search_list (pairwise_above (List.pairwise_map.mpr h.firstKeys) key)
  obtain ⟨as, bs, rfl, rfl, rfl⟩ := List.map_eq_append_iff.mp hsplit
  rw [Block.restartIndex, blockOf, hsearch, List.length_map]
  have hbs : ∀ b ∈ bs, key < firstKey b :=
    fun b hb => of_decide_eq_true (hks' _ (List.mem_map_of_mem hb))
  rcases List.eq_nil_or_concat' as with rfl | ⟨as, g, rfl⟩
  · obtain ⟨g, bs, rfl⟩ := List.exists_cons_of_ne_nil (by simpa using h.ne_nil)
    exact ⟨[], g, bs, rfl, rfl, fun hnil => absurd rfl hnil,
      fun b hb => hbs b (List.mem_cons_of_mem _ hb)⟩
  · refine ⟨as, g, bs, by simp, by rw [List.append_assoc, List.singleton_append], fun _ => ?_, hbs⟩
    have hmem : firstKey g ∈ (as ++ [g]).map firstKey :=
      List.mem_map_of_mem (List.mem_append_right _ (List.mem_singleton_self g))
    exact not_lt.mp (of_decide_eq_false (hks _ hmem))

theorem restartAt_blockOf (as : List (List Entry)) (g : List Entry) (bs : List (List Entry))
    (hlen : (blockData (as ++ g :: bs)).length < 2 ^ 32) :
    (blockOf (as ++ g :: bs)).restartAt as.length = .ok (blockData as).length := by
  rw [blockData_append, List.length_append] at hlen
  have hget : ((groupOffsets 0 (as ++ g :: bs)).map UInt32.ofNat)[as.length]? =
      some (UInt32.ofNat (blockData as).length) := by
    rw [groupOffsets_append, List.map_append, List.getElem?_append_right
      (by rw [List.length_map, length_groupOffsets]), List.length_map, length_groupOffsets,
      Nat.sub_self, Nat.zero_add]
    rfl
  rw [Block.restartAt, blockOf, hget]
  exact congrArg Except.ok (toNat_ofNat_uint32 (by omega))

/-- A cursor over some groups of a block. -/
theorem at_groups (as hs bs : List (List Entry)) (hshort : ∀ e ∈ hs.flatten, Short e) {c : Cursor}
    (hoff : c.offset = (blockData as).length)
    (hlim : c.limit = (blockData (as ++ hs)).length) :
    At (blockData (as ++ (hs ++ bs))) c (pieces hs) := by
  refine ⟨⟨blockData as, blockData bs, ?_, hoff, ?_⟩, linked_pieces _ _, fun p hp => ?_⟩
  · rw [blockData_append, blockData_append]
    rfl
  · rw [hlim, blockData_append, List.length_append]
    rfl
  · refine hshort p.2 ?_
    rw [← map_snd_pieces]
    exact List.mem_map_of_mem hp

theorem newCursor_eq {blk : Block} {offset limit : ℕ} (hpos : limit ≠ 0)
    (hlim : limit ≤ blk.data.length) (hoff : offset ≤ limit) :
    newCursor blk offset limit = ⟨offset, limit, []⟩ := by
  have hkeep : (if limit = 0 ∨ blk.data.length < limit then blk.data.length else limit) = limit :=
    if_neg (by omega)
  rw [newCursor]
  simp only [hkeep, if_neg (not_lt.mpr hoff)]

theorem length_restarts_blockOf (as : List (List Entry)) (g : List Entry) (bs : List (List Entry)) :
    (blockOf (as ++ g :: bs)).restarts.length = as.length + (bs.length + 1) := by
  rw [blockOf, List.length_map, length_groupOffsets, List.length_append, List.length_cons]

/-- **A lookup in a block** finds the first entry with the key in the
group of the key. -/
theorem findView_blockOf (h : Grouped gs) (hshort : ∀ e ∈ gs.flatten, Short e)
    (hlen : (blockData gs).length < 2 ^ 32) (key : Bytes) :
    ∃ as g bs, PicksGroup gs key as g bs ∧
      (blockOf gs).findView key = .ok ((g.find? fun e => e.key = key).map Entry.view) := by
  obtain ⟨as, g, bs, hidx, hpick⟩ := restartIndex_spec h key
  obtain ⟨rfl, -, -⟩ := id hpick
  refine ⟨as, g, bs, hpick, ?_⟩
  have hg : g ≠ [] := h.nonempty g (List.mem_append_right _ List.mem_cons_self)
  have hpos := blockData_pos hg
  have hcut : (blockData (as ++ [g])).length = (blockData as).length + (blockData [g]).length := by
    rw [blockData_append, List.length_append]
  have hle : (blockData (as ++ [g])).length ≤ (blockData (as ++ g :: bs)).length := by
    rw [hcut, blockData_append, blockData_cons g bs, List.length_append, List.length_append]
    omega
  have hrestarts := length_restarts_blockOf as g bs
  have hne := List.ne_nil_of_length_eq_add_one hrestarts
  -- the group ends at the next restart, and the last one with the data
  have hlimit : (blockOf (as ++ g :: bs)).limitAfter as.length =
      .ok (blockData (as ++ [g])).length := by
    rw [Block.limitAfter]
    rcases bs with - | ⟨b, bs⟩
    · rw [if_neg (by rw [hrestarts, List.length_nil]; omega)]
      rfl
    · rw [if_pos (by rw [hrestarts, List.length_cons]; omega)]
      have hsplit : as ++ g :: b :: bs = as ++ [g] ++ b :: bs := by
        rw [List.append_assoc, List.singleton_append]
      have hat := restartAt_blockOf (as ++ [g]) b bs (hsplit ▸ hlen)
      rwa [← hsplit, List.length_append, List.length_singleton] at hat
  -- the cursor of the lookup stands at the group and sees nothing behind it
  have hcursor : At (blockData (as ++ g :: bs))
      ⟨(blockData as).length, (blockData (as ++ [g])).length, []⟩ (pieces [g]) :=
    at_groups as [g] bs
      (fun e he => hshort e (by
        rw [List.flatten_append, List.flatten_cons]
        exact List.mem_append_right _ (List.mem_append_left _ (by simpa using he)))) rfl rfl
  have hsorted : ((pieces [g]).map Prod.snd).Pairwise fun a b => a.key ≤ b.key := by
    rw [map_snd_pieces, List.flatten_singleton]
    exact (List.pairwise_flatten.mp h.sorted).1 g (List.mem_append_right _ List.mem_cons_self)
  have hfuel : (pieces [g]).length ≤ (blockData (as ++ g :: bs)).length := by
    have := length_le_blockData [g]
    omega
  have hfind := findLoop_of_at key hcursor hfuel hsorted
  rw [map_snd_pieces, List.flatten_singleton] at hfind
  rw [Block.findView, if_neg hne, hidx, restartAt_blockOf as g bs hlen, ok_bind,
    hlimit, ok_bind, newCursor_eq (by omega) hle (by omega)]
  exact hfind

/-- A cursor that starts at a restart point. -/
theorem at_restart (as : List (List Entry)) {bs : List (List Entry)} (hg : g ≠ [])
    (hshort : ∀ e ∈ (as ++ g :: bs).flatten, Short e) :
    At (blockOf (as ++ g :: bs)).data
      (newCursor (blockOf (as ++ g :: bs)) (blockData as).length (blockOf (as ++ g :: bs)).dataLen)
      (pieces (g :: bs)) := by
  have hpos := blockData_pos hg
  have hcut : (blockOf (as ++ g :: bs)).dataLen =
      (blockData as).length + ((blockData [g]).length + (blockData bs).length) := by
    rw [Block.dataLen, blockOf, blockData_append, List.length_append, blockData_cons g bs,
      List.length_append]
  have hle : (blockOf (as ++ g :: bs)).dataLen ≤ (blockOf (as ++ g :: bs)).data.length := le_rfl
  rw [newCursor_eq (by omega) hle (by omega)]
  have hat := at_groups as (g :: bs) []
    (c := ⟨(blockData as).length, (blockOf (as ++ g :: bs)).dataLen, []⟩)
    (fun e he => hshort e (by rw [List.flatten_append]; exact List.mem_append_right _ he)) rfl rfl
  rwa [List.append_nil] at hat

/-- **A seek in a block** starts with the group of the key and stops at
the first entry that is not before the key. -/
theorem seek_blockOf (h : Grouped gs) (hshort : ∀ e ∈ gs.flatten, Short e)
    (hlen : (blockData gs).length < 2 ^ 32) (key : Bytes) :
    ∃ as g bs, (blockOf gs).restartIndex key = as.length ∧ PicksGroup gs key as g bs ∧
      match (pieces (g :: bs)).dropWhile fun p => p.2.key < key with
      | [] => (blockOf gs).seek key = .ok none
      | p :: qs => ∃ c, (blockOf gs).seek key = .ok (some (c, p.2.view)) ∧
          At (blockOf gs).data c qs := by
  obtain ⟨as, g, bs, hidx, hpick⟩ := restartIndex_spec h key
  obtain ⟨rfl, -, -⟩ := id hpick
  refine ⟨as, g, bs, hidx, hpick, ?_⟩
  have hcursor := at_restart as (h.nonempty g (List.mem_append_right _ List.mem_cons_self)) hshort
  have hne := List.ne_nil_of_length_eq_add_one (length_restarts_blockOf as g bs)
  have hfuel : (pieces (g :: bs)).length ≤ (blockData (as ++ g :: bs)).length := by
    have := length_le_blockData (g :: bs)
    rw [blockData_append, List.length_append]
    omega
  rw [Block.seek, if_neg hne, hidx, restartAt_blockOf as g bs hlen]
  exact seekLoop_of_at key hcursor hfuel

/-- The start of a block. -/
theorem at_start (h : ∀ g ∈ gs, g ≠ []) (hshort : ∀ e ∈ gs.flatten, Short e) :
    At (blockOf gs).data (newCursor (blockOf gs) 0 (blockOf gs).dataLen) (pieces gs) := by
  rcases gs with - | ⟨g, gs⟩
  · exact ⟨⟨[], [], rfl, rfl, rfl⟩, trivial, fun p hp => absurd hp List.not_mem_nil⟩
  · exact at_restart [] (h g List.mem_cons_self) hshort

end LSMEngine.Format
