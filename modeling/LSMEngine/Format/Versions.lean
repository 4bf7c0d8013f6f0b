import LSMEngine.Format.Get
/-!
# Format — lookups among versions

A key may have several versions, and they stand next to each other,
newest first. Each level of a lookup searches by first keys: where a
section ahead of the chosen one ends in versions of the key, they are
skipped. `reached` says when none are, and then, and only then, a lookup
finds the newest version (`get_versions`).
-/

namespace LSMEngine.Format

/-! ## The newest version -/

/-- The entry has the greatest sequence under the key, and is a tombstone
if one has that sequence. -/
def Newest (es : List Entry) (k : Bytes) (e : Entry) : Prop :=
  e ∈ es ∧ e.key = k ∧ ∀ d ∈ es, d.key = k →
    d.seq < e.seq ∨ d.seq = e.seq ∧ (d.tombstone = true → e.tombstone = true)

theorem entryLe_iff_newer {a b : Entry} (hk : a.key = b.key) :
    Tables.EntryLe a b ↔
      b.seq < a.seq ∨ b.seq = a.seq ∧ (b.tombstone = true → a.tombstone = true) := by
  rw [Tables.EntryLe, Tables.entryLess, if_neg (not_not.mpr hk.symm)]
  by_cases hs : b.seq = a.seq
  · rw [if_neg (not_not.mpr hs)]
    have hlt : ¬ b.seq < a.seq := hs ▸ lt_irrefl _
    cases a.tombstone <;> cases b.tombstone <;> simp [hs]
  · rw [if_pos hs, decide_eq_true_eq, not_lt]
    constructor
    · exact fun hle => .inl (lt_of_le_of_ne hle hs)
    · rintro (hlt | ⟨heq, -⟩)
      · exact hlt.le
      · exact absurd heq hs

/-- **The first version in table order is the newest.** -/
theorem newest_of_find {es : List Entry} {k : Bytes} {e : Entry}
    (h : (Tables.sortEntries es).find? (fun d => d.key = k) = some e) : Newest es k e := by
  obtain ⟨he, as, bs, hsplit, has⟩ := List.find?_eq_some_iff_append.mp h
  have hkey : e.key = k := by simpa using he
  have hsorted := List.pairwise_insertionSort Tables.EntryLe es
  rw [show es.insertionSort Tables.EntryLe = as ++ e :: bs from hsplit] at hsorted
  refine ⟨(sortEntries_perm es).mem_iff.mp (List.mem_of_find?_eq_some h), hkey, fun d hd hdk => ?_⟩
  rw [← (sortEntries_perm es).mem_iff, hsplit] at hd
  rcases List.mem_append.mp hd with hd | hd
  · have := has d hd
    simp [hdk] at this
  · rcases List.mem_cons.mp hd with rfl | hd
    · exact .inr ⟨rfl, id⟩
    · have hle := (List.pairwise_cons.mp (List.pairwise_append.mp hsorted).2.1).1 d hd
      exact (entryLe_iff_newer (hkey.trans hdk.symm)).mp hle

/-- Under different versions there is one newest. -/
theorem Newest.unique {es : List Entry} {k : Bytes} {e e' : Entry}
    (hversions : (es.map Tables.entryRank).Nodup) (h : Newest es k e) (h' : Newest es k e') :
    e = e' := by
  refine List.inj_on_of_nodup_map hversions h.1 h'.1 (le_antisymm ?_ ?_)
  · rw [← Tables.entryLe_iff, entryLe_iff_newer (h.2.1.trans h'.2.1.symm)]
    exact h.2.2 e' h'.1 h'.2.1
  · rw [← Tables.entryLe_iff, entryLe_iff_newer (h'.2.1.trans h.2.1.symm)]
    exact h'.2.2 e h.1 h.2.1

/-! ## Where the searches stop -/

/-- The sections from the first one with the key. -/
def sectionsFrom {α : Type} (f : α → List Entry) (k : Bytes) (items : List α) : List α :=
  items.dropWhile fun x => ¬ HasKey k (f x)

/-- The search stops at the section and not at one behind it: it starts
with the key, or none behind it does. -/
def isStop {α : Type} (key : α → Bytes) (k : Bytes) (x : α) (behind : List α) : Bool :=
  key x = k ∨ ∀ y ∈ behind, key y ≠ k

/-- The first partition, block and group with the key are those where the
searches stop. -/
def reached (parts : List Blocks) (k : Bytes) : Bool :=
  match sectionsFrom (fun p => p.flatten.flatten) k parts with
  | [] => false
  | p :: ps => isStop partKey k p ps &&
    match sectionsFrom List.flatten k p with
    | [] => false
    | b :: bs => isStop blockKey k b bs &&
      match sectionsFrom id k b with
      | [] => false
      | _ :: gs => gs.all fun g => firstKey g ≠ k

section

variable {α : Type} {f : α → List Entry} {key : α → Bytes} {k : Bytes} {items as bs : List α} {x : α}

theorem sectionsFrom_split (hsplit : items = as ++ x :: bs) (has : ∀ a ∈ as, ¬ HasKey k (f a))
    (hx : HasKey k (f x)) : sectionsFrom f k items = x :: bs := by
  rw [sectionsFrom, hsplit, List.dropWhile_append_of_pos fun a ha => decide_eq_true (has a ha),
    List.dropWhile_cons_of_neg (by simpa using hx)]

theorem exists_first (h : ∃ a ∈ as, HasKey k (f a)) :
    ∃ as₁ y as₂, as = as₁ ++ y :: as₂ ∧ (∀ a ∈ as₁, ¬ HasKey k (f a)) ∧ HasKey k (f y) := by
  induction as with
  | nil => exact absurd h (by simp)
  | cons a as ih =>
    by_cases ha : HasKey k (f a)
    · exact ⟨[], a, as, rfl, fun _ hmem => absurd hmem List.not_mem_nil, ha⟩
    · have hrest : ∃ a ∈ as, HasKey k (f a) := by
        obtain ⟨b, hb, hkey⟩ := h
        rcases List.mem_cons.mp hb with rfl | hb
        · exact absurd hkey ha
        · exact ⟨b, hb, hkey⟩
      obtain ⟨as₁, y, as₂, rfl, hno, hy⟩ := ih hrest
      refine ⟨a :: as₁, y, as₂, rfl, fun b hb => ?_, hy⟩
      rcases List.mem_cons.mp hb with rfl | hb
      · exact ha
      · exact hno b hb

/-- If a section ahead of the chosen one has the key, the search goes
past the first one that has it. -/
theorem not_isStop (hc : Chooses key items k as x bs)
    (hle : ∀ a ∈ as, ∀ e ∈ f a, e.key ≤ key x) (h : ∃ a ∈ as, HasKey k (f a)) :
    ∃ y ys, sectionsFrom f k items = y :: ys ∧ isStop key k y ys = false := by
  obtain ⟨as₁, y, as₂, hsplit, hno, hy⟩ := exists_first h
  have hmem : y ∈ as := hsplit ▸ List.mem_append_right _ List.mem_cons_self
  have hkx : key x = k := by
    obtain ⟨e, he, hek⟩ := hy
    exact le_antisymm hc.le (hek ▸ hle y hmem e he)
  refine ⟨y, as₂ ++ x :: bs, sectionsFrom_split ?_ hno hy, ?_⟩
  · rw [hc.split, hsplit, List.append_assoc, List.cons_append]
  · rw [isStop, decide_eq_false_iff_not]
    rintro (hky | hall)
    · rcases hc.turn with ⟨hlt, -⟩ | ⟨-, hlt⟩
      · exact absurd hkx hlt.ne
      · exact absurd hky (hlt y hmem).ne
    · exact hall x (List.mem_append_right _ List.mem_cons_self) hkx

/-- Otherwise it stops there. -/
theorem isStop_of_chooses (hc : Chooses key items k as x bs) (has : ¬ ∃ a ∈ as, HasKey k (f a))
    (hx : HasKey k (f x)) : sectionsFrom f k items = x :: bs ∧ isStop key k x bs = true := by
  refine ⟨sectionsFrom_split hc.split (fun a ha h => has ⟨a, ha, h⟩) hx, ?_⟩
  rw [isStop, decide_eq_true_eq]
  rcases hc.turn with ⟨-, hlt⟩ | ⟨heq, -⟩
  · exact .inr fun y hy => (hlt y hy).ne'
  · exact .inl heq

end

theorem HasKey.mono {k : Bytes} {es es' : List Entry} (h : HasKey k es) (hsub : es ⊆ es') :
    HasKey k es' := by
  obtain ⟨e, he, hkey⟩ := h
  exact ⟨e, hsub he, hkey⟩

namespace Route

variable {parts : List Blocks} {k : Bytes} (route : Route parts k)

/-- Where a version before the group can stand. -/
theorem hasKey_before_iff : HasKey k route.before ↔
    (∃ p ∈ route.partsBefore, HasKey k p.flatten.flatten) ∨
      (∃ b ∈ route.blocksBefore, HasKey k b.flatten) ∨ ∃ g ∈ route.groupsBefore, HasKey k g := by
  constructor
  · rintro ⟨e, he, hkey⟩
    rw [before, List.mem_append, List.mem_append, flatten_parts, List.flatten_flatten] at he
    rcases he with he | he | he
    · obtain ⟨s, hs, hes⟩ := List.mem_flatten.mp he
      obtain ⟨p, hp, rfl⟩ := List.mem_map.mp hs
      exact .inl ⟨p, hp, e, hes, hkey⟩
    · obtain ⟨s, hs, hes⟩ := List.mem_flatten.mp he
      obtain ⟨b, hb, rfl⟩ := List.mem_map.mp hs
      exact .inr (.inl ⟨b, hb, e, hes, hkey⟩)
    · obtain ⟨g, hg, heg⟩ := List.mem_flatten.mp he
      exact .inr (.inr ⟨g, hg, e, heg, hkey⟩)
  · rintro (⟨p, hp, hk⟩ | ⟨b, hb, hk⟩ | ⟨g, hg, hk⟩)
    · refine hk.mono fun e he => List.mem_append_left _ ?_
      rw [flatten_parts]
      exact List.mem_flatten_of_mem (List.mem_map_of_mem hp) he
    · refine hk.mono fun e he => List.mem_append_right _ (List.mem_append_left _ ?_)
      rw [List.flatten_flatten]
      exact List.mem_flatten_of_mem (List.mem_map_of_mem hb) he
    · exact hk.mono fun e he => List.mem_append_right _ (List.mem_append_right _
        (List.mem_flatten_of_mem hg he))

theorem block_subset {b : List (List Entry)} (hb : b ∈ route.part) :
    b.flatten ⊆ route.part.flatten.flatten := by
  intro e he
  rw [List.flatten_flatten]
  exact List.mem_flatten_of_mem (List.mem_map_of_mem hb) he

theorem group_subset {g : List Entry} (hg : g ∈ route.block) : g ⊆ route.block.flatten :=
  fun _ he => List.mem_flatten_of_mem hg he

/-- If no partition ahead has the key, the first search stops well. -/
theorem part_stop (hparts : ¬ ∃ p ∈ route.partsBefore, HasKey k p.flatten.flatten)
    (hk : HasKey k route.block.flatten) :
    sectionsFrom (fun p => p.flatten.flatten) k parts = route.part :: route.partsBehind ∧
      isStop partKey k route.part route.partsBehind = true :=
  isStop_of_chooses (f := fun p => p.flatten.flatten) route.part_chosen hparts
    (hk.mono (route.block_subset route.block_mem))

theorem block_stop (hblocks : ¬ ∃ b ∈ route.blocksBefore, HasKey k b.flatten)
    (hk : HasKey k route.block.flatten) :
    sectionsFrom List.flatten k route.part = route.block :: route.blocksBehind ∧
      isStop blockKey k route.block route.blocksBehind = true :=
  isStop_of_chooses route.block_chosen hblocks hk

variable (h : Ordered parts fun a b => a.key ≤ b.key)
include h

/-- **The searches miss nothing** if and only if no version stands before
the group. -/
theorem reached_iff (hk : HasKey k parts.flatten.flatten.flatten) :
    reached parts k = true ↔ ¬ HasKey k route.before := by
  rw [hasKey_before_iff]
  by_cases hparts : ∃ p ∈ route.partsBefore, HasKey k p.flatten.flatten
  · -- the search over the partitions goes too far
    obtain ⟨p, ps, hfrom, hstop⟩ := not_isStop (f := fun p => p.flatten.flatten) route.part_chosen
      (fun p hp e he => by
        obtain ⟨x, hex, hx⟩ := route.rel_of_mem_partsBefore h (by
          rw [flatten_parts]
          exact List.mem_flatten_of_mem (List.mem_map_of_mem hp) he)
        exact hx ▸ hex) hparts
    rw [reached, hfrom]
    simp [hstop, hparts]
  by_cases hblocks : ∃ b ∈ route.blocksBefore, HasKey k b.flatten
  · -- the search over the blocks does
    obtain ⟨b, bs, hfrom, hstop⟩ := not_isStop (f := List.flatten) route.block_chosen
      (fun b hb e he => by
        obtain ⟨x, hex, hx⟩ := route.rel_of_mem_blocksBefore h (by
          rw [List.flatten_flatten]
          exact List.mem_flatten_of_mem (List.mem_map_of_mem hb) he)
        exact hx ▸ hex) hblocks
    have hpart : HasKey k route.part.flatten.flatten := by
      obtain ⟨c, hc, hkey⟩ := hblocks
      refine hkey.mono (route.block_subset ?_)
      rw [route.block_chosen.split]
      exact List.mem_append_left _ hc
    obtain ⟨hpfrom, hpstop⟩ := isStop_of_chooses (f := fun p => p.flatten.flatten)
      route.part_chosen hparts hpart
    rw [reached, hpfrom]
    simp only [hpstop, Bool.true_and, hfrom, hstop, Bool.false_and, hblocks]
    simp
  by_cases hgroups : ∃ g ∈ route.groupsBefore, HasKey k g
  · -- the search over the restart points does
    obtain ⟨as, g, bs, hsplit, hno, hg⟩ := exists_first (f := id) hgroups
    have hfrom : sectionsFrom id k route.block = g :: (bs ++ route.group :: route.groupsBehind) :=
      sectionsFrom_split (by rw [route.group_picked.split, hsplit, List.append_assoc, List.cons_append])
        hno hg
    have hfirst : firstKey route.group = k := by
      obtain ⟨e, he, hkey⟩ := hg
      have hmem : e ∈ route.groupsBefore.flatten := by
        rw [hsplit]
        exact List.mem_flatten_of_mem (List.mem_append_right _ List.mem_cons_self) he
      obtain ⟨x, hex, hx⟩ := route.rel_of_mem_groupsBefore h hmem
      exact le_antisymm (route.firstKey_group_le hmem) (hx ▸ hkey ▸ hex)
    have hblock : HasKey k route.block.flatten := by
      obtain ⟨d, hd, hkey⟩ := hgroups
      refine hkey.mono (route.group_subset ?_)
      rw [route.group_picked.split]
      exact List.mem_append_left _ hd
    obtain ⟨hpfrom, hpstop⟩ := route.part_stop hparts hblock
    obtain ⟨hbfrom, hbstop⟩ := route.block_stop hblocks hblock
    have hall : (bs ++ route.group :: route.groupsBehind).all (fun g => firstKey g ≠ k) = false := by
      rw [List.all_eq_false]
      exact ⟨route.group, List.mem_append_right _ List.mem_cons_self, by simp [hfirst]⟩
    rw [reached, hpfrom]
    simp only [hpstop, hbfrom, hbstop, Bool.true_and, hfrom, hall, hgroups]
    simp
  · -- the group has the first version
    have hbefore : ¬ HasKey k route.before := by
      rw [hasKey_before_iff]
      rintro (hk | hk | hk)
      · exact hparts hk
      · exact hblocks hk
      · exact hgroups hk
    have hgroup : HasKey k route.group := by
      by_contra hgroup
      obtain ⟨e, he, hkey⟩ := hk
      rw [route.entries_eq, List.mem_append, List.mem_append] at he
      rcases he with he | he | he
      · exact hbefore ⟨e, he, hkey⟩
      · exact hgroup ⟨e, he, hkey⟩
      · exact route.not_hasKey_behind h hbefore hgroup ⟨e, he, hkey⟩
    have hblock := hgroup.mono (route.group_subset route.group_mem)
    obtain ⟨hpfrom, hpstop⟩ := route.part_stop hparts hblock
    obtain ⟨hbfrom, hbstop⟩ := route.block_stop hblocks hblock
    have hgfrom : sectionsFrom id k route.block = route.group :: route.groupsBehind :=
      sectionsFrom_split route.group_picked.split (fun g hg hkey => hgroups ⟨g, hg, hkey⟩) hgroup
    have hall : route.groupsBehind.all (fun g => firstKey g ≠ k) = true := by
      rw [List.all_eq_true]
      exact fun g hg => by simpa using (route.group_picked.behind g hg).ne'
    rw [reached, hpfrom]
    simp only [hpstop, hbfrom, hbstop, Bool.true_and, hgfrom, hall, hparts, hblocks, hgroups]
    simp

end Route

/-! ## Lookups -/

section

variable {P : Platform} {raw : Options} {entries : List Entry}

/-- **Lookups among versions.** A lookup finds the newest version of its
key if and only if the searches miss nothing. -/
theorem get_versions (hvalid : raw.normalize.validate = .ok ()) (hne : entries ≠ [])
    (hkeys : ∀ e ∈ entries, e.key ≠ []) (hversions : (entries.map Tables.entryRank).Nodup)
    (hreadable : Readable P raw.normalize raw.normalize.readLimit (blocksOf raw entries))
    (hfits : Fits P raw.normalize (blocksOf raw entries)) :
    ∃ t, flush P raw entries = .ok t ∧ ∀ ls k e, Newest entries k e →
      (((t.reader.get P (fileSource t.file) k).exec (t.after P ls)).1 = .ok (some e) ↔
        reached (partsOf raw.normalize (blocksOf raw entries)) k = true) := by
  obtain ⟨t, hflush, hserves, hlive⟩ := flush_serves hvalid hne hkeys ⟨hfits, hreadable⟩
  have hall := entries_partsOf raw entries
  have hlookup : ∀ k, ∃ v, Prog.Keeps (Sound P (fileSource t.file) t.reader)
      (t.reader.getViewContext P (fileSource t.file) none k) (· = .ok v) := by
    intro k
    by_cases hk : HasKey k (partsOf raw.normalize (blocksOf raw entries)).flatten.flatten.flatten
    · obtain ⟨route, hroute⟩ := getViewContext_route hserves hk
      exact ⟨_, hroute⟩
    · exact ⟨none, getViewContext_missing hserves hk⟩
  refine ⟨t, hflush, fun ls k e hnewest => ?_⟩
  have hafter := live_after hserves.coherent hlive hlookup ls
  have hk : HasKey k (partsOf raw.normalize (blocksOf raw entries)).flatten.flatten.flatten := by
    rw [hall]
    exact ⟨e, (sortEntries_perm entries).mem_iff.mpr hnewest.1, hnewest.2.1⟩
  obtain ⟨route, hroute⟩ := getViewContext_route hserves hk
  have hget := (get_live hserves.coherent hroute _ hafter).1
  rw [Option.map_map] at hget
  have hid : Option.map (EntryView.entry ∘ Entry.view) (route.group.find? fun e => e.key = k) =
      route.group.find? fun e => e.key = k := Option.map_id'
  rw [hid] at hget
  rw [hget, route.reached_iff hserves.ordered hk, Except.ok.injEq]
  have hcut := route.entries_eq
  rw [hall] at hcut
  constructor
  · -- a version before the group would come before the newest one
    rintro hfound ⟨d, hd, hkey⟩
    have he : e ∈ route.group ++ route.behind :=
      List.mem_append_left _ (List.mem_of_find?_eq_some hfound)
    have hnodup := ((sortEntries_perm entries).map Tables.entryRank).nodup_iff.mpr hversions
    have hsorted := List.pairwise_insertionSort Tables.EntryLe entries
    change (Tables.sortEntries entries).Pairwise Tables.EntryLe at hsorted
    rw [hcut] at hnodup hsorted
    have hne := (List.pairwise_append.mp (List.pairwise_map.mp hnodup)).2.2 d hd e he
    have hle := (Tables.entryLe_iff d e).mp ((List.pairwise_append.mp hsorted).2.2 d hd e he)
    have hmem : d ∈ entries := by
      rw [← (sortEntries_perm entries).mem_iff, hcut]
      exact List.mem_append_left _ hd
    have hge := (entryLe_iff_newer (hnewest.2.1.trans hkey.symm)).mpr (hnewest.2.2 d hmem hkey)
    exact hne (le_antisymm hle ((Tables.entryLe_iff e d).mp hge))
  · intro hbefore
    rw [route.find_eq hserves.ordered hbefore, hall]
    obtain ⟨e', he'⟩ := Option.ne_none_iff_exists'.mp
      (Route.find_eq_none_iff.not_left.mpr (hall ▸ hk))
    rw [he', (newest_of_find he').unique hversions hnewest]

/-- Three versions of two keys in one group. -/
theorem get_versions_three :
    ∃ t, flush .plain .plain [⟨[1], [2], false, 2⟩, ⟨[1], [], true, 3⟩, ⟨[2], [5], false, 1⟩] = .ok t ∧
      ∀ ls k e, Newest [⟨[1], [2], false, 2⟩, ⟨[1], [], true, 3⟩, ⟨[2], [5], false, 1⟩] k e →
        (((t.reader.get .plain (fileSource t.file) k).exec (t.after .plain ls)).1 = .ok (some e) ↔
          reached (partsOf Options.plain.normalize (blocksOf .plain
            [⟨[1], [2], false, 2⟩, ⟨[1], [], true, 3⟩, ⟨[2], [5], false, 1⟩])) k = true) :=
  get_versions rfl (by decide) (by decide) (by decide) (fun _ => by decide +kernel)
    ⟨fun _ _ => ⟨_, _, rfl⟩, by decide +kernel, by decide +kernel, by decide +kernel, rfl⟩

set_option maxRecDepth 10000 in
/-- **An older version is found** where the newer one stands alone in the
restart group ahead of it. -/
theorem get_older_version :
    Newest [⟨[1], [2], false, 2⟩, ⟨[1], [1], false, 1⟩] [1] ⟨[1], [2], false, 2⟩ ∧
      Readable .plain { Options.plain with restartInterval := 1 }.normalize
        { Options.plain with restartInterval := 1 }.normalize.readLimit
        (blocksOf { Options.plain with restartInterval := 1 }
          [⟨[1], [2], false, 2⟩, ⟨[1], [1], false, 1⟩]) ∧
      (do
        let t ← flush .plain { Options.plain with restartInterval := 1 }
          [⟨[1], [2], false, 2⟩, ⟨[1], [1], false, 1⟩]
        ((t.reader.get .plain (fileSource t.file) [1]).exec t.state).1) =
          .ok (some ⟨[1], [1], false, 1⟩) := by
  refine ⟨⟨by decide, rfl, by decide⟩, fun _ => by decide +kernel, by decide +kernel⟩

end

end LSMEngine.Format
