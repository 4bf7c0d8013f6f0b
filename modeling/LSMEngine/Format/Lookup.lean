import LSMEngine.Format.Served
/-!
# Format — which version a lookup finds

The way of a lookup cuts the entries of a table into those before the
group it ends in, the group and those behind it. No entry before is
behind the key (`Route.rel_of_mem_before`), and if none before has the
key, the group has the first entry of the table with the key
(`Route.find_eq`). So under different keys a lookup finds the entry of
its key, through the context (`getViewContext_served`) and, as long as
the table is not dropped, without it (`get_live`).
-/

namespace LSMEngine.Format

variable {e : Entry} {k : Bytes}

/-- Some entry has the key. -/
abbrev HasKey (k : Bytes) (es : List Entry) : Prop := ∃ e ∈ es, e.key = k

/-- What a lookup needs of a table: entries in every section of it, in
order. -/
structure Ordered (parts : List Blocks) (R : Entry → Entry → Prop) : Prop where
  part_ne_nil : ∀ p ∈ parts, p.flatten.flatten ≠ []
  block_ne_nil : ∀ p ∈ parts, ∀ b ∈ p, b.flatten ≠ []
  group_ne_nil : ∀ p ∈ parts, ∀ b ∈ p, ∀ g ∈ b, g ≠ []
  sorted : parts.flatten.flatten.flatten.Pairwise R

theorem Serves.ordered {P : Platform} {src : Source} {r : Reader} {parts : List Blocks}
    (h : Serves P src r parts) :
    Ordered parts fun a b => a.key ≤ b.key :=
  ⟨fun _ => h.part_ne_nil, fun p hp b hb => (h.sized p hp b hb).flatten_ne_nil,
    fun p hp b hb => (h.sized p hp b hb).nonempty, h.sorted⟩

/-- The entries of a list come before the first one of what follows. -/
theorem rel_firstKey {R : Entry → Entry → Prop} {as bs cs : List Entry}
    (h : (as ++ (bs ++ cs)).Pairwise R) (hne : bs ≠ []) (he : e ∈ as) :
    ∃ x, R e x ∧ x.key = firstKey bs := by
  obtain ⟨x, hx, hkey⟩ := firstKey_mem hne
  exact ⟨x, (List.pairwise_append.mp h).2.2 e he x (List.mem_append_left _ hx), hkey.symm⟩

/-- Sections that start behind a key are behind it. -/
theorem lt_of_mem_sections {α : Type} {f : α → List Entry} {items : List α} {as bs : List Entry}
    (hlt : ∀ x ∈ items, k < firstKey (f x))
    (h : (as ++ (bs ++ (items.map f).flatten)).Pairwise fun a b => a.key ≤ b.key)
    (he : e ∈ (items.map f).flatten) : k < e.key := by
  obtain ⟨s, hs, hmem⟩ := List.mem_flatten.mp he
  obtain ⟨x, hx, rfl⟩ := List.mem_map.mp hs
  have htail := (List.pairwise_append.mp (List.pairwise_append.mp h).2.1).2.1
  exact (hlt x hx).trans_le (firstKey_le (htail.sublist (List.sublist_flatten_of_mem hs)) hmem)

namespace Route

variable {parts : List Blocks} (route : Route parts k)
variable {R : Entry → Entry → Prop}

/-! ## The cut -/

/-- The entries before the group. -/
def before : List Entry :=
  route.partsBefore.flatten.flatten.flatten ++
    (route.blocksBefore.flatten.flatten ++ route.groupsBefore.flatten)

/-- The entries behind it. -/
def behind : List Entry :=
  route.groupsBehind.flatten ++
    (route.blocksBehind.flatten.flatten ++ route.partsBehind.flatten.flatten.flatten)

theorem block_eq :
    route.block.flatten =
      route.groupsBefore.flatten ++ (route.group ++ route.groupsBehind.flatten) := by
  rw [route.group_picked.split, List.flatten_append, List.flatten_cons]

theorem part_eq :
    route.part.flatten.flatten =
      route.blocksBefore.flatten.flatten ++
        (route.block.flatten ++ route.blocksBehind.flatten.flatten) := by
  conv_lhs => rw [route.block_chosen.split]
  rw [List.flatten_append, List.flatten_append, List.flatten_cons, List.flatten_append]

theorem parts_eq :
    parts.flatten.flatten.flatten =
      route.partsBefore.flatten.flatten.flatten ++
        (route.part.flatten.flatten ++ route.partsBehind.flatten.flatten.flatten) := by
  conv_lhs => rw [route.part_chosen.split]
  simp only [List.flatten_append, List.flatten_cons]

/-- **The cut of the table** at the group. -/
theorem entries_eq :
    parts.flatten.flatten.flatten = route.before ++ (route.group ++ route.behind) := by
  rw [route.parts_eq, route.part_eq, route.block_eq, before, behind]
  simp only [List.append_assoc]

theorem part_mem : route.part ∈ parts := route.part_chosen.mem

theorem block_mem : route.block ∈ route.part := route.block_chosen.mem

theorem group_mem : route.group ∈ route.block := route.group_picked.mem

section

variable (h : Ordered parts R)
include h

theorem sorted_part : route.part.flatten.flatten.Pairwise R := by
  have hsorted := h.sorted
  rw [route.parts_eq] at hsorted
  exact (List.pairwise_append.mp (List.pairwise_append.mp hsorted).2.1).1

theorem sorted_block : route.block.flatten.Pairwise R := by
  have hsorted := route.sorted_part h
  rw [route.part_eq] at hsorted
  exact (List.pairwise_append.mp (List.pairwise_append.mp hsorted).2.1).1

/-! ## Before the group -/

theorem rel_of_mem_partsBefore (he : e ∈ route.partsBefore.flatten.flatten.flatten) :
    ∃ x, R e x ∧ x.key = partKey route.part :=
  rel_firstKey (route.parts_eq ▸ h.sorted) (h.part_ne_nil _ route.part_mem) he

theorem rel_of_mem_blocksBefore (he : e ∈ route.blocksBefore.flatten.flatten) :
    ∃ x, R e x ∧ x.key = blockKey route.block :=
  rel_firstKey (route.part_eq ▸ route.sorted_part h)
    (h.block_ne_nil _ route.part_mem _ route.block_mem) he

theorem rel_of_mem_groupsBefore (he : e ∈ route.groupsBefore.flatten) :
    ∃ x, R e x ∧ x.key = firstKey route.group :=
  rel_firstKey (route.block_eq ▸ route.sorted_block h)
    (h.group_ne_nil _ route.part_mem _ route.block_mem _ route.group_mem) he

end

theorem firstKey_group_le (he : e ∈ route.groupsBefore.flatten) : firstKey route.group ≤ k := by
  refine route.group_picked.le fun hnil => ?_
  rw [hnil] at he
  exact absurd he List.not_mem_nil

/-- **An entry before the group** comes before one whose key is not above
the key that is looked up. -/
theorem rel_of_mem_before (h : Ordered parts R) (he : e ∈ route.before) :
    ∃ x, R e x ∧ x.key ≤ k := by
  rw [before, List.mem_append, List.mem_append] at he
  rcases he with he | he | he
  · obtain ⟨x, hex, hx⟩ := route.rel_of_mem_partsBefore h he
    exact ⟨x, hex, hx ▸ route.part_chosen.le⟩
  · obtain ⟨x, hex, hx⟩ := route.rel_of_mem_blocksBefore h he
    exact ⟨x, hex, hx ▸ route.block_chosen.le⟩
  · obtain ⟨x, hex, hx⟩ := route.rel_of_mem_groupsBefore h he
    exact ⟨x, hex, hx ▸ route.firstKey_group_le he⟩

/-- Under different keys none before the group has the key. -/
theorem not_hasKey_before (h : Ordered parts fun a b => a.key < b.key) :
    ¬ HasKey k route.before := by
  rintro ⟨e, he, rfl⟩
  obtain ⟨x, hex, hx⟩ := route.rel_of_mem_before h he
  exact absurd hex (not_lt.mpr hx)

/-! ## Behind the group -/

variable (h : Ordered parts fun a b => a.key ≤ b.key)
include h

theorem lt_of_mem_groupsBehind (he : e ∈ route.groupsBehind.flatten) : k < e.key := by
  have hsorted := route.sorted_block h
  rw [route.block_eq, ← List.map_id route.groupsBehind] at hsorted
  exact lt_of_mem_sections route.group_picked.behind hsorted (by rwa [List.map_id'])

section

variable (hbefore : ¬ HasKey k route.before) (hgroup : ¬ HasKey k route.group)
include hbefore hgroup

/-- If the block's first entry with the key is not before the group, it is
in it. -/
theorem not_hasKey_block : ¬ HasKey k route.block.flatten := by
  rintro ⟨e, he, hkey⟩
  rw [route.block_eq, List.mem_append, List.mem_append] at he
  rcases he with he | he | he
  · exact hbefore ⟨e, List.mem_append_right _ (List.mem_append_right _ he), hkey⟩
  · exact hgroup ⟨e, he, hkey⟩
  · exact absurd hkey (route.lt_of_mem_groupsBehind h he).ne'

theorem not_hasKey_blocksBehind : ¬ HasKey k route.blocksBehind.flatten.flatten := by
  rintro ⟨e, he, hkey⟩
  rcases route.block_chosen.turn with ⟨-, hbehind⟩ | ⟨heq, -⟩
  · have hsorted := route.sorted_part h
    rw [route.part_eq, List.flatten_flatten (L := route.blocksBehind)] at hsorted
    rw [List.flatten_flatten] at he
    exact absurd hkey (lt_of_mem_sections hbehind hsorted he).ne'
  · -- the block starts with the key
    obtain ⟨x, hx, hfirst⟩ := firstKey_mem (h.block_ne_nil _ route.part_mem _ route.block_mem)
    exact route.not_hasKey_block h hbefore hgroup ⟨x, hx, hfirst.symm.trans heq⟩

theorem not_hasKey_partsBehind : ¬ HasKey k route.partsBehind.flatten.flatten.flatten := by
  rintro ⟨e, he, hkey⟩
  rcases route.part_chosen.turn with ⟨-, hbehind⟩ | ⟨heq, -⟩
  · have hsorted := h.sorted
    rw [route.parts_eq, flatten_parts route.partsBehind] at hsorted
    rw [flatten_parts] at he
    exact absurd hkey (lt_of_mem_sections hbehind hsorted he).ne'
  · -- the partition starts with the key
    obtain ⟨x, hx, hfirst⟩ := firstKey_mem (h.part_ne_nil _ route.part_mem)
    have hxk : x.key = k := hfirst.symm.trans heq
    rw [route.part_eq, List.mem_append, List.mem_append] at hx
    rcases hx with hx | hx | hx
    · exact hbefore ⟨x, List.mem_append_right _ (List.mem_append_left _ hx), hxk⟩
    · exact route.not_hasKey_block h hbefore hgroup ⟨x, hx, hxk⟩
    · exact route.not_hasKey_blocksBehind h hbefore hgroup ⟨x, hx, hxk⟩

theorem not_hasKey_behind : ¬ HasKey k route.behind := by
  rintro ⟨e, he, hkey⟩
  rw [behind, List.mem_append, List.mem_append] at he
  rcases he with he | he | he
  · exact absurd hkey (route.lt_of_mem_groupsBehind h he).ne'
  · exact route.not_hasKey_blocksBehind h hbefore hgroup ⟨e, he, hkey⟩
  · exact route.not_hasKey_partsBehind h hbefore hgroup ⟨e, he, hkey⟩

end

/-! ## What is found -/

omit h in
theorem find_eq_none_iff {es : List Entry} :
    es.find? (fun e => decide (e.key = k)) = none ↔ ¬ HasKey k es := by
  simp only [List.find?_eq_none, HasKey, decide_eq_true_eq, not_exists, not_and]

/-- **If no version stands before the group**, the lookup finds the first
one of the table. -/
theorem find_eq (hbefore : ¬ HasKey k route.before) :
    route.group.find? (fun e => decide (e.key = k)) =
      parts.flatten.flatten.flatten.find? (fun e => decide (e.key = k)) := by
  rw [route.entries_eq, List.find?_append, find_eq_none_iff.mpr hbefore, Option.none_or,
    List.find?_append]
  by_cases hgroup : HasKey k route.group
  · obtain ⟨x, hx⟩ := Option.ne_none_iff_exists'.mp (find_eq_none_iff.not_left.mpr hgroup)
    rw [hx, Option.some_or]
  · rw [find_eq_none_iff.mpr hgroup, Option.none_or,
      find_eq_none_iff.mpr (route.not_hasKey_behind h hbefore hgroup)]

end Route

/-! ## Lookups -/

section

variable {P : Platform} {src : Source} {r : Reader} {parts : List Blocks}

/-- A key that is not in the table is not found. -/
theorem getViewContext_missing (h : Serves P src r parts)
    (hk : ¬ HasKey k parts.flatten.flatten.flatten) :
    Prog.Keeps (Sound P src r) (r.getViewContext P src none k) (· = .ok none) := by
  rw [Reader.getViewContext]
  split
  · exact .pure rfl
  · rcases pipelineGet_served h k with ⟨hnone, -⟩ | ⟨route, hroute⟩
    · exact hnone
    · have hgroup : ¬ HasKey k route.group := by
        rintro ⟨e, he, hkey⟩
        refine hk ⟨e, ?_, hkey⟩
        rw [route.entries_eq]
        exact List.mem_append_right _ (List.mem_append_left _ he)
      rwa [Route.find_eq_none_iff.mpr hgroup] at hroute

/-- **A key that is in the table** is looked for in the group of its
route. -/
theorem getViewContext_route (h : Serves P src r parts)
    (hk : HasKey k parts.flatten.flatten.flatten) :
    ∃ route : Route parts k, Prog.Keeps (Sound P src r) (r.getViewContext P src none k)
      (· = .ok ((route.group.find? fun e => e.key = k).map Entry.view)) := by
  obtain ⟨e, he, rfl⟩ := hk
  have hinside : ¬ r.isOutside e.key = true := by
    rw [h.inside e he]
    decide
  rw [Reader.getViewContext]
  rw [if_neg hinside]
  rcases pipelineGet_served h e.key with ⟨-, hlt⟩ | hroute
  · exact absurd (hlt e he) (lt_irrefl _)
  · exact hroute

/-- **Under different keys** a lookup finds the entry of its key. -/
theorem getViewContext_served (h : Serves P src r parts)
    (hlt : parts.flatten.flatten.flatten.Pairwise fun a b => a.key < b.key) (k : Bytes) :
    Prog.Keeps (Sound P src r) (r.getViewContext P src none k)
      (· = .ok ((parts.flatten.flatten.flatten.find? fun e => e.key = k).map Entry.view)) := by
  by_cases hk : HasKey k parts.flatten.flatten.flatten
  · obtain ⟨route, hroute⟩ := getViewContext_route h hk
    have hbefore := route.not_hasKey_before ⟨h.ordered.part_ne_nil, h.ordered.block_ne_nil,
      h.ordered.group_ne_nil, hlt⟩
    rwa [route.find_eq h.ordered hbefore] at hroute
  · rw [Route.find_eq_none_iff.mpr hk]
    exact getViewContext_missing h hk

/-! ## Tables in use -/

theorem getViewContext_live (hco : Coherent P src r) {v : Option EntryView}
    (h : Prog.Keeps (Sound P src r) (r.getViewContext P src none k) (· = .ok v)) :
    Prog.Keeps (Live P src r) (r.getViewContext P src none k) (· = .ok v) := by
  intro s hs
  rcases getViewContext_refines (fetches_live hco) none k s bare ⟨hs, rfl⟩ with
    ⟨-, hstate, -⟩ | ⟨_, hfalse, -⟩
  · exact ⟨(h s hs.1).1, hstate.1⟩
  · exact hfalse.elim

/-- **`Get`** finds what the lookup under a context finds. -/
theorem get_live (hco : Coherent P src r) {v : Option EntryView}
    (h : Prog.Keeps (Sound P src r) (r.getViewContext P src none k) (· = .ok v)) :
    Prog.Keeps (Live P src r) (r.get P src k) (· = .ok (v.map EntryView.entry)) := by
  have hview : Prog.Keeps (Live P src r) (r.getView P src k) (· = .ok v) := by
    intro s hs
    have hcontext := getViewContext_live hco h s hs
    rw [Reader.getViewContext] at hcontext
    rw [Reader.getView, Prog.exec_mk, hs.2, Bool.false_or]
    dsimp only at hcontext
    split
    · next hout =>
      rw [if_pos hout] at hcontext
      exact hcontext
    · next hout =>
      rw [if_neg hout] at hcontext
      rcases hexec : (r.pipelineGet P src k).exec s with ⟨x, s'⟩
      rw [hexec] at hcontext
      obtain ⟨rfl, hlive⟩ := hcontext
      exact ⟨rfl, hlive⟩
  exact hview.bind_ok (.pure rfl)

end

end LSMEngine.Format
