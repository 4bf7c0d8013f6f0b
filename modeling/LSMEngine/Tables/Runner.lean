import LSMEngine.Tables.Merge
import LSMEngine.Tables.Model.Runner
/-!
# Tables — the runner's merge is a merge, or an error

`mergeEntries` on any number of iterators in the order of a table. If
none of them fails, the output has one entry for each key, the one that
beats every version any input has, with the exception of tombstones that
are dropped; if one fails, however late, so does the merge.
-/

namespace LSMEngine.Tables

variable {ε : Type} {its : List (List Entry)} {drop : Bool} {k : Bytes} {e : Entry}

/-- **The version to keep of a key**: the highest sequence over all
inputs, and the tombstone on ties. -/
structure Winner (its : List (List Entry)) (e : Entry) : Prop where
  held : ∃ it ∈ its, e ∈ it
  beats : ∀ it ∈ its, ∀ f ∈ it, f.key = e.key → Beats e f

/-- Two winners of a key are tombstones together. -/
theorem Winner.tombstone_of_tombstone {e x : Entry} (hx : Winner its x) (he : Winner its e)
    (hk : x.key = e.key) (ht : e.tombstone = true) : x.tombstone = true := by
  obtain ⟨it, hit, hmem⟩ := he.held
  obtain ⟨it', hit', hmem'⟩ := hx.held
  have hle := (he.beats it' hit' x hmem' hk).seq_le
  rcases hx.beats it hit e hmem hk.symm with hlt | ⟨-, htomb⟩
  · exact absurd hle (not_le.mpr hlt)
  · exact htomb ht

theorem beats_of_found {it : List Entry} (hit : it.Pairwise EntryLe) (he : found it k = some e)
    {f : Entry} (hf : f ∈ it) (hk : f.key = k) : Beats e f := by
  obtain ⟨hkey, as, bs, rfl, has⟩ := List.find?_eq_some_iff_append.mp he
  have hek : e.key = k := by simpa using hkey
  rcases List.mem_append.mp hf with hf | hf
  · simpa [hk] using has f hf
  · rcases List.mem_cons.mp hf with rfl | hf
    · exact .refl f
    · have hbs := (List.pairwise_append.mp hit).2.1
      exact beats_of_entryLe ((List.pairwise_cons.mp hbs).1 f hf) (hk.trans hek.symm)

section Sorted

variable (hits : ∀ it ∈ its, it.Pairwise EntryLe)
include hits

/-- The best of the first entries beats them all. -/
theorem winner_bestOf {c : Cursor Entry} {g : List (Cursor Entry)}
    (hperm : ((c :: g).map Cursor.head).Perm (its.filterMap fun it => found it k)) :
    (bestOf c.head (g.map Cursor.head)).key = k ∧ Winner its (bestOf c.head (g.map Cursor.head)) := by
  obtain ⟨hmem, hbest⟩ := bestOf_spec c.head (g.map Cursor.head)
  obtain ⟨it, hit, hfound⟩ := List.mem_filterMap.mp (hperm.mem_iff.mp hmem)
  have hkey : (bestOf c.head (g.map Cursor.head)).key = k := by simpa using List.find?_some hfound
  refine ⟨hkey, ⟨it, hit, List.mem_of_find?_eq_some hfound⟩, ?_⟩
  intro it' hit' f hf hfk
  have hsome : (found it' k).isSome :=
    List.find?_isSome.mpr ⟨f, hf, by simpa using hfk.trans hkey⟩
  obtain ⟨w, hw⟩ := Option.isSome_iff_exists.mp hsome
  have hwmem := hperm.mem_iff.mpr (List.mem_filterMap.mpr ⟨it', hit', hw⟩)
  exact (hbest w hwmem).trans (beats_of_found (hits it' hit') hw hf (hfk.trans hkey))

/-- **What the merge keeps** are winners. -/
theorem winner_of_mem_mergeEntries (he : e ∈ mergeEntries its drop) :
    Winner its e ∧ ¬ (e.tombstone ∧ drop) := by
  obtain ⟨c, g, rfl, hperm, hkeep⟩ := group_of_mem_mergeEntries hits he
  exact ⟨(winner_bestOf hits hperm).2, hkeep⟩

/-- **Every key has a winner**, and it is kept unless it is a tombstone
that is dropped. -/
theorem exists_winner (drop : Bool) {it : List Entry} (hit : it ∈ its) {f : Entry} (hf : f ∈ it) :
    ∃ e, Winner its e ∧ e.key = f.key ∧ (e ∈ mergeEntries its drop ↔ ¬ (e.tombstone ∧ drop)) := by
  have hfound : found it f.key ≠ none := by
    simpa [found] using ⟨f, hf, rfl⟩
  obtain ⟨c, g, hperm, hor⟩ := exists_group_mergeEntries hits drop ⟨it, hit, hfound⟩
  obtain ⟨hkey, hwin⟩ := winner_bestOf hits hperm
  refine ⟨_, hwin, hkey, fun hmem => (winner_of_mem_mergeEntries hits hmem).2, fun hkeep => ?_⟩
  exact hor.resolve_right hkeep

end Sorted

/-- **The merge of a compaction.** On inputs in the order of a table, if
none of them fails, the output ascends strictly, and under every key
there is the winner of the key is in it, unless that is a tombstone and
tombstones are dropped, when nothing is; and if an input fails, so does
the merge. -/
theorem mergeEntries_correct (iters : List (Feed Entry ε)) (drop : Bool)
    (hsorted : ∀ it ∈ iters, it.entries.Pairwise EntryLe) :
    ((∀ it ∈ iters, it.err = none) → ∃ out, Runner.mergeEntries iters drop = .ok out ∧
      (out.Pairwise fun a b => a.key < b.key) ∧
      (∀ e ∈ out, Winner (iters.map Feed.entries) e ∧ ¬ (e.tombstone ∧ drop)) ∧
      ∀ it ∈ iters, ∀ f ∈ it.entries, ∃ e, Winner (iters.map Feed.entries) e ∧ e.key = f.key ∧
        (¬ (e.tombstone ∧ drop) → e ∈ out) ∧
        (e.tombstone ∧ drop → ∀ x ∈ out, x.key ≠ f.key)) ∧
      ((∃ it ∈ iters, it.err ≠ none) → ∃ err, Runner.mergeEntries iters drop = .error err) := by
  refine ⟨fun hnone => ?_, fun herr => ?_⟩
  · have hits : ∀ it ∈ iters.map Feed.entries, it.Pairwise EntryLe := by
      intro it hit
      obtain ⟨x, hx, rfl⟩ := List.mem_map.mp hit
      exact hsorted x hx
    have hok : Runner.mergeEntries iters drop = .ok (mergeEntries (iters.map Feed.entries) drop) := by
      rw [Runner.mergeEntries, mergeFeeds_eq hnone]
      rfl
    refine ⟨_, hok, pairwise_mergeEntries hits, fun e => winner_of_mem_mergeEntries hits, ?_⟩
    intro it hit f hf
    obtain ⟨e, hwin, hkey, hiff⟩ := exists_winner hits drop (List.mem_map_of_mem hit) hf
    refine ⟨e, hwin, hkey, hiff.mpr, fun hdrop x hx hxk => ?_⟩
    obtain ⟨hx, hkeep⟩ := winner_of_mem_mergeEntries hits hx
    exact hkeep ⟨hx.tombstone_of_tombstone hwin (hxk.trans hkey.symm) hdrop.1, hdrop.2⟩
  · have hsome : (mergeFeeds Entry.key mergeLe true iters).2.isSome := isSome_mergeFeeds herr
    obtain ⟨err, heq⟩ := Option.isSome_iff_exists.mp hsome
    refine ⟨err, ?_⟩
    rw [Runner.mergeEntries, ← Prod.mk.eta (p := mergeFeeds Entry.key mergeLe true iters), heq]

/-- A newer version of a key, and an older one with a tombstone behind it;
the second input may not be read to its end. -/
def twoInputs (err : Option String) : List (Feed Entry String) :=
  [⟨[⟨[97], [2], false, 2⟩], none⟩, ⟨[⟨[97], [1], false, 1⟩, ⟨[98], [], true, 1⟩], err⟩]

theorem mergeEntries_twoInputs :
    (Runner.mergeEntries (twoInputs none) true = .ok [⟨[97], [2], false, 2⟩] ∧
      Winner ((twoInputs none).map Feed.entries) ⟨[97], [2], false, 2⟩) ∧
    ∃ err, Runner.mergeEntries (twoInputs (some "block 1: checksum mismatch")) true = .error err := by
  have hmerged : Runner.mergeEntries (twoInputs none) true = .ok [⟨[97], [2], false, 2⟩] := by
    decide +kernel
  obtain ⟨out, hout, -, hwinners, -⟩ :=
    (mergeEntries_correct (twoInputs none) true (by decide)).1 (by decide)
  obtain rfl := Except.ok.inj (hmerged.symm.trans hout)
  refine ⟨⟨hmerged, (hwinners _ List.mem_cons_self).1⟩, ?_⟩
  refine (mergeEntries_correct (twoInputs (some "block 1: checksum mismatch")) true (by decide)).2 ?_
  exact ⟨_, List.mem_cons_of_mem _ List.mem_cons_self, Option.some_ne_none _⟩

end LSMEngine.Tables
