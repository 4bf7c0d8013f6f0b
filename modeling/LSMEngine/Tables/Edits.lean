import LSMEngine.Common.Lists
import LSMEngine.Tables.Model.Edits
import LSMEngine.Tables.Set
import Mathlib.Data.List.Nodup
/-!
# Tables — what edits leave in the manifest

The set follows the calls in the order of their first steps, the manifest
in the order of their second ones. Both come to the same unless a call
strikes a table out of the manifest that is only then entered by the
call that added it: a compaction can overtake the flush whose table it
merges. Where no call does so (`Ordered`), the manifest lists the set once
all calls have returned (`manifest_lists_set`).
-/

namespace LSMEngine.Tables

variable {walSeq : UInt64} {phase : Phase} {add : List TableMeta} {remove : List String}

namespace Store

variable {s s' : Store} {a : Event} {c : Call} {i j : ℕ} {p : String}

/-! ## Steps -/

/-- **The outcomes of an event.** -/
inductive Step (s : Store) : Event → Store → Prop
  | plan {e : Edit} {walSeq : UInt64} (h : s.Sound e) :
      Step s (.plan e walSeq)
        { s with
          calls := s.calls ++ [⟨e, walSeq, .planned⟩]
          files := s.files ++ e.add.map Table.path
          used := s.used ++ e.add.map Table.path }
  | apply {i : ℕ} {c : Call} (hc : s.calls[i]? = some c) (hphase : c.phase = .planned) :
      Step s (.apply i)
        ({ s with set := (s.set.apply c.edit).1 }.goOn i c (.applied (s.set.apply c.edit).2))
  | store {i : ℕ} {c : Call} {removed : List Table} (hc : s.calls[i]? = some c)
      (hphase : c.phase = .applied removed) :
      Step s (.store i true)
        ({ s with
            manifest := s.manifest.edit (c.edit.add.map Table.metadata) c.edit.removePath
              c.walSeq }.goOn i c (.stored (.closing removed removed)))
  | fail {i : ℕ} {c : Call} {removed : List Table} (hc : s.calls[i]? = some c)
      (hphase : c.phase = .applied removed) : Step s (.store i false) (s.goOn i c .failed)
  | clean {i : ℕ} {c : Call} {k k' : Cleanup} {s₁ : Store} (hc : s.calls[i]? = some c)
      (hphase : c.phase = .stored k) (hk : s.clean k = some (s₁, k')) :
      Step s (.clean i) (s₁.goOn i c (.stored k'))
  | pin :
      Step s .pin
        { s with
          set := s.set.snapshotAndPin.2
          holds := s.holds ++ [.holding s.set.tables] }
  | unpin {j : ℕ} {tables : List Table} (hj : s.holds[j]? = some (.holding tables)) :
      Step s (.unpin j)
        { s with
          set := (s.set.unpin (tables.map Table.path)).1
          holds := s.holds.set j
            (.released (.closing (s.set.unpin (tables.map Table.path)).2
              (s.set.unpin (tables.map Table.path)).2)) }
  | cleanHold {j : ℕ} {k k' : Cleanup} {s₁ : Store} (hj : s.holds[j]? = some (.released k))
      (hk : s.clean k = some (s₁, k')) :
      Step s (.cleanHold j) { s₁ with holds := s₁.holds.set j (.released k') }

theorem step_of_act (h : s.act a = some s') : s.Step a s' := by
  cases a with
  | plan e walSeq =>
    simp only [act] at h
    split at h
    · next hsound =>
      obtain rfl := Option.some.inj h
      exact .plan hsound
    · cases h
  | apply i =>
    simp only [act] at h
    split at h
    · next hc =>
      obtain rfl := Option.some.inj h
      exact .apply hc rfl
    · cases h
  | store i ok =>
    simp only [act] at h
    split at h
    · next hc =>
      split at h
      · next hok =>
        obtain rfl := Option.some.inj h
        rw [hok]
        exact .store hc rfl
      · next hok =>
        obtain rfl := Option.some.inj h
        rw [Bool.eq_false_iff.mpr hok]
        exact .fail hc rfl
    · cases h
  | clean i =>
    simp only [act] at h
    split at h
    · next hc =>
      obtain ⟨⟨s₁, k'⟩, hk, rfl⟩ := Option.map_eq_some_iff.mp h
      exact .clean hc rfl hk
    · cases h
  | pin =>
    obtain rfl := Option.some.inj h
    exact .pin
  | unpin j =>
    simp only [act] at h
    split at h
    · next hj =>
      obtain rfl := Option.some.inj h
      exact .unpin hj
    · cases h
  | cleanHold j =>
    simp only [act] at h
    split at h
    · next hj =>
      obtain ⟨⟨s₁, k'⟩, hk, rfl⟩ := Option.map_eq_some_iff.mp h
      exact .cleanHold hj hk
    · cases h

/-- The tables a cleanup is about. -/
def cleanupPaths : Cleanup → List String
  | .closing rest all => (rest ++ all).map Table.path
  | .removing rest => rest.map Table.path

/-- What a step of a cleanup does: it closes a handle or removes a file of
its tables, and touches nothing else. -/
theorem clean_spec {k k' : Cleanup} {s₁ : Store} (h : s.clean k = some (s₁, k')) :
    (∃ closed files, s₁ = { s with closed := closed, files := files } ∧
      (∀ p ∈ closed, p ∈ s.closed ∨ p ∈ cleanupPaths k) ∧
      ∀ p ∈ s.files, p ∈ files ∨ p ∈ cleanupPaths k) ∧
    ∀ p ∈ cleanupPaths k', p ∈ cleanupPaths k := by
  match k, h with
  | .closing (t :: rest) all, h =>
    obtain ⟨rfl, rfl⟩ := Prod.mk.inj (Option.some.inj h)
    refine ⟨⟨_, _, rfl, fun p hp => ?_, fun p hp => .inl hp⟩, fun p hp => ?_⟩
    · rcases List.mem_cons.mp hp with rfl | hp
      · exact .inr List.mem_cons_self
      · exact .inl hp
    · exact List.mem_cons_of_mem _ hp
  | .closing [] all, h =>
    obtain ⟨rfl, rfl⟩ := Prod.mk.inj (Option.some.inj h)
    exact ⟨⟨_, _, rfl, fun p hp => .inl hp, fun p hp => .inl hp⟩, fun p hp => hp⟩
  | .removing (t :: rest), h =>
    obtain ⟨rfl, rfl⟩ := Prod.mk.inj (Option.some.inj h)
    refine ⟨⟨_, _, rfl, fun p hp => .inl hp, fun p hp => ?_⟩,
      fun p hp => List.mem_cons_of_mem _ hp⟩
    by_cases hpt : p = t.path
    · exact .inr (hpt ▸ List.mem_cons_self)
    · exact .inl (List.mem_filter.mpr ⟨hp, by simpa using hpt⟩)

/-! ## What the calls have done -/

/-- The set is edited. -/
def isApplied : Phase → Bool
  | .planned => false
  | _ => true

/-- The manifest is stored. -/
def isStored : Phase → Bool
  | .stored _ => true
  | _ => false

/-- The manifest is still to be stored. -/
def isOpen : Phase → Bool
  | .planned => true
  | .applied _ => true
  | _ => false

/-- A call that has come so far adds the table. -/
def Adds (f : Phase → Bool) (calls : List Call) (t : Table) : Prop :=
  ∃ c ∈ calls, f c.phase ∧ t ∈ c.edit.add

/-- A call that has come so far removes the path. -/
def Strikes (f : Phase → Bool) (calls : List Call) (p : String) : Prop :=
  ∃ c ∈ calls, f c.phase ∧ p ∈ c.edit.removePath

section Counting

variable {f : Phase → Bool} {t : Table} {calls : List Call}

section

variable (hc : calls[i]? = some c)
include hc

/-- A phase that counts alike leaves everything as it is. -/
theorem strikes_set_same (hf : f phase = f c.phase) :
    Strikes f (calls.set i { c with phase := phase }) p ↔ Strikes f calls p := by
  rw [Strikes, Strikes, exists_mem_set hc, exists_mem_of_getElem hc, hf]

theorem adds_set_same (hf : f phase = f c.phase) :
    Adds f (calls.set i { c with phase := phase }) t ↔ Adds f calls t := by
  rw [Adds, Adds, exists_mem_set hc, exists_mem_of_getElem hc, hf]

/-- A phase that counts for the first time. -/
theorem strikes_set_new (hf : f phase) (hf' : f c.phase = false) :
    Strikes f (calls.set i { c with phase := phase }) p ↔
      p ∈ c.edit.removePath ∨ Strikes f calls p := by
  rw [Strikes, Strikes, exists_mem_set hc, exists_mem_of_getElem hc, hf']
  simp [hf]

theorem adds_set_new (hf : f phase) (hf' : f c.phase = false) :
    Adds f (calls.set i { c with phase := phase }) t ↔ t ∈ c.edit.add ∨ Adds f calls t := by
  rw [Adds, Adds, exists_mem_set hc, exists_mem_of_getElem hc, hf']
  simp [hf]

end

/-- A planned call counts for nothing yet. -/
theorem strikes_plan {e : Edit} (hf : f .planned = false) :
    Strikes f (calls ++ [⟨e, walSeq, .planned⟩]) p ↔ Strikes f calls p := by
  simp [Strikes, List.mem_append, or_and_right, exists_or, hf]

theorem adds_plan {e : Edit} (hf : f .planned = false) :
    Adds f (calls ++ [⟨e, walSeq, .planned⟩]) t ↔ Adds f calls t := by
  simp [Adds, List.mem_append, or_and_right, exists_or, hf]

end Counting

/-- The condition on a step: the manifest is not edited for a call while a
table the call removes is still to be entered. -/
def Ordered (s : Store) : Event → Prop
  | .store i true => ∀ c ∈ s.calls[i]?, ∀ d ∈ s.calls, isOpen d.phase →
      ∀ p ∈ c.edit.removePath, p ∉ d.edit.add.map Table.path
  | _ => True

instance (s : Store) (a : Event) : Decidable (s.Ordered a) :=
  match a with
  | .store _ true => inferInstanceAs (Decidable (∀ _, _))
  | .store _ false | .plan .. | .apply _ | .clean _ | .pin | .unpin _ | .cleanHold _ =>
    inferInstanceAs (Decidable True)

/-- **What the calls and the manifest keep**, if no call overtakes the one
whose table it removes. -/
structure Ledger (s : Store) : Prop where
  tables : ∀ t ∈ s.set.tables ++ s.set.pending, t.path ∈ s.used
  adds : ∀ c ∈ s.calls, ∀ p ∈ c.edit.add.map Table.path, p ∈ s.used
  removes : ∀ c ∈ s.calls, ∀ p ∈ c.edit.removePath, p ∈ s.used
  own : ∀ c ∈ s.calls, ∀ p ∈ c.edit.removePath, p ∉ c.edit.add.map Table.path
  behind : ∀ p, Strikes isStored s.calls p → ∀ d ∈ s.calls, isOpen d.phase →
    p ∉ d.edit.add.map Table.path
  listed : ∀ m ∈ s.manifest.tables, m.path ∈ s.used ∧ ¬ Strikes isStored s.calls m.path

@[simp] theorem goOn_calls (s : Store) (i : ℕ) (c : Call) (phase : Phase) :
    (s.goOn i c phase).calls = s.calls.set i { c with phase := phase } := rfl

/-- A call of the next state is one of this state, in a later phase perhaps. -/
theorem of_mem_set {calls : List Call} {x : Call} (hc : calls[i]? = some c)
    (hx : x ∈ calls.set i { c with phase := phase }) :
    ∃ y ∈ calls, x.edit = y.edit ∧ (x.phase = y.phase ∨ (x.phase = phase ∧ y = c)) := by
  rcases List.mem_or_eq_of_mem_set hx with hmem | rfl
  · exact ⟨x, hmem, rfl, .inl rfl⟩
  · exact ⟨c, List.mem_of_getElem? hc, rfl, .inr ⟨rfl, rfl⟩⟩

/-- Going on without storing the manifest. -/
theorem Ledger.goOn (h : s.Ledger) (hc : s.calls[i]? = some c)
    (hopen : isOpen phase → isOpen c.phase) (hstored : isStored phase = isStored c.phase) :
    (s.goOn i c phase).Ledger := by
  refine ⟨h.tables, ?_, ?_, ?_, ?_, fun m hm => ?_⟩
  · intro x hx p hp
    obtain ⟨y, hy, hedit, -⟩ := of_mem_set hc hx
    exact h.adds y hy p (hedit ▸ hp)
  · intro x hx p hp
    obtain ⟨y, hy, hedit, -⟩ := of_mem_set hc hx
    exact h.removes y hy p (hedit ▸ hp)
  · intro x hx
    obtain ⟨y, hy, hedit, -⟩ := of_mem_set hc hx
    rw [hedit]
    exact h.own y hy
  · intro p hp x hx hx'
    obtain ⟨y, hy, hedit, hphase⟩ := of_mem_set hc hx
    rw [hedit]
    refine h.behind p ((strikes_set_same hc hstored).mp hp) y hy ?_
    rcases hphase with heq | ⟨heq, rfl⟩
    · exact heq ▸ hx'
    · exact hopen (heq ▸ hx')
  · obtain ⟨hused, hnot⟩ := h.listed m hm
    exact ⟨hused, fun hs => hnot ((strikes_set_same hc hstored).mp hs)⟩

/-- A stored manifest lists no table that is struck out. -/
theorem mem_edit {m : Manifest} {w : UInt64} {x : TableMeta} : x ∈ (m.edit add remove w).tables ↔
      (x ∈ m.tables ∧ x.path ∉ remove ∧ x.path ∉ add.map TableMeta.path) ∨ x ∈ add := by
  rw [Manifest.edit, mergeManifestTables, List.mem_insertionSort, List.mem_append,
    List.mem_filter, decide_eq_true_eq]

theorem map_metadata_path (ts : List Table) :
    (ts.map Table.metadata).map TableMeta.path = ts.map Table.path := List.map_map ..

/-- Storing the manifest. -/
theorem Ledger.store {removed : List Table} (h : s.Ledger) (hc : s.calls[i]? = some c)
    (hphase : c.phase = .applied removed) (hord : s.Ordered (.store i true)) :
    Ledger ({ s with
      manifest := s.manifest.edit (c.edit.add.map Table.metadata) c.edit.removePath
        c.walSeq }.goOn i c (.stored (.closing removed removed))) := by
  have hmem : c ∈ s.calls := List.mem_of_getElem? hc
  have hopen : isOpen c.phase := by rw [hphase]; rfl
  -- what is struck out now: what was, and what this call removes
  have hstrikes : ∀ p,
      Strikes isStored (s.calls.set i { c with phase := .stored (.closing removed removed) }) p ↔
        p ∈ c.edit.removePath ∨ Strikes isStored s.calls p := fun p =>
    strikes_set_new hc rfl (by rw [hphase]; rfl)
  refine ⟨h.tables, ?_, ?_, ?_, ?_, fun m hm => ?_⟩
  · intro x hx p hp
    obtain ⟨y, hy, hedit, -⟩ := of_mem_set hc hx
    exact h.adds y hy p (hedit ▸ hp)
  · intro x hx p hp
    obtain ⟨y, hy, hedit, -⟩ := of_mem_set hc hx
    exact h.removes y hy p (hedit ▸ hp)
  · intro x hx
    obtain ⟨y, hy, hedit, -⟩ := of_mem_set hc hx
    rw [hedit]
    exact h.own y hy
  · intro p hp x hx hx'
    obtain ⟨y, hy, hedit, heq | ⟨heq, -⟩⟩ := of_mem_set hc hx
    · rw [hedit]
      rcases (hstrikes p).mp hp with hp | hp
      · exact hord c hc y hy (heq ▸ hx') p hp
      · exact h.behind p hp y hy (heq ▸ hx')
    · rw [heq] at hx'
      cases hx'
  · rcases mem_edit.mp hm with ⟨hm, hremove, -⟩ | hm
    · obtain ⟨hused, hnot⟩ := h.listed m hm
      exact ⟨hused, fun hs => ((hstrikes _).mp hs).elim hremove hnot⟩
    · have hpath : m.path ∈ c.edit.add.map Table.path := by
        rw [← map_metadata_path]
        exact List.mem_map_of_mem hm
      refine ⟨h.adds c hmem _ hpath, fun hs => ?_⟩
      rcases (hstrikes _).mp hs with hs | hs
      · exact h.own c hmem _ hs hpath
      · exact h.behind _ hs c hmem hopen hpath

/-- Planning an edit. -/
theorem Ledger.plan {e : Edit} (h : s.Ledger) (hsound : s.Sound e) :
    Ledger { s with
      calls := s.calls ++ [⟨e, walSeq, .planned⟩]
      files := s.files ++ e.add.map Table.path
      used := s.used ++ e.add.map Table.path } := by
  obtain ⟨-, hnew, hthere⟩ := hsound
  have hremove : ∀ p ∈ e.removePath, p ∈ s.used := by
    intro p hp
    obtain ⟨t, ht, rfl⟩ := List.mem_map.mp (hthere p hp)
    exact h.tables t (List.mem_append_left _ ht)
  refine ⟨fun t ht => List.mem_append_left _ (h.tables t ht), ?_, ?_, ?_, ?_, fun m hm => ?_⟩
  · intro x hx p hp
    rcases List.mem_append.mp hx with hx | hx
    · exact List.mem_append_left _ (h.adds x hx p hp)
    · obtain rfl := List.mem_singleton.mp hx
      exact List.mem_append_right _ hp
  · intro x hx p hp
    rcases List.mem_append.mp hx with hx | hx
    · exact List.mem_append_left _ (h.removes x hx p hp)
    · obtain rfl := List.mem_singleton.mp hx
      exact List.mem_append_left _ (hremove p hp)
  · intro x hx p hp
    rcases List.mem_append.mp hx with hx | hx
    · exact h.own x hx p hp
    · obtain rfl := List.mem_singleton.mp hx
      exact fun hadd => hnew p hadd (hremove p hp)
  · intro p hp x hx hopen
    have hp := (strikes_plan rfl).mp hp
    rcases List.mem_append.mp hx with hx | hx
    · exact h.behind p hp x hx hopen
    · obtain rfl := List.mem_singleton.mp hx
      obtain ⟨y, hy, -, hpy⟩ := hp
      exact fun hadd => hnew p hadd (h.removes y hy p hpy)
  · obtain ⟨hused, hnot⟩ := h.listed m hm
    exact ⟨List.mem_append_left _ hused, fun hs => hnot ((strikes_plan rfl).mp hs)⟩

/-- **Every step in order keeps the ledger.** -/
theorem Ledger.step (h : s.Ledger) (hs : s.Step a s') (hord : s.Ordered a) : s'.Ledger := by
  cases hs with
  | plan hsound => exact h.plan hsound
  | @apply i c hc hphase =>
    have hset : Ledger { s with set := (s.set.apply c.edit).1 } := by
      refine ⟨fun t ht => ?_, h.adds, h.removes, h.own, h.behind, h.listed⟩
      rcases List.mem_append.mp ht with ht | ht
      · rcases List.mem_append.mp ((apply_tables _ _).mem_iff.mp ht) with ht | ht
        · exact h.tables t (List.mem_append_left _ (List.mem_filter.mp ht).1)
        · exact h.adds c (List.mem_of_getElem? hc) _ (List.mem_map_of_mem ht)
      · rcases mem_apply_pending ht with ht | ⟨ht, -⟩
        · exact h.tables t (List.mem_append_right _ ht)
        · exact h.tables t (List.mem_append_left _ ht)
    exact hset.goOn hc (fun _ => by rw [hphase]; rfl) (by rw [hphase]; rfl)
  | store hc hphase => exact h.store hc hphase hord
  | fail hc hphase => exact h.goOn hc (fun hopen => by cases hopen) (by rw [hphase]; rfl)
  | clean hc hphase hk =>
    obtain ⟨⟨closed, files, rfl, -, -⟩, -⟩ := clean_spec hk
    have hclean : Ledger { s with closed := closed, files := files } :=
      ⟨h.tables, h.adds, h.removes, h.own, h.behind, h.listed⟩
    exact hclean.goOn hc (fun hopen => by cases hopen) (by rw [hphase]; rfl)
  | pin => exact ⟨h.tables, h.adds, h.removes, h.own, h.behind, h.listed⟩
  | unpin hj =>
    refine ⟨fun t ht => ?_, h.adds, h.removes, h.own, h.behind, h.listed⟩
    rcases List.mem_append.mp ht with ht | ht
    · exact h.tables t (List.mem_append_left _ (unpin_tables s.set _ ▸ ht))
    · exact h.tables t (List.mem_append_right _ (unpin_pending ht))
  | cleanHold hj hk =>
    obtain ⟨⟨closed, files, rfl, -, -⟩, -⟩ := clean_spec hk
    exact ⟨h.tables, h.adds, h.removes, h.own, h.behind, h.listed⟩

theorem Ledger.new (tables : List Table) (walSeq : UInt64) : (new tables walSeq).Ledger := by
  have hmem : ∀ t ∈ (TableSet.new tables).tables, t.path ∈ tables.map Table.path := fun t ht =>
    List.mem_map_of_mem ((List.mem_insertionSort TableLe).mp ht)
  refine ⟨fun t ht => ?_, nofun, nofun, nofun, ?_, fun m hm => ⟨?_, ?_⟩⟩
  · rcases List.mem_append.mp ht with ht | ht
    · exact hmem t ht
    · cases ht
  · rintro p ⟨c, hc, -⟩
    cases hc
  · obtain ⟨t, ht, rfl⟩ := List.mem_map.mp hm
    exact hmem t ht
  · rintro ⟨c, hc, -⟩
    cases hc

/-! ## The set and the manifest, call by call -/

/-- The paths the calls add. -/
def adding (calls : List Call) : List String := calls.flatMap fun c => c.edit.add.map Table.path

theorem adding_set {calls : List Call} (hc : calls[i]? = some c) :
    adding (calls.set i { c with phase := phase }) = adding calls := by
  obtain ⟨as, bs, hl, hset, -⟩ := exists_split_of_getElem hc
  rw [hset, hl]
  simp only [adding, List.flatMap_append, List.flatMap_cons]

/-- A table of the beginning, or of a call that has come so far. -/
def Entered (init : List Table) (f : Phase → Bool) (calls : List Call) (t : Table) : Prop :=
  t ∈ init ∨ Adds f calls t

/-- **The set is what the applied calls make of the first tables, the
manifest what the stored ones make of them.** -/
structure Follows (init : List Table) (s : Store) : Prop where
  ledger : s.Ledger
  used : s.used = init.map Table.path ++ adding s.calls
  nodup : s.used.Nodup
  removes : ∀ c ∈ s.calls, ∀ p ∈ c.edit.removePath, ∃ t, Entered init isApplied s.calls t ∧ t.path = p
  set : ∀ t, t ∈ s.set.tables ↔ Entered init isApplied s.calls t ∧ ¬ Strikes isApplied s.calls t.path
  manifest : ∀ m, m ∈ s.manifest.tables ↔
    (∃ t, Entered init isStored s.calls t ∧ t.metadata = m) ∧ ¬ Strikes isStored s.calls m.path
  paths : (s.set.tables.map Table.path).Nodup
  listed : (s.manifest.tables.map TableMeta.path).Nodup
  sorted : s.set.tables.Pairwise TableLe
  ordered : s.manifest.tables.Pairwise fun a b => ¬ metaLess b a

section Follows

variable {init : List Table} {f : Phase → Bool} {t : Table}

section

variable (h : s.Follows init)
include h

theorem Follows.used_perm (hc : s.calls[i]? = some c) : s.used.Perm
    (c.edit.add.map Table.path ++ (init.map Table.path ++ adding (s.calls.eraseIdx i))) := by
  obtain ⟨as, bs, hl, -, herase⟩ := exists_split_of_getElem hc
  rw [h.used, herase, hl, adding, adding]
  refine .trans (List.Perm.append_left _ (List.perm_middle.flatMap_right _)) ?_
  exact List.perm_append_comm_assoc ..

theorem Follows.add_nodup (hc : s.calls[i]? = some c) : (c.edit.add.map Table.path).Nodup :=
  (List.nodup_append.mp ((h.used_perm hc).nodup_iff.mp h.nodup)).1

/-- The tables of a call that has not come so far are none of those
entered. -/
theorem Follows.fresh (hc : s.calls[i]? = some c) (hf : f c.phase = false)
    (ht : Entered init f s.calls t) : t.path ∉ c.edit.add.map Table.path := by
  have hdisj := (List.nodup_append.mp ((h.used_perm hc).nodup_iff.mp h.nodup)).2.2
  intro hmem
  refine hdisj _ hmem t.path ?_ rfl
  rcases ht with ht | ht
  · exact List.mem_append_left _ (List.mem_map_of_mem ht)
  · rcases (exists_mem_of_getElem hc _).mp ht with ⟨hc', -⟩ | ⟨x, hx, -, ht⟩
    · rw [hf] at hc'
      cases hc'
    · exact List.mem_append_right _ (List.mem_flatMap.mpr ⟨x, hx, List.mem_map_of_mem ht⟩)

/-- Planning an edit. -/
theorem Follows.plan {e : Edit} (hsound : s.Sound e) :
    Follows init { s with
      calls := s.calls ++ [⟨e, walSeq, .planned⟩]
      files := s.files ++ e.add.map Table.path
      used := s.used ++ e.add.map Table.path } := by
  obtain ⟨hadd, hnew, hthere⟩ := hsound
  refine ⟨h.ledger.plan ⟨hadd, hnew, hthere⟩, ?_, ?_, ?_, ?_, ?_, h.paths, h.listed, h.sorted,
    h.ordered⟩
  · simp only [h.used, adding, List.flatMap_append, List.flatMap_singleton, List.append_assoc]
  · refine List.nodup_append.mpr ⟨h.nodup, hadd, fun p hp q hq hpq => ?_⟩
    exact hnew q hq (hpq ▸ hp)
  · intro x hx p hp
    rcases List.mem_append.mp hx with hx | hx
    · obtain ⟨t, ht, htp⟩ := h.removes x hx p hp
      exact ⟨t, ht.imp_right (adds_plan rfl).mpr, htp⟩
    · obtain rfl := List.mem_singleton.mp hx
      obtain ⟨t, ht, htp⟩ := List.mem_map.mp (hthere p hp)
      exact ⟨t, ((h.set t).mp ht).1.imp_right (adds_plan rfl).mpr, htp⟩
  · intro t
    rw [Entered, adds_plan rfl, strikes_plan rfl]
    exact h.set t
  · intro m
    have hplanned : isStored .planned = false := rfl
    simp only [Entered, adds_plan hplanned, strikes_plan hplanned]
    exact h.manifest m

/-- Going on, where neither the set nor the manifest is edited. -/
theorem Follows.goOn (hc : s.calls[i]? = some c) (hopen : isOpen phase → isOpen c.phase)
    (happlied : isApplied phase = isApplied c.phase) (hstored : isStored phase = isStored c.phase) :
    (s.goOn i c phase).Follows init := by
  refine ⟨h.ledger.goOn hc hopen hstored, ?_, h.nodup, ?_, ?_, ?_, h.paths, h.listed, h.sorted,
    h.ordered⟩
  · rw [goOn_calls, adding_set hc]
    exact h.used
  · intro x hx p hp
    obtain ⟨y, hy, hedit, -⟩ := of_mem_set hc hx
    obtain ⟨t, ht, htp⟩ := h.removes y hy p (hedit ▸ hp)
    exact ⟨t, ht.imp_right (adds_set_same hc happlied).mpr, htp⟩
  · intro t
    rw [goOn_calls, Entered, adds_set_same hc happlied, strikes_set_same hc happlied]
    exact h.set t
  · intro m
    simp only [goOn_calls, Entered, adds_set_same hc hstored, strikes_set_same hc hstored]
    exact h.manifest m

/-- Applying an edit to the set. -/
theorem Follows.apply (hc : s.calls[i]? = some c) (hphase : c.phase = .planned)
    (hnext : Ledger
      ({ s with set := (s.set.apply c.edit).1 }.goOn i c (.applied (s.set.apply c.edit).2))) :
    Follows init
      ({ s with set := (s.set.apply c.edit).1 }.goOn i c (.applied (s.set.apply c.edit).2)) := by
  have hmem : c ∈ s.calls := List.mem_of_getElem? hc
  have hnot : isApplied c.phase = false := by rw [hphase]; rfl
  have hsame : isStored (.applied (s.set.apply c.edit).2) = isStored c.phase := by
    rw [hphase]; rfl
  have hperm := apply_tables s.set c.edit
  -- the tables in the set are none of those the call adds
  have hapart : ∀ t ∈ s.set.tables, t.path ∉ c.edit.add.map Table.path := fun t ht =>
    h.fresh hc hnot ((h.set t).mp ht).1
  refine ⟨hnext, ?_, h.nodup, ?_, fun t => ?_, fun m => ?_, ?_, h.listed, apply_sorted _ _,
    h.ordered⟩
  · rw [goOn_calls, adding_set hc]
    exact h.used
  · intro x hx p hp
    obtain ⟨y, hy, hedit, -⟩ := of_mem_set hc hx
    obtain ⟨t, ht, htp⟩ := h.removes y hy p (hedit ▸ hp)
    refine ⟨t, ht.imp_right fun ht => ?_, htp⟩
    exact (adds_set_new hc rfl hnot).mpr (.inr ht)
  · rw [goOn_calls, Entered, adds_set_new hc rfl hnot, strikes_set_new hc rfl hnot]
    change t ∈ (s.set.apply c.edit).1.tables ↔ _
    rw [hperm.mem_iff, List.mem_append, List.mem_filter, h.set t, decide_eq_true_eq]
    constructor
    · rintro (⟨⟨hent, hstr⟩, hrem⟩ | hadd)
      · exact ⟨hent.imp_right .inr, fun hor => hor.elim hrem hstr⟩
      · have hpath : t.path ∈ c.edit.add.map Table.path := List.mem_map_of_mem hadd
        refine ⟨.inr (.inl hadd), ?_⟩
        rintro (hrem | ⟨x, hx, -, hstr⟩)
        · exact h.ledger.own c hmem _ hrem hpath
        · obtain ⟨u, hu, hup⟩ := h.removes x hx _ hstr
          exact h.fresh hc hnot hu (hup ▸ hpath)
    · rintro ⟨hent, hnor⟩
      obtain ⟨hrem, hstr⟩ := not_or.mp hnor
      rcases hent with hi | hadd | hadds
      · exact .inl ⟨⟨.inl hi, hstr⟩, hrem⟩
      · exact .inr hadd
      · exact .inl ⟨⟨.inr hadds, hstr⟩, hrem⟩
  · simp only [goOn_calls, Entered, adds_set_same hc hsame, strikes_set_same hc hsame]
    exact h.manifest m
  · refine (hperm.map Table.path).nodup_iff.mpr ?_
    rw [List.map_append]
    refine List.nodup_append.mpr
      ⟨h.paths.sublist (List.filter_sublist.map _), h.add_nodup hc, fun p hp q hq hpq => ?_⟩
    obtain ⟨t, ht, rfl⟩ := List.mem_map.mp hp
    exact hapart t (List.mem_filter.mp ht).1 (hpq ▸ hq)

end

theorem edit_nodup {m : Manifest} {w : UInt64} (hm : (m.tables.map TableMeta.path).Nodup)
    (hadd : (add.map TableMeta.path).Nodup) :
    ((m.edit add remove w).tables.map TableMeta.path).Nodup := by
  refine ((List.perm_insertionSort _ _).map TableMeta.path).nodup_iff.mpr ?_
  rw [List.map_append]
  refine List.nodup_append.mpr
    ⟨hm.sublist (List.filter_sublist.map _), hadd, fun p hp q hq hpq => ?_⟩
  obtain ⟨x, hx, rfl⟩ := List.mem_map.mp hp
  obtain ⟨-, hnot⟩ := of_decide_eq_true (List.mem_filter.mp hx).2
  exact hnot (hpq ▸ hq)

theorem not_metaLess_iff (a b : TableMeta) : ¬ metaLess b a ↔ metaRank a ≤ metaRank b := by
  rw [metaLess_iff, not_lt]

theorem edit_sorted {m : Manifest} {w : UInt64} :
    (m.edit add remove w).tables.Pairwise fun a b => ¬ metaLess b a := by
  have : Std.Total fun a b : TableMeta => ¬ (metaLess b a = true) :=
    ⟨fun a b => by rw [not_metaLess_iff, not_metaLess_iff]; exact le_total _ _⟩
  have : IsTrans TableMeta fun a b => ¬ (metaLess b a = true) :=
    ⟨fun a b c hab hbc => by rw [not_metaLess_iff] at *; exact hab.trans hbc⟩
  exact List.pairwise_insertionSort _ _

/-- Editing the manifest. -/
theorem Follows.store {removed : List Table} (h : s.Follows init) (hc : s.calls[i]? = some c)
    (hphase : c.phase = .applied removed) (hnext : Ledger ({ s with
      manifest := s.manifest.edit (c.edit.add.map Table.metadata) c.edit.removePath
        c.walSeq }.goOn i c (.stored (.closing removed removed)))) :
    Follows init ({ s with
      manifest := s.manifest.edit (c.edit.add.map Table.metadata) c.edit.removePath
        c.walSeq }.goOn i c (.stored (.closing removed removed))) := by
  have hnot : isStored c.phase = false := by rw [hphase]; rfl
  have hsame : isApplied (.stored (.closing removed removed)) = isApplied c.phase := by
    rw [hphase]; rfl
  refine ⟨hnext, ?_, h.nodup, ?_, fun t => ?_, fun m => ⟨fun hm => ?_, ?_⟩, h.paths,
    edit_nodup h.listed ?_, h.sorted, ?_⟩
  · rw [goOn_calls, adding_set hc]
    exact h.used
  · intro x hx p hp
    obtain ⟨y, hy, hedit, -⟩ := of_mem_set hc hx
    obtain ⟨t, ht, htp⟩ := h.removes y hy p (hedit ▸ hp)
    exact ⟨t, ht.imp_right (adds_set_same hc hsame).mpr, htp⟩
  · rw [goOn_calls, Entered, adds_set_same hc hsame, strikes_set_same hc hsame]
    exact h.set t
  · refine ⟨?_, (hnext.listed m hm).2⟩
    rcases mem_edit.mp hm with ⟨hm, -⟩ | hm
    · obtain ⟨⟨t, ht, rfl⟩, -⟩ := (h.manifest m).mp hm
      exact ⟨t, ht.imp_right fun ht => (adds_set_new hc rfl hnot).mpr (.inr ht), rfl⟩
    · obtain ⟨t, ht, rfl⟩ := List.mem_map.mp hm
      exact ⟨t, .inr ((adds_set_new hc rfl hnot).mpr (.inl ht)), rfl⟩
  · rintro ⟨⟨t, ht, rfl⟩, hstr⟩
    rw [goOn_calls, strikes_set_new hc rfl hnot] at hstr
    obtain ⟨hrem, hstr⟩ := not_or.mp hstr
    refine mem_edit.mpr ?_
    rw [map_metadata_path]
    -- what was entered before has none of the paths the call adds
    have hold : Entered init isStored s.calls t →
        t.metadata ∈ s.manifest.tables ∧ t.metadata.path ∉ c.edit.removePath ∧
          t.metadata.path ∉ c.edit.add.map Table.path := fun hent =>
      ⟨(h.manifest _).mpr ⟨⟨t, hent, rfl⟩, hstr⟩, hrem, h.fresh hc hnot hent⟩
    rcases ht with ht | ht
    · exact .inl (hold (.inl ht))
    · rcases (adds_set_new hc rfl hnot).mp ht with ht | ht
      · exact .inr (List.mem_map_of_mem ht)
      · exact .inl (hold (.inr ht))
  · rw [map_metadata_path]
    exact h.add_nodup hc
  · exact edit_sorted

/-- **Every step in order keeps the correspondence.** -/
theorem Follows.step (h : s.Follows init) (hs : s.Step a s') (hord : s.Ordered a) :
    s'.Follows init := by
  have hnext := h.ledger.step hs hord
  cases hs with
  | plan hsound => exact h.plan hsound
  | apply hc hphase => exact h.apply hc hphase hnext
  | store hc hphase => exact h.store hc hphase hnext
  | fail hc hphase =>
    exact h.goOn hc (fun hopen => by cases hopen) (by rw [hphase]; rfl) (by rw [hphase]; rfl)
  | clean hc hphase hk =>
    obtain ⟨⟨closed, files, rfl, -, -⟩, -⟩ := clean_spec hk
    have hclean : Follows init { s with closed := closed, files := files } :=
      ⟨⟨h.ledger.tables, h.ledger.adds, h.ledger.removes, h.ledger.own, h.ledger.behind,
        h.ledger.listed⟩, h.used, h.nodup, h.removes, h.set, h.manifest, h.paths, h.listed,
        h.sorted, h.ordered⟩
    exact hclean.goOn hc (fun hopen => by cases hopen) (by rw [hphase]; rfl) (by rw [hphase]; rfl)
  | pin =>
    exact ⟨hnext, h.used, h.nodup, h.removes, h.set, h.manifest, h.paths, h.listed, h.sorted,
      h.ordered⟩
  | unpin hj =>
    refine ⟨hnext, h.used, h.nodup, h.removes, ?_, h.manifest, ?_, h.listed, ?_, h.ordered⟩
    all_goals
      simp only [unpin_tables]
    · exact h.set
    · exact h.paths
    · exact h.sorted
  | cleanHold hj hk =>
    obtain ⟨⟨closed, files, rfl, -, -⟩, -⟩ := clean_spec hk
    exact ⟨hnext, h.used, h.nodup, h.removes, h.set, h.manifest, h.paths, h.listed, h.sorted,
      h.ordered⟩

theorem Follows.new {tables : List Table} (h : (tables.map Table.path).Nodup) (walSeq : UInt64) :
    (new tables walSeq).Follows tables := by
  have hperm : (TableSet.new tables).tables.Perm tables := List.perm_insertionSort TableLe _
  have hnodup : ((TableSet.new tables).tables.map Table.path).Nodup :=
    (hperm.map Table.path).nodup_iff.mpr h
  have hsorted : (TableSet.new tables).tables.Pairwise TableLe :=
    List.pairwise_insertionSort TableLe _
  have hnone : ∀ (P : Call → Prop), ¬ ∃ c ∈ (Store.new tables walSeq).calls, P c := by
    rintro P ⟨c, hc, -⟩
    cases hc
  refine ⟨.new tables walSeq, (List.append_nil _).symm, h, nofun, fun t => ?_, fun m => ?_, hnodup,
    ?_, hsorted, List.pairwise_map.mpr hsorted⟩
  · exact hperm.mem_iff.trans ⟨fun ht => ⟨.inl ht, hnone _⟩,
      fun ht => ht.1.elim id fun hadds => absurd hadds (hnone _)⟩
  · refine List.mem_map.trans ⟨?_, ?_⟩
    · rintro ⟨t, ht, rfl⟩
      exact ⟨⟨t, .inl (hperm.mem_iff.mp ht), rfl⟩, hnone _⟩
    · rintro ⟨⟨t, ht | hadds, rfl⟩, -⟩
      · exact ⟨t, hperm.mem_iff.mpr ht, rfl⟩
      · exact absurd hadds (hnone _)
  · change ((TableSet.new tables).tables.map Table.metadata |>.map TableMeta.path).Nodup
    rw [map_metadata_path]
    exact hnodup

/-- Every call has returned, and without an error. -/
def Returned (s : Store) : Prop := ∀ c ∈ s.calls, c.phase = .stored (.removing [])

/-- Once every call has stored the manifest, it lists the set. -/
theorem Follows.snapshot (h : s.Follows init) (hret : s.Returned) :
    s.manifest.tables = s.set.snapshot := by
  -- being applied and being stored come to the same
  have hphase : ∀ c ∈ s.calls, isApplied c.phase = isStored c.phase := fun c hc => by
    rw [hret c hc]
    rfl
  have hadds : ∀ t, Adds isStored s.calls t ↔ Adds isApplied s.calls t := fun t =>
    exists_congr fun c => and_congr_right fun hc => by rw [hphase c hc]
  have hstrikes : ∀ p, Strikes isStored s.calls p ↔ Strikes isApplied s.calls p := fun p =>
    exists_congr fun c => and_congr_right fun hc => by rw [hphase c hc]
  have hmem : ∀ m, m ∈ s.manifest.tables ↔ m ∈ s.set.tables.map Table.metadata := by
    intro m
    simp only [h.manifest, List.mem_map, h.set, Entered, hadds, hstrikes]
    constructor
    · rintro ⟨⟨t, ht, rfl⟩, hstr⟩
      exact ⟨t, ⟨ht, hstr⟩, rfl⟩
    · rintro ⟨t, ⟨ht, hstr⟩, rfl⟩
      exact ⟨⟨t, ht, rfl⟩, hstr⟩
  have hnodup : (s.set.tables.map Table.metadata).Nodup := by
    refine .of_map TableMeta.path ?_
    rw [map_metadata_path]
    exact h.paths
  have hperm : s.manifest.tables.Perm (s.set.tables.map Table.metadata) :=
    (List.perm_ext_iff_of_nodup (h.listed.of_map _) hnodup).mpr hmem
  refine hperm.eq_of_pairwise (fun a b ha hb hab hba => ?_) h.ordered
    (List.pairwise_map.mpr h.sorted)
  -- equal ranks are equal paths, and a path is listed once
  have hrank := le_antisymm ((not_metaLess_iff a b).mp hab) ((not_metaLess_iff b a).mp hba)
  have hpath : a.path = b.path := congrArg (fun r => (ofLex r).2) hrank
  exact List.inj_on_of_nodup_map h.listed ha (hperm.mem_iff.mpr hb) hpath

end Follows

/-! ## The manifest lists the set -/

/-- **Where no call overtakes the one whose table it removes, the manifest
lists exactly the set**, in its order, once all calls have returned. -/
theorem manifest_lists_set {tables : List Table} (hnodup : (tables.map Table.path).Nodup)
    (walSeq : UInt64) (as : List Event) (hord : Along act Ordered (new tables walSeq) as)
    (hrun : runs act (new tables walSeq) as = some s) (hret : s.Returned) :
    s.manifest.tables = s.set.snapshot := by
  have hinv : s.Follows tables :=
    runs_induction (fun s a s' h ha hact => h.step (step_of_act hact) ha)
      (Follows.new hnodup walSeq) hrun hord
  exact hinv.snapshot hret

/-- The first table, the one a flush adds, and the one a compaction merges
both into. -/
def first : Table := single "a" ⟨[1], [1], false, 1⟩

def flushed : Table := single "b" ⟨[1], [2], false, 2⟩

def merged : Table := Table.of (single "c" ⟨[1], [2], false, 2⟩).handle 1

/-- A flush, and then a compaction of both tables. -/
def flushThenCompact : List Event :=
  [.plan ⟨[flushed], []⟩ 2, .apply 0, .store 0 true, .clean 0,
    .plan ⟨[merged], ["a", "b"]⟩ 0, .apply 1, .store 1 true,
    .clean 1, .clean 1, .clean 1, .clean 1, .clean 1]

theorem flushThenCompact_isSome :
    (runs act (new [first] 1) flushThenCompact).isSome := by decide +kernel

theorem manifest_lists_set_compacted :
    let s := (runs act (new [first] 1) flushThenCompact).get flushThenCompact_isSome
    s.manifest.tables = s.set.snapshot ∧ s.set.tables = [merged] := by
  have hnodup : ([first].map Table.path).Nodup := List.nodup_singleton _
  have hord : Along act Ordered (new [first] 1) flushThenCompact :=
    along_of_check (by decide +kernel)
  have hrun := (Option.some_get flushThenCompact_isSome).symm
  exact ⟨manifest_lists_set hnodup 1 flushThenCompact hord hrun (by unfold Returned; decide +kernel),
    by decide +kernel⟩

/-- The compaction is planned once the set has the flushed table, and
edits the manifest before the flush does. -/
def compactOvertakes : List Event :=
  [.plan ⟨[flushed], []⟩ 2, .apply 0, .plan ⟨[merged], ["a", "b"]⟩ 0, .apply 1, .store 1 true,
    .store 0 true, .clean 0, .clean 1, .clean 1, .clean 1, .clean 1, .clean 1]

theorem compactOvertakes_isSome :
    (runs act (new [first] 1) compactOvertakes).isSome := by decide +kernel

/-- **The manifest lists a table that is not in the set, and whose file is
gone**, though every call has returned without an error. -/
theorem overtaken_manifest_lists_removed :
    ∃ s, runs act (new [first] 1) compactOvertakes = some s ∧ s.Returned ∧
      s.manifest.tables ≠ s.set.snapshot ∧ s.set.tables = [merged] ∧
      s.manifest.tables = [flushed.metadata, merged.metadata] ∧ flushed.path ∉ s.files := by
  refine ⟨_, (Option.some_get compactOvertakes_isSome).symm, ?_⟩
  unfold Returned
  decide +kernel

end Store

end LSMEngine.Tables
