import LSMEngine.Engine.Model.Reads
import LSMEngine.Tables.Custody
/-!
# Engine — reads beside compactions

A compaction changes which tables there are, and not what is to be seen
in them. `GetContext` holds the tables it reads, so their handles stay
open and it sees what there was to be seen. `Get` does not: a table of
its list can be closed before it comes to it, and it takes the failed
read for absence. Where it reads no closed table (`Opened`), it sees the
same (`read_visible`).
-/

namespace LSMEngine.Engine

open Tables (Table Store)

namespace Scene

variable {kind : ReadKind} {k : Bytes} {s s' : Scene} {a : Event}

/-! ## What the tables and the read have to do -/

/-- The tables change without a change to be seen under the key. -/
def Keeps (k : Bytes) (s : Scene) : Event → Prop
  | .tables (.apply i) => ∀ c ∈ s.store.calls[i]?,
      shown (Tables.search (s.store.set.apply c.edit).1.tables k) =
        shown (Tables.search s.store.set.tables k)
  | _ => True

instance (k : Bytes) (s : Scene) (a : Event) : Decidable (s.Keeps k a) :=
  match a with
  | .tables (.apply _) => inferInstanceAs (Decidable (∀ _, _))
  | .step | .tables (.plan ..) | .tables (.store ..) | .tables (.clean _) | .tables .pin
  | .tables (.unpin _) | .tables (.cleanHold _) => inferInstanceAs (Decidable True)

/-- The table that is read next. -/
def next : Reader → Option Table
  | .reading rest _ => rest.head?
  | _ => none

/-- The condition on a step of `Get`: the table it reads is not closed. -/
def Opened (kind : ReadKind) (s : Scene) : Event → Prop
  | .step => kind = .get → ∀ t ∈ next s.reader, t.path ∉ s.store.closed
  | .tables _ => True

instance (kind : ReadKind) (s : Scene) (a : Event) : Decidable (s.Opened kind a) :=
  match a with
  | .step => inferInstanceAs (Decidable (_ → ∀ _, _))
  | .tables _ => inferInstanceAs (Decidable True)

/-! ## Steps of a read -/

/-- **The outcomes of a step of the read.** -/
inductive ReaderStep (kind : ReadKind) (k : Bytes) (s : Scene) : Scene → Prop
  | found {e : Entry} (hreader : s.reader = .idle) (he : s.searchMems k = some e) :
      ReaderStep kind k s { s with reader := .done (.ok (shown (some e))) }
  | miss (hreader : s.reader = .idle) (hnone : s.searchMems k = none) (hkind : kind = .get) :
      ReaderStep kind k s { s with reader := .missed }
  | pin {store : Store} (hreader : s.reader = .idle) (hnone : s.searchMems k = none)
      (hstore : s.store.act .pin = some store) :
      ReaderStep kind k s
        { s with
          store := store
          reader := .reading s.store.set.tables (some s.store.holds.length) }
  | list (hreader : s.reader = .missed) :
      ReaderStep kind k s { s with reader := .reading s.store.set.tables none }
  | finish {hold : Option ℕ} (hreader : s.reader = .reading [] hold) :
      ReaderStep kind k s { s with reader := .done (.ok none) }
  | hit {t : Table} {rest : List Table} {hold : Option ℕ} {e : Entry}
      (hreader : s.reader = .reading (t :: rest) hold) (he : t.handle.get k = some e) :
      ReaderStep kind k s { s with reader := .done (.ok (shown (some e))) }
  | pass {t : Table} {rest : List Table} {hold : Option ℕ}
      (hreader : s.reader = .reading (t :: rest) hold)
      (hnone : t.path ∉ s.store.closed → t.handle.get k = none) :
      ReaderStep kind k s { s with reader := .reading rest hold }
  | fail {t : Table} {rest : List Table} {hold : Option ℕ}
      (hreader : s.reader = .reading (t :: rest) hold) (hclosed : t.path ∈ s.store.closed) :
      ReaderStep kind k s { s with reader := .done (.error .closed) }

theorem readerStep_of (hs : s.stepReader kind k = some s') : s.ReaderStep kind k s' := by
  unfold stepReader at hs
  split at hs
  · next hreader =>
    split at hs
    · next e he =>
      obtain rfl := Option.some.inj hs
      exact .found hreader he
    · next hnone =>
      obtain rfl := Option.some.inj hs
      exact .miss hreader hnone rfl
    · next hnone =>
      obtain ⟨store, hstore, rfl⟩ := Option.map_eq_some_iff.mp hs
      exact .pin hreader hnone hstore
  · next hreader =>
    obtain rfl := Option.some.inj hs
    exact .list hreader
  · next hold hreader =>
    obtain rfl := Option.some.inj hs
    exact .finish hreader
  · next t rest hold hreader =>
    unfold readTable at hs
    by_cases hclosed : t.path ∈ s.store.closed
    · rw [if_pos hclosed] at hs
      split at hs
      · next heq => cases heq
      · next heq => cases heq
      · obtain rfl := Option.some.inj hs
        exact .pass hreader fun hopen => absurd hclosed hopen
      · next heq =>
        obtain rfl := Option.some.inj hs
        obtain rfl := Except.error.inj heq
        exact .fail hreader hclosed
    · rw [if_neg hclosed] at hs
      split at hs
      · next e he =>
        obtain rfl := Option.some.inj hs
        exact .hit hreader (Except.ok.inj he)
      · next he =>
        obtain rfl := Option.some.inj hs
        exact .pass hreader fun _ => Except.ok.inj he
      · next heq => cases heq
      · next heq => cases heq
  · cases hs

/-- A read that has not returned can go on. -/
theorem stepReader_isSome (kind : ReadKind) (k : Bytes) (h : ∀ r, s.reader ≠ .done r) :
    (s.stepReader kind k).isSome := by
  unfold stepReader
  split
  · split <;> rfl
  · rfl
  · rfl
  · split <;> rfl
  · next r hreader => exact absurd hreader (h r)

/-- How many steps a read has before it at most. -/
def left (s : Scene) : ℕ :=
  match s.reader with
  | .idle => s.store.set.tables.length + 3
  | .missed => s.store.set.tables.length + 2
  | .reading rest _ => rest.length + 1
  | .done _ => 0

theorem ReaderStep.left_lt (hs : s.ReaderStep kind k s') : s'.left < s.left := by
  cases hs with
  | found hreader he => simp [left, hreader]
  | miss hreader hnone hkind => simp [left, hreader]
  | pin hreader hnone hstore => simp [left, hreader]
  | list hreader => simp [left, hreader]
  | finish hreader => simp [left, hreader]
  | hit hreader he => simp [left, hreader]
  | pass hreader hnone => simp [left, hreader]
  | fail hreader hclosed => simp [left, hreader]

/-- **A read comes to its end** in a bounded number of its own steps. -/
theorem read_ends (kind : ReadKind) (k : Bytes) (s : Scene) :
    ∃ n s' r, n ≤ s.left ∧ runs (act kind k) s (List.replicate n .step) = some s' ∧
      s'.reader = .done r := by
  induction hleft : s.left using Nat.strong_induction_on generalizing s with
  | h m ih =>
    by_cases hdone : ∃ r, s.reader = .done r
    · obtain ⟨r, hr⟩ := hdone
      exact ⟨0, s, r, Nat.zero_le _, rfl, hr⟩
    · obtain ⟨s₁, hs₁⟩ := Option.isSome_iff_exists.mp
        (stepReader_isSome kind k fun r hr => hdone ⟨r, hr⟩)
      have hlt := (readerStep_of hs₁).left_lt
      obtain ⟨n, s', r, hn, hrun, hr⟩ := ih s₁.left (by omega) s₁ rfl
      refine ⟨n + 1, s', r, by omega, ?_, hr⟩
      rw [List.replicate_succ, runs, act, hs₁]
      exact hrun

/-! ## What a read keeps -/

/-- The tables still to be read show what there was to be seen, and what
`GetContext` reads it holds. -/
structure Sees (kind : ReadKind) (k : Bytes) (w : Option Entry) (s : Scene) (rest : List Table)
    (hold : Option ℕ) : Prop where
  missed : s.searchMems k = none
  shows : shown (Tables.search rest k) = w
  holding : kind = .getContext → ∃ j ts, hold = some j ∧ s.store.holds[j]? = some (.holding ts) ∧
    ∀ t ∈ rest, t ∈ ts

/-- **What holds while the read goes on**, `w` being what the tables show
and `v` what there is to be seen. -/
structure Reads (kind : ReadKind) (k : Bytes) (v w : Option Entry) (s : Scene) : Prop where
  tables : shown (Tables.search s.store.set.tables k) = w
  found : ∀ e, s.searchMems k = some e → v = shown (some e)
  absent : s.searchMems k = none → v = w
  missed : s.reader = .missed → s.searchMems k = none ∧ kind = .get
  reading : ∀ rest hold, s.reader = .reading rest hold → Sees kind k w s rest hold
  done : ∀ r, s.reader = .done r → r = .ok v

/-- Before the read. -/
theorem reads_idle (h : s.reader = .idle) :
    Reads kind k (s.visible k) (shown (Tables.search s.store.set.tables k)) s := by
  refine ⟨rfl, fun e he => ?_, fun hnone => ?_, ?_, ?_, ?_⟩
  · rw [visible, he, Option.some_or]
  · rw [visible, hnone, Option.none_or]
  all_goals
    simp [h]

/-- The tables change under the read, and keep what it holds. -/
theorem Reads.tables_step {v w : Option Entry} {b : Store.Event} {store : Store}
    (h : Reads kind k v w s) (hkeeps : s.Keeps k (.tables b)) (howns : ¬ s.Owns b)
    (hs : s.store.Step b store) : Reads kind k v w { s with store := store } := by
  have hset : shown (Tables.search store.set.tables k) = w := by
    rw [← h.tables]
    cases hs with
    | @apply i c hc hphase => exact hkeeps c hc
    | unpin hj => rw [Tables.unpin_tables]
    | clean hc hphase hk =>
      obtain ⟨⟨closed, files, rfl, -, -⟩, -⟩ := Store.clean_spec hk
      rfl
    | cleanHold hj hk =>
      obtain ⟨⟨closed, files, rfl, -, -⟩, -⟩ := Store.clean_spec hk
      rfl
    | _ => rfl
  -- a hold changes only by its own caller
  have hholds : ∀ j ts, s.reader.hold = some j → s.store.holds[j]? = some (.holding ts) →
      store.holds[j]? = some (.holding ts) := by
    intro j ts hown hj
    cases hs with
    | pin => exact (List.getElem?_append_left (List.getElem?_eq_some_iff.mp hj).1).trans hj
    | @unpin j' tables hj' =>
      have hne : j' ≠ j := fun heq => howns (heq ▸ hown)
      exact (List.getElem?_set_ne hne).trans hj
    | clean hc hphase hk =>
      obtain ⟨⟨closed, files, rfl, -, -⟩, -⟩ := Store.clean_spec hk
      exact hj
    | @cleanHold j' _ _ _ hj' hk =>
      obtain ⟨⟨closed, files, rfl, -, -⟩, -⟩ := Store.clean_spec hk
      have hne : j' ≠ j := by
        rintro rfl
        rw [hj] at hj'
        cases hj'
      exact (List.getElem?_set_ne hne).trans hj
    | _ => exact hj
  refine ⟨hset, h.found, h.absent, h.missed, fun rest hold hreader => ?_, h.done⟩
  have hsees := h.reading rest hold hreader
  refine ⟨hsees.missed, hsees.shows, fun hkind => ?_⟩
  obtain ⟨j, ts, rfl, hj, hmem⟩ := hsees.holding hkind
  exact ⟨j, ts, rfl, hholds j ts (by rw [hreader]; rfl) hj, hmem⟩

/-- The tables that are held are open. -/
def HeldOpen (s : Scene) : Prop :=
  ∀ (j : ℕ) (ts : List Table), s.store.holds[j]? = some (.holding ts) →
    ∀ t ∈ ts, t.path ∉ s.store.closed

/-- A table that is read has its handle open. -/
theorem Reads.open_next {v w : Option Entry} {t : Table} {rest : List Table} {hold : Option ℕ}
    (h : Reads kind k v w s) (hopen : s.Opened kind .step) (hheld : s.HeldOpen)
    (hreader : s.reader = .reading (t :: rest) hold) : t.path ∉ s.store.closed := by
  cases kind with
  | get =>
    refine hopen rfl t ?_
    rw [hreader]
    exact rfl
  | getContext =>
    obtain ⟨j, ts, -, hj, hmem⟩ := (h.reading _ _ hreader).holding rfl
    exact hheld j ts hj t (hmem t List.mem_cons_self)

theorem search_cons (t : Table) (rest : List Table) (k : Bytes) :
    Tables.search (t :: rest) k = (t.handle.get k).or (Tables.search rest k) := by
  rw [Tables.search, List.findSome?_cons]
  cases t.handle.get k <;> rfl

/-- The read goes on. -/
theorem Reads.reader_step {v w : Option Entry} (h : Reads kind k v w s)
    (hopen : s.Opened kind .step) (hheld : s.HeldOpen) (hs : s.ReaderStep kind k s') :
    Reads kind k v w s' := by
  cases hs with
  | @found e hreader he =>
    refine ⟨h.tables, h.found, h.absent, nofun, nofun, ?_⟩
    rintro r ⟨⟩
    rw [h.found e he]
  | miss hreader hnone hkind =>
    exact ⟨h.tables, h.found, h.absent, fun _ => ⟨hnone, hkind⟩, nofun, nofun⟩
  | pin hreader hnone hstore =>
    obtain rfl := Option.some.inj hstore
    refine ⟨h.tables, h.found, h.absent, nofun, ?_, nofun⟩
    rintro rest hold ⟨⟩
    refine ⟨hnone, h.tables, fun _ => ⟨_, s.store.set.tables, rfl, ?_, fun t ht => ht⟩⟩
    exact List.getElem?_concat_length
  | list hreader =>
    obtain ⟨hnone, hkind⟩ := h.missed hreader
    refine ⟨h.tables, h.found, h.absent, nofun, ?_, nofun⟩
    rintro rest hold ⟨⟩
    exact ⟨hnone, h.tables, fun hctx => by rw [hkind] at hctx; cases hctx⟩
  | finish hreader =>
    have hsees := h.reading _ _ hreader
    refine ⟨h.tables, h.found, h.absent, nofun, nofun, ?_⟩
    rintro r ⟨⟩
    rw [h.absent hsees.missed, ← hsees.shows]
    rfl
  | hit hreader he =>
    have hsees := h.reading _ _ hreader
    refine ⟨h.tables, h.found, h.absent, nofun, nofun, ?_⟩
    rintro r ⟨⟩
    rw [h.absent hsees.missed, ← hsees.shows, search_cons, he, Option.some_or]
  | @pass t rest hold hreader hnone =>
    have hsees := h.reading _ _ hreader
    have hnone := hnone (h.open_next hopen hheld hreader)
    refine ⟨h.tables, h.found, h.absent, nofun, ?_, nofun⟩
    rintro rest' hold' ⟨⟩
    refine ⟨hsees.missed, ?_, fun hctx => ?_⟩
    · rw [← hsees.shows, search_cons, hnone, Option.none_or]
    · obtain ⟨j, ts, hhold, hj, hmem⟩ := hsees.holding hctx
      exact ⟨j, ts, hhold, hj, fun u hu => hmem u (List.mem_cons_of_mem t hu)⟩
  | fail hreader hclosed => exact absurd hclosed (h.open_next hopen hheld hreader)

/-! ## Runs -/

/-- The tables of a scene have a run of their own. -/
def Reached (tables : List Table) (walSeq : UInt64) (s : Scene) : Prop :=
  ∃ as, runs Store.act (.new tables walSeq) as = some s.store

theorem Reached.act {tables : List Table} {walSeq : UInt64} (h : Reached tables walSeq s)
    (hs : s.act kind k a = some s') : Reached tables walSeq s' := by
  obtain ⟨as, has⟩ := h
  -- the store takes one step, or none
  have hstore : s'.store = s.store ∨ ∃ b, s.store.act b = some s'.store := by
    cases a with
    | step =>
      cases readerStep_of hs with
      | pin hreader hnone hstore => exact .inr ⟨.pin, hstore⟩
      | _ => exact .inl rfl
    | tables b =>
      simp only [Scene.act] at hs
      split at hs
      · cases hs
      · obtain ⟨store, hb, rfl⟩ := Option.map_eq_some_iff.mp hs
        exact .inr ⟨b, hb⟩
  rcases hstore with hsame | ⟨b, hb⟩
  · exact ⟨as, has.trans (congrArg some hsame.symm)⟩
  · refine ⟨as ++ [b], ?_⟩
    rw [runs_append, has, Option.bind_some, runs, hb]
    rfl

theorem Reached.heldOpen {tables : List Table} {walSeq : UInt64}
    (hnodup : (tables.map Table.path).Nodup) (h : Reached tables walSeq s) : s.HeldOpen := by
  obtain ⟨as, has⟩ := h
  exact fun j ts hj t ht => Store.held_open hnodup has hj ht

/-- **A read beside compactions returns what there was to be seen when it
began**, if no table that `Get` reads is closed, and it does return. -/
theorem read_visible {tables : List Table} (hnodup : (tables.map Table.path).Nodup)
    {walSeq : UInt64} {mems : List Memtable} {as bs : List Event} {s₁ s₂ : Scene}
    (h₁ : runs (act kind k) ⟨.new tables walSeq, mems, .idle⟩ as = some s₁)
    (hidle : s₁.reader = .idle) (h₂ : runs (act kind k) s₁ bs = some s₂)
    (hkeeps : Along (act kind k) (Keeps k) s₁ bs)
    (hopened : Along (act kind k) (Opened kind) s₁ bs) :
    (∀ r, s₂.reader = .done r → r = .ok (s₁.visible k)) ∧
      ∃ n s₃ r, runs (act kind k) s₂ (List.replicate n .step) = some s₃ ∧ s₃.reader = .done r := by
  have hreached : Reached tables walSeq s₁ :=
    runs_invariant (fun s a s' h hs => h.act hs) ⟨[], rfl⟩ h₁
  have hreads : Reached tables walSeq s₂ ∧ Reads kind k (s₁.visible k)
      (shown (Tables.search s₁.store.set.tables k)) s₂ := by
    refine runs_induction (P := fun s => Reached tables walSeq s ∧ Reads kind k (s₁.visible k)
      (shown (Tables.search s₁.store.set.tables k)) s) (fun s a s' h ha hs => ⟨h.1.act hs, ?_⟩)
      ⟨hreached, reads_idle hidle⟩ h₂ (hkeeps.and hopened)
    cases a with
    | step => exact h.2.reader_step ha.2 (h.1.heldOpen hnodup) (readerStep_of hs)
    | tables b =>
      simp only [Scene.act] at hs
      split at hs
      · cases hs
      · next howns =>
        obtain ⟨store, hb, rfl⟩ := Option.map_eq_some_iff.mp hs
        exact h.2.tables_step ha.1 howns (Store.step_of_act hb)
  obtain ⟨n, s₃, r, -, hrun, hr⟩ := read_ends kind k s₂
  exact ⟨hreads.2.done, n, s₃, r, hrun, hr⟩

/-- The table `a` as a compaction writes it again. -/
def rewritten : Table := Table.of (Tables.single "c" ⟨[1], [1], false, 1⟩).handle 1

/-- One table, and a read about to begin. -/
def begun : Scene := ⟨.new [Tables.single "a" ⟨[1], [1], false, 1⟩] 1, [], .idle⟩

/-- A compaction that replaces the table and closes it. -/
def compacted : List Event :=
  [.tables (.plan ⟨[rewritten], ["a"]⟩ 0), .tables (.apply 0), .tables (.store 0 true),
    .tables (.clean 0)]

/-- `GetContext` has pinned the table when the compaction begins. -/
def acrossGetContext : List Event := .step :: compacted ++ [.step]

theorem acrossGetContext_isSome :
    (runs (act .getContext [1]) begun acrossGetContext).isSome := by decide +kernel

theorem read_visible_getContext :
    ∃ s, runs (act .getContext [1]) begun acrossGetContext = some s ∧
      s.reader = .done (.ok (begun.visible [1])) ∧
      begun.visible [1] = some ⟨[1], [1], false, 1⟩ := by
  refine ⟨_, (Option.some_get acrossGetContext_isSome).symm, ?_, by decide +kernel⟩
  have hreader : ((runs (act .getContext [1]) begun acrossGetContext).get
      acrossGetContext_isSome).reader = .done (.ok (some ⟨[1], [1], false, 1⟩)) := by decide +kernel
  have hnodup : ([Tables.single "a" ⟨[1], [1], false, 1⟩].map Table.path).Nodup :=
    List.nodup_singleton _
  have hinit : runs (act .getContext [1]) ⟨.new [Tables.single "a" ⟨[1], [1], false, 1⟩] 1, [],
      .idle⟩ [] = some begun := rfl
  have h := read_visible hnodup hinit rfl (Option.some_get acrossGetContext_isSome).symm
    (along_of_check (by decide +kernel)) (along_of_check (by decide +kernel))
  exact hreader.trans (congrArg Reader.done (h.1 _ hreader))

/-- `Get` has its list of tables when the compaction begins. -/
def acrossGet : List Event := [.step, .step] ++ compacted ++ [.step, .step]

theorem acrossGet_isSome : (runs (act .get [1]) begun acrossGet).isSome := by decide +kernel

/-- **`Get` loses a key to a compaction** that changes nothing to be seen. -/
theorem get_loses_key :
    ∃ s, runs (act .get [1]) begun acrossGet = some s ∧
      Along (act .get [1]) (Keeps [1]) begun acrossGet ∧ s.reader = .done (.ok none) ∧
      begun.visible [1] = some ⟨[1], [1], false, 1⟩ := by
  refine ⟨_, (Option.some_get acrossGet_isSome).symm, along_of_check (by decide +kernel), ?_⟩
  decide +kernel

end Scene

end LSMEngine.Engine
