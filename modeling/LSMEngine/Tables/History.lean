import LSMEngine.Tables.Planner
import LSMEngine.Tables.Set
/-!
# Tables — read order along a history

Flushes and compactions keep the tables levelled, however they
interleave: a flush does not disturb the choice a compaction under way
has made, and the result of a compaction is still a table of that
choice's entries when it is applied. So in every state a history leads
to, the table that comes first in read order has the newer version of a
key (`read_order_is_version_order`).
-/

namespace LSMEngine.Tables

variable {fileSize : List Entry → UInt64} {drop drops : Bool} {s s' : State} {ts ins : List Table}
variable {now : ℕ}

/-! ## The set -/

theorem indexed_of_mem {s : TableSet} (h : Levelled s.tables) {t : Table} (ht : t ∈ s.tables) :
    s.indexed t.path = some t := by
  unfold TableSet.indexed
  cases hfind : s.tables.reverse.find? (fun u => decide (u.path = t.path)) with
  | none =>
    rw [List.find?_eq_none] at hfind
    exact absurd (hfind t (List.mem_reverse.mpr ht)) (by simp)
  | some u =>
    have hu := List.mem_reverse.mp (List.mem_of_find?_eq_some hfind)
    have hpath : u.path = t.path := by simpa using List.find?_some hfind
    rw [h.eq_of_path hu ht hpath]

/-- Tables of the set are resolved. -/
theorem resolve_of_mem {s : TableSet} (h : Levelled s.tables) (hins : ∀ t ∈ ins, t ∈ s.tables) :
    s.resolve (ins.map Table.metadata) = .ok (ins.map Table.handle) := by
  induction ins with
  | nil => rfl
  | cons t ins ih =>
    have hidx : s.indexed t.metadata.path = some t :=
      indexed_of_mem h (hins t List.mem_cons_self)
    simp only [List.map_cons, TableSet.resolve, hidx]
    rw [ih fun u hu => hins u (List.mem_cons_of_mem t hu)]
    rfl

/-! ## What a history keeps -/

/-- A path made no later than the clock. -/
def Named (clock : ℕ) (path : String) : Prop := ∃ seq now, path = tableName seq now ∧ now ≤ clock

theorem Named.mono {clock clock' : ℕ} {path : String} (h : Named clock path)
    (hle : clock ≤ clock') : Named clock' path := by
  obtain ⟨seq, now, rfl, hnow⟩ := h
  exact ⟨seq, now, rfl, hnow.trans hle⟩

/-- A later name is a new one. -/
theorem Named.ne {clock seq : ℕ} {path : String} (h : Named clock path) (hlt : clock < now) :
    path ≠ tableName seq now := by
  rintro rfl
  obtain ⟨seq', now', heq, hle⟩ := h
  have := tableName_inj heq
  omega

/-- What the compaction under way holds is still true of the tables. -/
def JobOk (drops : Bool) (ts : List Table) (clock : ℕ) : Job → Prop
  | .idle => True
  | .planned plan => ∃ ins l, Chosen ts ins l ∧ plan.inputs = ins.map Table.metadata ∧
      plan.outputLevel = l + 1
  | .ran r => ∃ ins l, Chosen ts ins l ∧ r.obsolete = ins.map Table.metadata ∧
      r.outputLevel = l + 1 ∧ Merged drops (ins.map Table.handle) r.output ∧
      r.output.length ≤ 1 ∧ ∀ o ∈ r.output, Named clock o.path ∧ o.path ∉ ts.map Table.path

/-- The invariant of a history; `drops` says whether a compaction under
way may have dropped tombstones. -/
structure Inv (drops : Bool) (s : State) : Prop where
  sorted : s.set.tables.Pairwise TableLe
  levelled : Levelled s.set.tables
  named : ∀ t ∈ s.set.tables, Named s.clock t.path
  job : JobOk drops s.set.tables s.clock s.job

theorem inv_init (drops : Bool) : Inv drops State.init := by
  have hnil : State.init.set.tables = [] := rfl
  refine ⟨?_, ⟨?_, ?_, ?_, ?_, ?_⟩, ?_, trivial⟩ <;> simp [hnil]

theorem Merged.mono {ins out : List SSTable} (h : Merged drop ins out) (hle : drop → drops) :
    Merged drops ins out := by
  refine ⟨h.held, h.newest, fun k hk => ?_⟩
  obtain ⟨e, he, hor⟩ := h.kept k hk
  exact ⟨e, he, hor.imp_right fun hd => ⟨hd.1, hle hd.2⟩⟩

theorem JobOk.mono {clock clock' : ℕ} {job : Job} (h : JobOk drops ts clock job)
    (hle : clock ≤ clock') : JobOk drops ts clock' job := by
  cases job with
  | idle => trivial
  | planned plan => exact h
  | ran r =>
    obtain ⟨ins, l, hc, hob, hlevel, hm, hone, hout⟩ := h
    exact ⟨ins, l, hc, hob, hlevel, hm, hone, fun o ho => ⟨(hout o ho).1.mono hle, (hout o ho).2⟩⟩

theorem Inv.tick (h : Inv drops s) (hle : s.clock ≤ now) : Inv drops { s with clock := now } :=
  ⟨h.sorted, h.levelled, fun t ht => (h.named t ht).mono hle, h.job.mono hle⟩

theorem Inv.abandon (h : Inv drops s) : Inv drops { s with job := .idle } :=
  ⟨h.sorted, h.levelled, h.named, trivial⟩

theorem install_tables (s : State) (t : SSTable) :
    (s.install t).set.tables.Perm (s.set.tables ++ [Table.of t 0]) := by
  refine (apply_tables s.set _).trans (.of_eq ?_)
  simp

/-- **A flush keeps the invariant.** -/
theorem Inv.install (h : Inv drops s) {t : SSTable} (hnamed : Named s.clock t.path)
    (hpath : t.path ∉ s.set.tables.map Table.path)
    (hout : ∀ r, s.job = .ran r → ∀ o ∈ r.output, o.path ≠ t.path)
    (hfresh : Fresh s.set.tables t.entries) : Inv drops (s.install t) := by
  have hperm := install_tables s t
  refine ⟨apply_sorted s.set _, (h.levelled.install hpath hfresh).perm hperm, ?_, ?_⟩
  · intro u hu
    rcases List.mem_append.mp (hperm.mem_iff.mp hu) with hu | hu
    · exact h.named u hu
    · rw [List.mem_singleton.mp hu]
      exact hnamed
  · have hjob := h.job
    change JobOk drops _ s.clock s.job
    cases hj : s.job with
    | idle => trivial
    | planned plan =>
      rw [hj] at hjob
      obtain ⟨ins, l, hc, hin, hlevel⟩ := hjob
      exact ⟨ins, l, (hc.install hfresh).perm hperm, hin, hlevel⟩
    | ran r =>
      rw [hj] at hjob
      obtain ⟨ins, l, hc, hob, hlevel, hm, hone, hpaths⟩ := hjob
      refine ⟨ins, l, (hc.install hfresh).perm hperm, hob, hlevel, hm, hone, ?_⟩
      intro o ho
      refine ⟨(hpaths o ho).1, fun hin => ?_⟩
      rw [(hperm.map Table.path).mem_iff, List.map_append, List.mem_append] at hin
      rcases hin with hin | hin
      · exact (hpaths o ho).2 hin
      · exact hout r hj o ho (List.mem_singleton.mp hin)

/-- What planning does. -/
theorem plan_eq_some {p : StrictLevelledPlanner} (h : s.plan p = some s') :
    ∃ plan, s.job = .idle ∧ p.next (stateFromMetas s.set.snapshot) = some plan ∧
      s' = { s with job := .planned plan } := by
  unfold State.plan at h
  split at h
  · next plan hjob hnext => exact ⟨plan, hjob, hnext, (Option.some.inj h).symm⟩
  · cases h

theorem Inv.plan (h : Inv drops s) {p : StrictLevelledPlanner} (hs : s.plan p = some s') :
    Inv drops s' := by
  obtain ⟨plan, -, hnext, rfl⟩ := plan_eq_some hs
  exact ⟨h.sorted, h.levelled, h.named, chosen_of_next h.levelled hnext⟩

/-- What merging does. -/
theorem merge_cases (hs : s.merge fileSize drop now = some s') :
    s.clock < now ∧ ∃ plan, s.job = .planned plan ∧
      (s' = { s with job := .idle, clock := now } ∨
        ∃ handles r, s.set.resolve plan.inputs = .ok handles ∧
          run fileSize drop now plan handles = .ok r ∧
          s' = { s with job := .ran r, clock := now }) := by
  unfold State.merge at hs
  split at hs
  · next plan hjob =>
    split at hs
    · next hclock =>
      refine ⟨hclock, plan, hjob, ?_⟩
      cases hres : s.set.resolve plan.inputs with
      | error e =>
        simp only [hres, bind, Except.bind] at hs
        exact .inl (Option.some.inj hs).symm
      | ok handles =>
        simp only [hres, bind, Except.bind] at hs
        split at hs
        · next r hr => exact .inr ⟨handles, r, rfl, hr, (Option.some.inj hs).symm⟩
        · exact .inl (Option.some.inj hs).symm
    · cases hs
  · cases hs

/-- What merging does: the inputs are in the set, so only the merge
itself counts. -/
theorem merge_eq_some (h : Inv drops s) (hs : s.merge fileSize drop now = some s') :
    s.clock < now ∧ (s' = { s with job := .idle, clock := now } ∨
      ∃ plan ins l r, s.job = .planned plan ∧ Chosen s.set.tables ins l ∧
        plan.inputs = ins.map Table.metadata ∧ plan.outputLevel = l + 1 ∧
        run fileSize drop now plan (ins.map Table.handle) = .ok r ∧
        s' = { s with job := .ran r, clock := now }) := by
  obtain ⟨hclock, plan, hjob, hcases⟩ := merge_cases hs
  refine ⟨hclock, hcases.imp_right ?_⟩
  rintro ⟨handles, r, hres, hr, rfl⟩
  have hok := h.job
  rw [hjob] at hok
  obtain ⟨ins, l, hc, hin, hlevel⟩ := hok
  rw [hin, resolve_of_mem h.levelled hc.mem] at hres
  obtain rfl := Except.ok.inj hres
  exact ⟨plan, ins, l, r, hjob, hc, hin, hlevel, hr, rfl⟩

theorem Inv.merge (h : Inv drops s) (hdrop : drop → drops)
    (hs : s.merge fileSize drop now = some s') : Inv drops s' := by
  obtain ⟨hclock, rfl | ⟨plan, ins, l, r, -, hc, hin, hlevel, hr, rfl⟩⟩ := merge_eq_some h hs
  · exact (h.tick (le_of_lt hclock)).abandon
  · have hne : plan.inputs ≠ [] := by
      rw [hin]
      exact fun hnil => hc.nonempty (List.map_eq_nil_iff.mp hnil)
    obtain ⟨hob, hout, hm, -⟩ := run_ok hne hr
    obtain ⟨hone, hpath⟩ := run_output hr
    refine ⟨h.sorted, h.levelled, (h.tick (le_of_lt hclock)).named, ?_⟩
    refine ⟨ins, l, hc, hob.trans hin, hout.trans hlevel, hm.mono hdrop, hone, ?_⟩
    intro o ho
    obtain ⟨seq, hseq⟩ := hpath o ho
    refine ⟨⟨seq, now, hseq, le_rfl⟩, ?_⟩
    -- the time of the merge is past every table's
    intro hmem
    obtain ⟨t, ht, htp⟩ := List.mem_map.mp hmem
    exact (h.named t ht).ne hclock (htp.trans hseq)

theorem commit_eq_some (hs : s.commit = some s') :
    ∃ r, s.job = .ran r ∧ s' = { s with set := (s.set.apply r.edit).1, job := .idle } := by
  unfold State.commit at hs
  split at hs
  · next r hjob => exact ⟨r, hjob, (Option.some.inj hs).symm⟩
  · cases hs

/-- The tables once a result is applied. -/
theorem edit_tables {l : ℕ} {r : Result} (s : TableSet) (hob : r.obsolete = ins.map Table.metadata)
    (hlevel : r.outputLevel = l + 1) : (s.apply r.edit).1.tables.Perm
      (without s.tables ins ++ r.output.map fun o => Table.of o (l + 1)) := by
  refine (apply_tables s r.edit).trans (.of_eq ?_)
  rw [Result.edit, hob, hlevel, without]

theorem Inv.commit (h : Inv drops s) (hs : s.commit = some s') : Inv drops s' := by
  obtain ⟨r, hjob, rfl⟩ := commit_eq_some hs
  have hok := h.job
  rw [hjob] at hok
  obtain ⟨ins, l, hc, hob, hlevel, hm, hone, hpaths⟩ := hok
  have hperm := edit_tables s.set hob hlevel
  have hfrom : ∀ o ∈ r.output, ∀ e ∈ o.entries, ∃ i ∈ ins, e ∈ i.handle.entries := by
    intro o ho e he
    obtain ⟨t, ht, het⟩ := hm.held o ho e he
    obtain ⟨i, hi, rfl⟩ := List.mem_map.mp ht
    exact ⟨i, hi, het⟩
  have hlev := h.levelled.compact hc hfrom hone fun o ho => (hpaths o ho).2
  refine ⟨apply_sorted s.set _, hlev.perm hperm, ?_, trivial⟩
  intro t ht
  rcases List.mem_append.mp (hperm.mem_iff.mp ht) with ht | ht
  · exact h.named t (List.filter_sublist.mem ht)
  · obtain ⟨o, ho, rfl⟩ := List.mem_map.mp ht
    exact (hpaths o ho).1

/-- What a flush of entries does. -/
theorem flush_eq_some {es : List Entry} (hs : s.act fileSize (.flush now es) = some s') :
    s.clock < now ∧ Fresh s.set.tables es ∧ ∃ t, flush fileSize now es = .ok t ∧
      s' = { s.install t with clock := now } := by
  simp only [State.act] at hs
  split at hs
  · next hguard =>
    split at hs
    · next t ht => exact ⟨hguard.1, hguard.2.2, t, ht, (Option.some.inj hs).symm⟩
    · cases hs
  · cases hs

theorem Inv.flush (h : Inv drops s) {es : List Entry}
    (hs : s.act fileSize (.flush now es) = some s') : Inv drops s' := by
  obtain ⟨hclock, hfresh, t, ht, rfl⟩ := flush_eq_some hs
  obtain ⟨hperm, seq, hpath⟩ := flush_ok ht
  refine (h.tick (le_of_lt hclock)).install ⟨seq, now, hpath, le_rfl⟩ ?_ ?_ ?_
  · intro hmem
    obtain ⟨u, hu, hup⟩ := List.mem_map.mp hmem
    exact (h.named u hu).ne hclock (hup.trans hpath)
  · intro r hjob o ho heq
    have hok := h.job
    rw [show s.job = .ran r from hjob] at hok
    obtain ⟨-, -, -, -, -, -, -, hpaths⟩ := hok
    exact (hpaths o ho).1.ne hclock (heq.trans hpath)
  · intro u hu d hd e he
    exact hfresh u hu d hd e (hperm.mem_iff.mp he)

/-- **One action keeps the invariant.** -/
theorem Inv.act (h : Inv drops s) {a : Action} (hdrop : ∀ d now, a = .merge d now → d → drops)
    (hs : s.act fileSize a = some s') : Inv drops s' := by
  cases a with
  | flush now es => exact h.flush hs
  | plan p => exact h.plan hs
  | merge d now => exact h.merge (hdrop d now rfl) hs
  | commit => exact h.commit hs
  | abandon =>
    obtain rfl := Option.some.inj hs
    exact h.abandon

/-- **So does every history.** -/
theorem Inv.acts (h : Inv true s) {as : List Action} (hs : s.acts fileSize as = some s') :
    Inv true s' :=
  runs_invariant (fun _ _ _ h hact => h.act (fun _ _ _ _ => rfl) hact) h hs

theorem inv_of_reachable (h : s.Reachable fileSize) : Inv true s := by
  obtain ⟨as, has⟩ := h
  exact (inv_init true).acts has

/-- **Read order is version order.** In every state flushes and
compactions lead to, of two tables that have a key the one that is read
first has its newer version. -/
theorem read_order_is_version_order (h : s.Reachable fileSize) :
    s.set.tables.Pairwise fun t u => ∀ k v w,
      t.handle.get k = some v → u.handle.get k = some w → w.seq < v.seq :=
  (inv_of_reachable h).levelled.versions_ordered (inv_of_reachable h).sorted

/-- Two flushes around a compaction that was planned before the second
of them, and another one after it. -/
def interleaved : List Action :=
  [.flush 1 [⟨[1], [10], false, 1⟩, ⟨[2], [20], false, 2⟩], .plan ⟨1, 0, 0⟩,
    .flush 2 [⟨[1], [], true, 3⟩], .merge false 3, .commit, .flush 4 [⟨[2], [21], false, 4⟩]]

theorem interleaved_isSome : (State.init.acts (fun _ => 0) interleaved).isSome := by
  decide +kernel

/-- They leave three tables, in version order. -/
theorem interleaved_version_order :
    ((State.init.acts (fun _ => 0) interleaved).get interleaved_isSome).set.tables.length = 3 ∧
      ((State.init.acts (fun _ => 0) interleaved).get interleaved_isSome).set.tables.Pairwise
        fun t u => ∀ k v w, t.handle.get k = some v → u.handle.get k = some w → w.seq < v.seq :=
  ⟨by decide +kernel,
    read_order_is_version_order ⟨interleaved, (Option.some_get interleaved_isSome).symm⟩⟩

end LSMEngine.Tables
