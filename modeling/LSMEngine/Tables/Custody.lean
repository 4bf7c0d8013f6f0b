import LSMEngine.Tables.Edits
import LSMEngine.Tables.Pins
/-!
# Tables — a store accounts for its pins

Calls of `Apply` and callers that pin tables, step by step, do nothing to
the set but what the accounts know: a call edits it once, a caller pins
and unpins once. So a store is a refinement of the accounts
(`Custody.step`), and what is closed has been handed out: a table that a
caller holds has an open handle, in every state (`held_open`).
-/

namespace LSMEngine.Tables

namespace Store

variable {s s' : Store} {a : Event} {c : Call} {i j : ℕ} {p : String} {A : Accounts}

/-- What the callers hold that have not let go. -/
def held (holds : List Hold) : List (List Table) :=
  holds.filterMap fun
    | .holding tables => some tables
    | .released _ => none

theorem held_append (as bs : List Hold) : held (as ++ bs) = held as ++ held bs :=
  List.filterMap_append

/-- The calls that have not edited the set. -/
def planned (calls : List Call) : List Call := calls.filter fun c => !isApplied c.phase

/-- What a call has been handed. -/
def callOut : Phase → List String
  | .applied removed => removed.map Table.path
  | .stored k => cleanupPaths k
  | _ => []

/-- What a caller has been handed. -/
def holdOut : Hold → List String
  | .holding _ => []
  | .released k => cleanupPaths k

/-- **The store keeps these accounts.** What is closed, and what a call or
a caller is to close, was handed out. -/
structure Custody (s : Store) (A : Accounts) : Prop where
  set : A.set = s.set
  held : A.held = held s.holds
  nodup : (A.used ++ adding (planned s.calls)).Nodup
  used : ∀ p ∈ A.used ++ adding (planned s.calls), p ∈ s.used
  closed : ∀ p ∈ s.closed, p ∈ A.handed.map Table.path
  calls : ∀ c ∈ s.calls, ∀ p ∈ callOut c.phase, p ∈ A.handed.map Table.path
  holds : ∀ h ∈ s.holds, ∀ p ∈ holdOut h, p ∈ A.handed.map Table.path

theorem mem_cleanupPaths_closing {ts : List Table} :
    p ∈ cleanupPaths (.closing ts ts) ↔ p ∈ ts.map Table.path := by
  rw [cleanupPaths, List.map_append, List.mem_append, or_self]

theorem planned_set {calls : List Call} {phase : Phase} (hc : calls[i]? = some c)
    (happlied : isApplied c.phase) (hphase : isApplied phase) :
    planned (calls.set i { c with phase := phase }) = planned calls := by
  obtain ⟨as, bs, hl, hset, -⟩ := exists_split_of_getElem hc
  rw [hset, hl]
  simp [planned, List.filter_append, happlied, hphase]

section

variable (h : Custody s A)
include h

/-- Going on after the set is edited. -/
theorem Custody.goOn {phase : Phase} (hc : s.calls[i]? = some c) (happlied : isApplied c.phase)
    (hphase : isApplied phase) (hout : ∀ p ∈ callOut phase, p ∈ A.handed.map Table.path) :
    Custody (s.goOn i c phase) A := by
  have hplanned := planned_set hc happlied hphase
  refine ⟨h.set, h.held, ?_, ?_, h.closed, ?_, h.holds⟩
  · rw [goOn_calls, hplanned]
    exact h.nodup
  · rw [goOn_calls, hplanned]
    exact h.used
  · intro x hx
    rcases List.mem_or_eq_of_mem_set hx with hx | rfl
    · exact h.calls x hx
    · exact hout

/-- A step of a cleanup of what is handed out. -/
theorem Custody.clean {k k' : Cleanup} {s₁ : Store} (hk : s.clean k = some (s₁, k'))
    (hout : ∀ p ∈ cleanupPaths k, p ∈ A.handed.map Table.path) :
    Custody s₁ A ∧ s₁.calls = s.calls ∧ s₁.holds = s.holds ∧
      ∀ p ∈ cleanupPaths k', p ∈ A.handed.map Table.path := by
  obtain ⟨⟨closed, files, rfl, hclosed, -⟩, hpaths⟩ := clean_spec hk
  refine ⟨⟨h.set, h.held, h.nodup, h.used, fun p hp => ?_, h.calls, h.holds⟩, rfl, rfl,
    fun p hp => hout p (hpaths p hp)⟩
  exact (hclosed p hp).elim (h.closed p) (hout p)

/-- Planning an edit. -/
theorem Custody.plan {e : Edit} {walSeq : UInt64} (hsound : s.Sound e) :
    Custody { s with
      calls := s.calls ++ [⟨e, walSeq, .planned⟩]
      files := s.files ++ e.add.map Table.path
      used := s.used ++ e.add.map Table.path } A := by
  obtain ⟨hadd, hnew, -⟩ := hsound
  have hplanned : planned (s.calls ++ [⟨e, walSeq, .planned⟩]) =
      planned s.calls ++ [⟨e, walSeq, .planned⟩] := by
    simp [planned, isApplied]
  have hall : A.used ++ adding (planned (s.calls ++ [⟨e, walSeq, .planned⟩])) =
      (A.used ++ adding (planned s.calls)) ++ e.add.map Table.path := by
    rw [hplanned]
    simp only [adding, List.flatMap_append, List.flatMap_singleton, List.append_assoc]
  refine ⟨h.set, h.held, ?_, ?_, h.closed, ?_, h.holds⟩
  · rw [hall]
    refine List.nodup_append.mpr ⟨h.nodup, hadd, fun p hp q hq hpq => ?_⟩
    exact hnew q hq (h.used q (hpq ▸ hp))
  · rw [hall]
    intro p hp
    rcases List.mem_append.mp hp with hp | hp
    · exact List.mem_append_left _ (h.used p hp)
    · exact List.mem_append_right _ hp
  · intro x hx
    rcases List.mem_append.mp hx with hx | hx
    · exact h.calls x hx
    · rw [List.mem_singleton.mp hx]
      exact fun p hp => absurd hp List.not_mem_nil

/-- A call edits the set: so do the accounts. -/
theorem Custody.apply (hc : s.calls[i]? = some c) (hphase : c.phase = .planned) :
    ∃ A', A.act (.apply c.edit) = some A' ∧ Custody
      ({ s with set := (s.set.apply c.edit).1 }.goOn i c (.applied (s.set.apply c.edit).2)) A' := by
  obtain ⟨as, bs, hl, hset, -⟩ := exists_split_of_getElem hc
  have hbefore : planned s.calls = planned as ++ c :: planned bs := by
    simp [hl, planned, List.filter_append, hphase, isApplied]
  have hafter : planned
      (s.calls.set i { c with phase := .applied (s.set.apply c.edit).2 }) =
        planned as ++ planned bs := by
    simp [hset, planned, List.filter_append, isApplied]
  -- the paths of the call move from the planned ones to the used ones
  have hperm : (A.used ++ adding (planned s.calls)).Perm
      ((A.used ++ c.edit.add.map Table.path) ++ adding (planned as ++ planned bs)) := by
    rw [hbefore, List.append_assoc]
    refine List.Perm.append_left _ ?_
    exact List.perm_middle.flatMap_right _
  have hnodup := hperm.nodup_iff.mp h.nodup
  have hnew : Accounts.NewPaths A.used c.edit := by
    obtain ⟨-, hadd, hdisj⟩ := List.nodup_append.mp (List.nodup_append.mp hnodup).1
    exact ⟨hadd, fun p hp hin => hdisj p hin p hp rfl⟩
  have hmore : ∀ p ∈ A.handed.map Table.path,
      p ∈ (A.handed ++ (A.set.apply c.edit).2).map Table.path := by
    intro p hp
    rw [List.map_append]
    exact List.mem_append_left _ hp
  refine ⟨_, if_pos hnew, congrArg (fun set => (set.apply c.edit).1) h.set, h.held, ?_, ?_,
    fun p hp => hmore p (h.closed p hp), ?_, fun x hx p hp => hmore p (h.holds x hx p hp)⟩
  · rw [goOn_calls, hafter]
    exact hnodup
  · rw [goOn_calls, hafter]
    exact fun p hp => h.used p (hperm.mem_iff.mpr hp)
  · intro x hx p hp
    rcases List.mem_or_eq_of_mem_set hx with hx | rfl
    · exact hmore p (h.calls x hx p hp)
    · obtain ⟨t, ht, rfl⟩ := List.mem_map.mp hp
      rw [← h.set] at ht
      exact List.mem_map_of_mem (List.mem_append_right _ ht)

/-- A caller lets go: so do the accounts. -/
theorem Custody.unpin {tables : List Table} (hj : s.holds[j]? = some (.holding tables)) :
    ∃ n A', A.act (.unpin n) = some A' ∧ Custody
      { s with
        set := (s.set.unpin (tables.map Table.path)).1
        holds := s.holds.set j
          (.released (.closing (s.set.unpin (tables.map Table.path)).2
            (s.set.unpin (tables.map Table.path)).2)) } A' := by
  obtain ⟨as, bs, hl, hset, -⟩ := exists_split_of_getElem hj
  have hheld : A.held = Store.held as ++ tables :: Store.held bs := by
    rw [h.held, hl, held_append]
    rfl
  have hget : A.held[(Store.held as).length]? = some tables := by
    rw [hheld, List.getElem?_append_right (le_refl _), Nat.sub_self, List.getElem?_cons_zero]
  have hmore : ∀ p ∈ A.handed.map Table.path,
      p ∈ (A.handed ++ (A.set.unpin (tables.map Table.path)).2).map Table.path := by
    intro p hp
    rw [List.map_append]
    exact List.mem_append_left _ hp
  refine ⟨(Store.held as).length,
    { A with
      set := (A.set.unpin (tables.map Table.path)).1
      held := A.held.eraseIdx (Store.held as).length
      handed := A.handed ++ (A.set.unpin (tables.map Table.path)).2 },
    by rw [Accounts.act, hget]; rfl, ?_, ?_, h.nodup, h.used, fun p hp => hmore p (h.closed p hp),
    fun x hx p hp => hmore p (h.calls x hx p hp), ?_⟩
  · exact congrArg (fun set => (set.unpin (tables.map Table.path)).1) h.set
  · change A.held.eraseIdx _ = Store.held (s.holds.set j _)
    rw [hset, hheld, List.eraseIdx_append_of_length_le (le_refl _), Nat.sub_self,
      List.eraseIdx_cons_zero, held_append]
    rfl
  · intro x hx p hp
    rcases List.mem_or_eq_of_mem_set hx with hx | rfl
    · exact hmore p (h.holds x hx p hp)
    · obtain ⟨t, ht, rfl⟩ := List.mem_map.mp (mem_cleanupPaths_closing.mp hp)
      rw [← h.set] at ht
      exact List.mem_map_of_mem (List.mem_append_right _ ht)

/-- **Every step of the store is at most one call of the accounts.** -/
theorem Custody.step (hs : s.Step a s') :
    ∃ bs A', runs Accounts.act A bs = some A' ∧ Custody s' A' := by
  -- the accounts take a step for an edit, a pin and an unpin, and none for the rest
  cases hs with
  | plan hsound => exact ⟨[], A, rfl, h.plan hsound⟩
  | apply hc hphase =>
    obtain ⟨A', hact, hA'⟩ := h.apply hc hphase
    exact ⟨[_], A', by rw [runs, hact]; rfl, hA'⟩
  | @store i c removed hc hphase =>
    have hgo : Custody (s.goOn i c (.stored (.closing removed removed))) A := by
      refine h.goOn hc (by rw [hphase]; rfl) rfl fun p hp => ?_
      refine h.calls c (List.mem_of_getElem? hc) p ?_
      rw [hphase]
      exact mem_cleanupPaths_closing.mp hp
    exact ⟨[], A, rfl, hgo.set, hgo.held, hgo.nodup, hgo.used, hgo.closed, hgo.calls, hgo.holds⟩
  | fail hc hphase => exact ⟨[], A, rfl, h.goOn hc (by rw [hphase]; rfl) rfl
      fun p hp => absurd hp List.not_mem_nil⟩
  | @clean i c k k' s₁ hc hphase hk =>
    have hout := h.calls c (List.mem_of_getElem? hc)
    rw [hphase] at hout
    obtain ⟨hs₁, hcalls, -, hpaths⟩ := h.clean hk hout
    exact ⟨[], A, rfl, hs₁.goOn (hcalls ▸ hc) (by rw [hphase]; rfl) rfl hpaths⟩
  | pin =>
    refine ⟨[.pin], _, rfl, ?_, ?_, h.nodup, h.used, h.closed, h.calls, ?_⟩
    · exact congrArg (fun set => set.snapshotAndPin.2) h.set
    · change A.held ++ [A.set.tables] = Store.held (s.holds ++ [_])
      rw [h.held, h.set, held_append]
      rfl
    · intro x hx
      rcases List.mem_append.mp hx with hx | hx
      · exact h.holds x hx
      · rw [List.mem_singleton.mp hx]
        exact fun p hp => absurd hp List.not_mem_nil
  | unpin hj =>
    obtain ⟨n, A', hact, hA'⟩ := h.unpin hj
    exact ⟨[.unpin n], A', by rw [runs, hact]; rfl, hA'⟩
  | @cleanHold j k k' s₁ hj hk =>
    obtain ⟨hs₁, -, hholds, hpaths⟩ := h.clean hk (h.holds _ (List.mem_of_getElem? hj))
    refine ⟨[], A, rfl, hs₁.set, ?_, hs₁.nodup, hs₁.used, hs₁.closed, hs₁.calls, ?_⟩
    · obtain ⟨as, bs, hl, hset, -⟩ := exists_split_of_getElem (hholds ▸ hj)
      change A.held = Store.held (s₁.holds.set j _)
      rw [hset, hs₁.held, hl, held_append, held_append]
      rfl
    · intro x hx
      rcases List.mem_or_eq_of_mem_set hx with hx | rfl
      · exact hs₁.holds x hx
      · exact hpaths

end

theorem custody_new {tables : List Table} (h : (tables.map Table.path).Nodup) (walSeq : UInt64) :
    Custody (new tables walSeq) (.new tables) := by
  have happ : (tables.map Table.path ++ adding (planned [])).Nodup := by
    rw [planned, List.filter_nil, adding, List.flatMap_nil, List.append_nil]
    exact h
  refine ⟨rfl, rfl, happ, fun p hp => ?_, fun p hp => absurd hp List.not_mem_nil,
    fun c hc => absurd hc List.not_mem_nil, fun x hx => absurd hx List.not_mem_nil⟩
  exact (List.mem_append.mp hp).elim id fun hp => absurd hp List.not_mem_nil

/-- **A table that a caller holds has an open handle**, in every state of
every run. -/
theorem held_open {tables : List Table} (hnodup : (tables.map Table.path).Nodup) {walSeq : UInt64}
    {as : List Event} (hrun : runs act (new tables walSeq) as = some s) {ts : List Table}
    (hj : s.holds[j]? = some (.holding ts)) {t : Table} (ht : t ∈ ts) : t.path ∉ s.closed := by
  obtain ⟨bs, A, hA, hcustody⟩ := runs_simulation
    (fun s A a s' h hact => h.step (step_of_act hact)) (custody_new hnodup walSeq) hrun
  have hbal := balanced_of_run hnodup hA
  intro hclosed
  obtain ⟨u, hu, hpath⟩ := List.mem_map.mp (hcustody.closed _ hclosed)
  have hfree : A.set.pinned t.path = 0 := hpath ▸ hbal.handed u hu
  have hheld : 0 < A.set.pinned t.path := by
    refine hbal.pinned_pos.mpr ⟨ts, ?_, List.mem_map_of_mem ht⟩
    rw [hcustody.held]
    exact List.mem_filterMap.mpr ⟨_, List.mem_of_getElem? hj, rfl⟩
  omega

end Store

end LSMEngine.Tables
