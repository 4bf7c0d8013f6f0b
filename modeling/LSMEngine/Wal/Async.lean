import LSMEngine.Wal.Faults
import LSMEngine.Wal.Model.Async
/-!
# WAL — the answers of an async log

Who owes a reply: a request is in the queue, in the hands of the writer
or answered, in the order in which the requests were sent
(`State.held`), and a step moves requests along this line without
losing or doubling one.

The writer leaves its drain when it finds the queue empty, or when a
batch fails. Requests that are queued then are never answered: one that
is sent afterwards by a call that had read the flag before `Close` set
it, and those behind a failed batch. A terminated writer has answered
every request if and only if neither happened (`answered_iff`).
-/

namespace LSMEngine.Wal

namespace Async

variable {s s' : State} {a : Step} {i : ℕ}

/-! ## Requests -/

/-- A call that has sent its request. -/
def Call.sent : Call → Bool
  | .waiting | .answered _ => true
  | .checked _ | .refused => false

/-- The calls that have. -/
def State.Sent (s : State) (i : ℕ) : Prop := ∃ c, s.calls[i]? = some c ∧ c.sent = true

/-- The requests in the hands of the writer. -/
def Writer.owed : Writer → List ℕ
  | .collect batch | .process batch _ | .drain batch => batch.map Request.call
  | .reply rest _ _ => rest.map Prod.fst
  | .select | .abort _ | .finish | .respond _ | .leave | .done => []

/-- The requests sent so far, the answered ones first. -/
def State.held (s : State) : List ℕ :=
  s.replies.map Prod.fst ++ (s.writer.owed ++ s.reqCh.map Request.call)

/-- The writer takes nothing from the queue any more. -/
def Writer.past : Writer → Bool
  | .process _ .last | .reply _ _ .last | .reply _ (some _) .drain => true
  | .abort _ | .finish | .respond _ | .leave | .done => true
  | .select | .collect _ | .process _ _ | .reply _ _ _ | .drain _ => false

/-- The writer is about to fail with a full batch of its drain. -/
def State.drainFails (s : State) : Bool :=
  match s.writer with
  | .process batch .drain => (processBatch (batch.map Request.entry) false s.world).2.1.isSome
  | _ => false

/-- Every request has its one reply, and nobody waits for another. -/
structure State.Answered (s : State) : Prop where
  queue : s.reqCh = []
  waiting : ∀ i, s.calls[i]? = some .waiting → ∃ told, (i, told) ∈ s.replies
  once : ∀ i, s.Sent i → (s.replies.map Prod.fst).count i = 1

/-- No request comes too late: none is sent once the writer takes
nothing any more, and none is queued where a batch of the drain fails. -/
def orderly (s : State) : Step → Bool
  | .send _ => !s.writer.past
  | .advance => !s.drainFails || s.reqCh.isEmpty
  | _ => true

/-! ## The line of requests -/

theorem length_appendBatch (es : List Entry) (w : World) :
    (appendBatch es w).1.length = es.length := by
  induction es generalizing w with
  | nil => rfl
  | cons e es ih =>
    rw [appendBatch]
    split
    · exact congrArg (· + 1) (ih _)
    · split
      · exact List.length_map _
      · exact congrArg (· + 1) (ih _)

/-- Every request of a batch is told something. -/
theorem map_fst_zip_errs (batch : List Request) (syncNow : Bool) (w : World) :
    ((batch.map Request.call).zip
      (processBatch (batch.map Request.entry) syncNow w).1.errs).map Prod.fst =
        batch.map Request.call := by
  refine List.map_fst_zip ?_
  simp only [processBatch, List.length_map, length_appendBatch, le_refl]

theorem owed_afterBatch (fatal : Option Err) (caller : Caller) :
    (afterBatch fatal caller).owed = [] := by
  cases fatal <;> cases caller <;> rfl

/-- What the writer does in one step: it takes the request at the head of
the queue, it works on what it has, or it gives a reply. -/
theorem advance_cases (h : s.advance = some s') :
    (∃ req, s.reqCh = req :: s'.reqCh ∧ s'.replies = s.replies ∧
      s'.writer.owed = s.writer.owed ++ [req.call]) ∨
    (s'.reqCh = s.reqCh ∧ s'.replies = s.replies ∧ s'.writer.owed = s.writer.owed) ∨
    ∃ told, s'.reqCh = s.reqCh ∧ s'.replies = s.replies ++ [told] ∧
      s.writer.owed = told.1 :: s'.writer.owed := by
  cases hw : s.writer with
  | select => simp only [State.advance, hw, reduceCtorEq] at h
  | done => simp only [State.advance, hw, reduceCtorEq] at h
  | collect batch =>
    simp only [State.advance, hw] at h
    -- it collects while there is room in the batch and something queued
    split at h
    · split at h
      · next req queue hq =>
        obtain rfl := Option.some.inj h
        exact .inl ⟨req, hq, rfl, List.map_append⟩
      · obtain rfl := Option.some.inj h
        exact .inr (.inl ⟨rfl, rfl, rfl⟩)
    · obtain rfl := Option.some.inj h
      exact .inr (.inl ⟨rfl, rfl, rfl⟩)
  | process batch caller =>
    simp only [State.advance, hw] at h
    obtain rfl := Option.some.inj h
    -- a processed batch is owed its replies
    exact .inr (.inl ⟨rfl, rfl, map_fst_zip_errs _ _ _⟩)
  | reply rest fatal caller =>
    cases rest with
    | nil =>
      simp only [State.advance, hw] at h
      obtain rfl := Option.some.inj h
      exact .inr (.inl ⟨rfl, rfl, owed_afterBatch fatal caller⟩)
    | cons told rest =>
      simp only [State.advance, hw] at h
      obtain rfl := Option.some.inj h
      exact .inr (.inr ⟨told, rfl, rfl, rfl⟩)
  | drain pending =>
    simp only [State.advance, hw] at h
    split at h
    · next req queue hq =>
      split at h <;> obtain rfl := Option.some.inj h
      all_goals exact .inl ⟨req, hq, rfl, List.map_append⟩
    · split at h
      · next hp =>
        obtain rfl := Option.some.inj h
        exact .inr (.inl ⟨rfl, rfl, by rw [hp]; rfl⟩)
      · obtain rfl := Option.some.inj h
        exact .inr (.inl ⟨rfl, rfl, rfl⟩)
  | abort err | finish | respond answer | leave =>
    simp only [State.advance, hw] at h
    obtain rfl := Option.some.inj h
    exact .inr (.inl ⟨rfl, rfl, rfl⟩)

/-- The line of requests is kept by the writer. -/
theorem advance_held (h : s.advance = some s') : s'.held = s.held := by
  unfold State.held
  rcases advance_cases h with ⟨req, hq, hr, ho⟩ | ⟨hq, hr, ho⟩ | ⟨told, hq, hr, ho⟩
  · rw [hq, hr, ho, List.map_cons, List.append_assoc, List.singleton_append]
  · rw [hq, hr, ho]
  · rw [hq, hr, ho, List.map_append, List.map_singleton, List.append_assoc,
      List.singleton_append, List.cons_append]

/-- It leaves the calls alone. -/
theorem advance_calls (h : s.advance = some s') : s'.calls = s.calls := by
  unfold State.advance at h
  repeat' split at h
  all_goals first | cases h; done | obtain rfl := Option.some.inj h; rfl

/-! ## Leaving the drain -/

/-- The replies still to give do not matter. -/
theorem past_reply (rest rest' : List (ℕ × Option Err)) (fatal : Option Err) (caller : Caller) :
    (Writer.reply rest fatal caller).past = (Writer.reply rest' fatal caller).past := by
  cases caller <;> cases fatal <;> rfl

/-- A writer that takes nothing any more goes on so. -/
theorem advance_of_past (hpast : s.writer.past = true) (h : s.advance = some s') :
    s'.writer.past = true ∧ s'.reqCh = s.reqCh := by
  cases hw : s.writer with
  | select | collect batch | drain pending => rw [hw] at hpast; cases hpast
  | process batch caller =>
    simp only [State.advance, hw] at h
    obtain rfl := Option.some.inj h
    cases caller with
    | loop | drain => rw [hw] at hpast; cases hpast
    | last => exact ⟨rfl, rfl⟩
  | reply rest fatal caller =>
    rw [hw] at hpast
    cases rest with
    | nil =>
      simp only [State.advance, hw] at h
      obtain rfl := Option.some.inj h
      refine ⟨?_, rfl⟩
      cases caller <;> cases fatal <;> first | rfl | cases hpast
    | cons told rest =>
      simp only [State.advance, hw] at h
      obtain rfl := Option.some.inj h
      exact ⟨(past_reply _ _ fatal caller).trans hpast, rfl⟩
  | done => simp only [State.advance, hw, reduceCtorEq] at h
  | abort err | finish | respond answer | leave =>
    simp only [State.advance, hw] at h
    obtain rfl := Option.some.inj h
    exact ⟨rfl, rfl⟩

/-- It comes there by an empty queue or by a batch that fails. -/
theorem advance_becomes_past (hpast : s.writer.past = false) (h : s.advance = some s')
    (hpast' : s'.writer.past = true) :
    s'.reqCh = s.reqCh ∧ (s.reqCh = [] ∨ s.drainFails = true) := by
  cases hw : s.writer with
  | select | done => simp only [State.advance, hw, reduceCtorEq] at h
  | abort err | finish | respond answer | leave => rw [hw] at hpast; cases hpast
  | collect batch =>
    simp only [State.advance, hw] at h
    repeat' split at h
    all_goals obtain rfl := Option.some.inj h; cases hpast'
  | process batch caller =>
    simp only [State.advance, hw] at h
    obtain rfl := Option.some.inj h
    cases caller with
    | loop => cases hpast'
    | last => rw [hw] at hpast; cases hpast
    | drain =>
      refine ⟨rfl, .inr ?_⟩
      rw [State.drainFails, hw]
      dsimp only
      -- only the answer to a failed batch ends a drain
      cases hfatal : (processBatch (batch.map Request.entry) false s.world).2.1 with
      | some err => rfl
      | none =>
        simp only [State.process, Caller.syncNow, hfatal, Writer.past, Bool.false_eq_true] at hpast'
  | reply rest fatal caller =>
    rw [hw] at hpast
    cases rest with
    | nil =>
      simp only [State.advance, hw] at h
      obtain rfl := Option.some.inj h
      cases caller <;> cases fatal <;> first | cases hpast'; done | cases hpast
    | cons told rest =>
      simp only [State.advance, hw] at h
      obtain rfl := Option.some.inj h
      rw [past_reply _ (told :: rest), hpast] at hpast'
      cases hpast'
  | drain pending =>
    simp only [State.advance, hw] at h
    split at h
    · split at h <;> obtain rfl := Option.some.inj h <;> cases hpast'
    · next hq =>
      -- the queue is empty, whether or not a last batch is left
      split at h <;> obtain rfl := Option.some.inj h <;> exact ⟨rfl, .inl hq⟩

/-- A failing batch takes the writer out of its drain, and it takes
nothing from the queue. -/
theorem advance_of_drainFails (hfails : s.drainFails = true) (h : s.advance = some s') :
    s'.writer.past = true ∧ s'.reqCh = s.reqCh := by
  unfold State.drainFails at hfails
  split at hfails
  · next batch hw =>
    simp only [State.advance, hw] at h
    obtain rfl := Option.some.inj h
    refine ⟨?_, rfl⟩
    obtain ⟨err, herr⟩ := Option.isSome_iff_exists.mp hfails
    simp only [State.process, Caller.syncNow, herr, Writer.past]
  · cases hfails

/-! ## Steps -/

/-- A call that goes on changes nothing for the others. -/
theorem sent_setCall {c : Call} (h : s.calls[i]? = some c) (c' : Call) (j : ℕ) :
    (s.setCall i c').Sent j ↔ (j = i ∧ c'.sent = true) ∨ (j ≠ i ∧ s.Sent j) := by
  have hlt := (List.getElem?_eq_some_iff.mp h).1
  unfold State.Sent State.setCall
  rw [List.getElem?_set]
  by_cases hij : i = j
  · subst hij
    simp [hlt]
  · simp [hij, Ne.symm hij]

/-- Whether a call has sent its request stays as it is if the call goes
on behind or before the sending. -/
theorem sent_setCall_of_eq {c c' : Call} (h : s.calls[i]? = some c) (hc : c'.sent = c.sent) (j : ℕ) :
    (s.setCall i c').Sent j ↔ s.Sent j := by
  rw [sent_setCall h]
  by_cases hj : j = i
  · subst hj
    rw [hc]
    simp only [true_and, ne_eq, not_true_eq_false, false_and, or_false]
    exact ⟨fun hsent => ⟨c, h, hsent⟩, fun ⟨d, hd, hsent⟩ => by
      rw [h] at hd
      obtain rfl := Option.some.inj hd
      exact hsent⟩
  · simp [hj]

theorem sent_append {c : Call} (hc : c.sent = false) (j : ℕ) :
    ({ s with calls := s.calls ++ [c] } : State).Sent j ↔ s.Sent j := by
  unfold State.Sent
  dsimp only
  rcases lt_trichotomy j s.calls.length with hj | rfl | hj
  · rw [List.getElem?_append_left hj]
  · rw [List.getElem?_concat_length, List.getElem?_eq_none le_rfl]
    simp [hc]
  · rw [List.getElem?_eq_none (by rw [List.length_append, List.length_singleton]; omega),
      List.getElem?_eq_none (by omega)]

/-- A step that leaves the requests where they are. -/
structure Quiet (s s' : State) : Prop where
  reqCh : s'.reqCh = s.reqCh
  replies : s'.replies = s.replies
  writer : s'.writer = s.writer ∨ s.writer = .select ∧ s'.writer = .drain []
  sent : ∀ i, s'.Sent i ↔ s.Sent i

/-- **What a step can do.** -/
theorem act_cases (h : act s a = some s') :
    (∃ i e, a = .send i ∧ s.calls[i]? = some (.checked e) ∧
      s' = { s.setCall i .waiting with reqCh := s.reqCh ++ [⟨i, e⟩] }) ∨
    (a = .advance ∧ s.advance = some s') ∨
    (∃ req queue, s.writer = .select ∧ s.reqCh = req :: queue ∧
      s' = { s with reqCh := queue, writer := .collect [req] } ∧ orderly s a = true) ∨
    (Quiet s s' ∧ orderly s a = true) := by
  cases a with
  | append e =>
    obtain rfl := Option.some.inj h
    -- a call has not sent anything when it starts
    refine .inr (.inr (.inr ⟨⟨rfl, rfl, .inl rfl, sent_append ?_⟩, rfl⟩))
    split <;> rfl
  | send i =>
    simp only [act] at h
    split at h
    · next e hcall =>
      split at h
      · exact .inl ⟨i, e, rfl, hcall, (Option.some.inj h).symm⟩
      · cases h
    · cases h
  | observe i =>
    simp only [act] at h
    split at h
    · next e hcall =>
      split at h
      · obtain rfl := Option.some.inj h
        exact .inr (.inr (.inr ⟨⟨rfl, rfl, .inl rfl, sent_setCall_of_eq hcall rfl⟩, rfl⟩))
      · cases h
    · cases h
  | receive i =>
    simp only [act] at h
    split at h
    · next told hcall hlookup =>
      obtain rfl := Option.some.inj h
      exact .inr (.inr (.inr ⟨⟨rfl, rfl, .inl rfl, sent_setCall_of_eq hcall rfl⟩, rfl⟩))
    · cases h
  | close =>
    simp only [act] at h
    split at h
    all_goals
      obtain rfl := Option.some.inj h
      exact .inr (.inr (.inr ⟨⟨rfl, rfl, .inl rfl, fun _ => Iff.rfl⟩, rfl⟩))
  | sendClose =>
    simp only [act] at h
    split at h
    · obtain rfl := Option.some.inj h
      exact .inr (.inr (.inr ⟨⟨rfl, rfl, .inl rfl, fun _ => Iff.rfl⟩, rfl⟩))
    · cases h
  | closeReturn =>
    simp only [act] at h
    split at h
    · obtain rfl := Option.some.inj h
      exact .inr (.inr (.inr ⟨⟨rfl, rfl, .inl rfl, fun _ => Iff.rfl⟩, rfl⟩))
    · cases h
  | takeRequest =>
    simp only [act] at h
    split at h
    · next req queue hw hq =>
      exact .inr (.inr (.inl ⟨req, queue, hw, hq, (Option.some.inj h).symm, rfl⟩))
    · cases h
  | takeClose =>
    simp only [act] at h
    split at h
    · next hw =>
      -- the writer turns to its drain
      obtain rfl := Option.some.inj h
      exact .inr (.inr (.inr ⟨⟨rfl, rfl, .inr ⟨hw.1, rfl⟩, fun _ => Iff.rfl⟩, rfl⟩))
    · cases h
  | advance => exact .inr (.inl ⟨rfl, h⟩)

namespace Quiet

theorem held (h : Quiet s s') : s'.held = s.held := by
  have howed : s'.writer.owed = s.writer.owed := by
    rcases h.writer with hw | ⟨hw, hw'⟩
    · rw [hw]
    · rw [hw, hw']
      rfl
  unfold State.held
  rw [h.reqCh, h.replies, howed]

theorem past (h : Quiet s s') : s'.writer.past = s.writer.past := by
  rcases h.writer with hw | ⟨hw, hw'⟩
  · rw [hw]
  · rw [hw, hw']
    rfl

end Quiet

/-! ## The line, along a run -/

/-- Every request sent stands in the line, once. -/
structure State.Ledger (s : State) : Prop where
  nodup : s.held.Nodup
  mem_held : ∀ i, i ∈ s.held ↔ s.Sent i

theorem ledger_start (depth : ℕ) (w : World) : (start depth w).Ledger where
  nodup := List.nodup_nil
  mem_held i := by
    constructor
    · exact fun h => absurd h List.not_mem_nil
    · rintro ⟨c, hc, -⟩
      cases hc

/-- A line that does not change. -/
theorem State.Ledger.congr (h : s.Ledger) (hheld : s'.held = s.held)
    (hsent : ∀ i, s'.Sent i ↔ s.Sent i) : s'.Ledger :=
  ⟨hheld ▸ h.nodup, fun i => by rw [hheld, hsent, h.mem_held]⟩

/-- **A step keeps the line.** -/
theorem ledger_act (h : s.Ledger) (hact : act s a = some s') : s'.Ledger := by
  rcases act_cases hact with ⟨i, e, -, hcall, rfl⟩ | ⟨-, hadv⟩ | ⟨req, queue, hw, hq, rfl, -⟩ |
    ⟨hquiet, -⟩
  · -- the call was in its select, so the request is new
    have hnew : i ∉ s.held := by
      rw [h.mem_held]
      rintro ⟨c, hc, hsent⟩
      rw [hcall] at hc
      obtain rfl := Option.some.inj hc
      cases hsent
    have hheld : ({ s.setCall i .waiting with reqCh := s.reqCh ++ [⟨i, e⟩] } : State).held =
        s.held ++ [i] := by
      simp only [State.held, State.setCall, List.map_append, List.map_singleton, List.append_assoc]
    constructor
    · rw [hheld]
      exact List.nodup_append.mpr ⟨h.nodup, List.nodup_singleton i, fun j hj k hk hjk =>
        hnew (by rw [← List.mem_singleton.mp hk, ← hjk]; exact hj)⟩
    · intro j
      have hsent := sent_setCall hcall .waiting j
      rw [hheld, List.mem_append, List.mem_singleton, h.mem_held]
      refine Iff.trans ?_ hsent.symm
      by_cases hj : j = i
      · simp [hj, Call.sent]
      · simp [hj]
  · exact h.congr (advance_held hadv) fun i => by rw [State.Sent, advance_calls hadv, State.Sent]
  · refine h.congr ?_ fun _ => Iff.rfl
    simp only [State.held, hw, hq, Writer.owed, List.map_cons, List.map_nil, List.nil_append,
      List.singleton_append]
  · exact h.congr hquiet.held hquiet.sent

/-! ## Too late -/

/-- A writer that has left its drain with requests in the queue. -/
def State.Lost (s : State) : Prop := s.writer.past = true ∧ s.reqCh ≠ []

/-- A writer that has left it has taken all of them. -/
def State.Settled (s : State) : Prop := s.writer.past = true → s.reqCh = []

/-- What the writer has left behind stays there. -/
theorem lost_act (h : s.Lost) (hact : act s a = some s') : s'.Lost := by
  rcases act_cases hact with ⟨i, e, -, hcall, rfl⟩ | ⟨-, hadv⟩ | ⟨req, queue, hw, hq, rfl, -⟩ |
    ⟨hquiet, -⟩
  · exact ⟨h.1, List.append_ne_nil_of_right_ne_nil _ (List.cons_ne_nil _ _)⟩
  · obtain ⟨hpast, hq⟩ := advance_of_past h.1 hadv
    exact ⟨hpast, hq ▸ h.2⟩
  · have hpast := h.1
    rw [hw] at hpast
    cases hpast
  · exact ⟨hquiet.past.trans h.1, hquiet.reqCh ▸ h.2⟩

/-- A step that is not orderly leaves a request behind. -/
theorem lost_of_disorderly (horderly : orderly s a = false) (hact : act s a = some s') :
    s'.Lost := by
  rcases act_cases hact with ⟨i, e, rfl, hcall, rfl⟩ | ⟨rfl, hadv⟩ | ⟨req, queue, -, -, -, ho⟩ |
    ⟨-, ho⟩
  · have hpast : s.writer.past = true := by simpa [orderly] using horderly
    exact ⟨hpast, List.append_ne_nil_of_right_ne_nil _ (List.cons_ne_nil _ _)⟩
  · obtain ⟨hfails, hq⟩ : s.drainFails = true ∧ s.reqCh ≠ [] := by
      simpa [orderly] using horderly
    obtain ⟨hpast, hq'⟩ := advance_of_drainFails hfails hadv
    exact ⟨hpast, hq' ▸ hq⟩
  · rw [ho] at horderly
    cases horderly
  · rw [ho] at horderly
    cases horderly

/-- An orderly step leaves none. -/
theorem settled_act (h : s.Settled) (horderly : orderly s a = true) (hact : act s a = some s') :
    s'.Settled := by
  intro hpast'
  rcases act_cases hact with ⟨i, e, rfl, hcall, rfl⟩ | ⟨rfl, hadv⟩ | ⟨req, queue, hw, hq, rfl, -⟩ |
    ⟨hquiet, -⟩
  · have hpast : s.writer.past = false := by simpa [orderly] using horderly
    exact absurd (hpast.symm.trans hpast') Bool.false_ne_true
  · cases hpast : s.writer.past with
    | true => exact (advance_of_past hpast hadv).2.trans (h hpast)
    | false =>
      obtain ⟨hq, hempty | hfails⟩ := advance_becomes_past hpast hadv hpast'
      · exact hq.trans hempty
      · have hempty : s.reqCh = [] := by simpa [orderly, hfails] using horderly
        exact hq.trans hempty
  · cases hpast'
  · exact hquiet.reqCh.trans (h (hquiet.past.symm.trans hpast'))

/-! ## Answers -/

/-- A terminated writer that left nothing behind has answered everyone. -/
theorem State.Ledger.answered (h : s.Ledger) (hdone : s.writer = .done) (hq : s.reqCh = []) :
    s.Answered := by
  have hheld : s.held = s.replies.map Prod.fst := by
    rw [State.held, hdone, hq]
    exact List.append_nil _
  refine ⟨hq, fun i hi => ?_, fun i hi => ?_⟩
  · have hmem := (h.mem_held i).mpr ⟨.waiting, hi, rfl⟩
    rw [hheld] at hmem
    obtain ⟨⟨j, told⟩, htold, rfl⟩ := List.mem_map.mp hmem
    exact ⟨told, htold⟩
  · have hmem := (h.mem_held i).mpr hi
    rw [hheld] at hmem
    exact List.count_eq_one_of_mem (hheld ▸ h.nodup) hmem

/-- A run that is not orderly loses a request. -/
theorem lost_of_not_along {as : List Step} (hrun : runs act s as = some s')
    (h : ¬ Along act (fun s a => orderly s a = true) s as) : s'.Lost := by
  simp only [Along, not_forall] at h
  obtain ⟨pre, a, post, s₁, rfl, hpre, horderly⟩ := h
  rw [runs_append, hpre, Option.bind_some, runs] at hrun
  obtain ⟨s₂, hact, hpost⟩ := Option.bind_eq_some_iff.mp hrun
  exact runs_invariant (fun _ _ _ => lost_act)
    (lost_of_disorderly (Bool.eq_false_iff.mpr horderly) hact) hpost

/-- **Every request is answered, unless it comes too late.** No request
gets two replies; and a terminated writer has answered all of them if
and only if none was sent after the writer had left its drain and none
was queued when a batch of the drain failed. -/
theorem answered_iff {depth : ℕ} {w : World} {as : List Step}
    (hrun : runs act (start depth w) as = some s') :
    (∀ i, (s'.replies.map Prod.fst).count i ≤ 1) ∧
      (s'.writer = .done →
        (s'.Answered ↔ Along act (fun s a => orderly s a = true) (start depth w) as)) := by
  have hledger : s'.Ledger := runs_invariant (fun _ _ _ => ledger_act) (ledger_start depth w) hrun
  refine ⟨fun i => ?_, fun hdone => ⟨fun hall => ?_, fun halong => ?_⟩⟩
  · exact List.nodup_iff_count_le_one.mp (List.nodup_append.mp hledger.nodup).1 i
  · by_contra hnot
    exact (lost_of_not_along hrun hnot).2 hall.queue
  · have hsettled : s'.Settled := by
      refine runs_induction (fun _ _ _ => settled_act) (fun hpast => ?_) hrun halong
      cases hpast
    exact hledger.answered hdone (hsettled (by rw [hdone]; rfl))

/-- A log with a queue of one. -/
def asyncLog (batchMax : ℤ) : World :=
  { faultyLog 0 with wal := { (faultyLog 0).wal with async := true, batchMax := batchMax } }

/-- One append is served with a failed write, and the log is closed. -/
def serveAndClose : List Step :=
  [.append ⟨[1], [], true, 1⟩, .send 0, .takeRequest, .advance, .advance, .advance, .advance,
    .receive 0, .close, .sendClose, .takeClose, .advance, .advance, .advance, .advance]

theorem answered_serveAndClose :
    ∃ s', runs act (start 1 (asyncLog 0)) serveAndClose = some s' ∧ s'.writer = .done ∧
      s'.replies = [(0, some (.io "write block"))] ∧
      Along act (fun s a => orderly s a = true) (start 1 (asyncLog 0)) serveAndClose ∧
      s'.Answered := by
  have hfinal : (runs act (start 1 (asyncLog 0)) serveAndClose).map
      (fun s => (s.writer, s.replies)) = some (.done, [(0, some (.io "write block"))]) := by decide +kernel
  obtain ⟨s', hrun, heq⟩ := Option.map_eq_some_iff.mp hfinal
  obtain ⟨hdone, hreplies⟩ := Prod.mk.inj heq
  have halong : Along act (fun s a => orderly s a = true) (start 1 (asyncLog 0)) serveAndClose :=
    along_of_check (by decide +kernel)
  exact ⟨s', hrun, hdone, hreplies, halong, ((answered_iff hrun).2 hdone).mpr halong⟩

/-- **A late request is never answered.** The call reads the flag, the
log is closed, and the queue still has room. -/
theorem late_request_unanswered :
    ¬ ∀ (depth : ℕ) (w : World) (as : List Step) (s' : State), 0 < depth →
      runs act (start depth w) as = some s' → s'.writer = .done → s'.Answered := by
  intro hall
  have hfinal : (runs act (start 1 (asyncLog 0)) [.append ⟨[1], [], true, 1⟩, .close, .sendClose,
      .takeClose, .advance, .advance, .advance, .advance, .send 0]).map
      (fun s => (s.writer, s.reqCh.isEmpty)) = some (.done, false) := by decide +kernel
  obtain ⟨s', hrun, heq⟩ := Option.map_eq_some_iff.mp hfinal
  obtain ⟨hdone, hqueue⟩ := Prod.mk.inj heq
  have hempty := (hall 1 _ _ s' Nat.one_pos hrun hdone).queue
  rw [hempty] at hqueue
  cases hqueue

end Async

end LSMEngine.Wal
