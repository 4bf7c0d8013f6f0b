import LSMEngine.Cdc.Model.Writers
import LSMEngine.Common.Runs
import LSMEngine.Control.Names
/-!
# Change streams — events in commit order

A stream is a log that is read in pages: the loop of `read` gives a page
(`readLoop_eq`), and `append` adds an event and lets the oldest go.

A call that commits gets the next number, larger than those of all that
have committed before (`Numbered`). If the calls of a shard record their
events in the order they committed in, the offsets of its stream ascend,
and its consumers miss nothing (`streams_run`). The commit lock does not
see to that, since it is let go before the event is recorded: a call can
be overtaken between the two, and then its event comes behind a later one,
where a consumer that has read that one never finds it
(`overtaken_breaks_stream`).
-/

namespace LSMEngine.Cdc

open Control (trimSpace trimSpace_trimSpace)

variable {s s' : State} {i : ℕ} {c : Call} {offset : UInt64} {limit : ℤ} {shardID : String}

/-! ## Reading -/

/-- **The loop gives a page**, with as many events as there is room for. -/
theorem readLoop_eq (offset : UInt64) (limit : ℤ) (events : List CDCEvent) :
    ∀ (out : CDCReadResult) (k : ℕ), out.events.length + k + 1 = limit →
      readLoop offset limit out events = { out with
        events := out.events ++ page CDCEvent.offset offset (k + 1) events
        nextOffset := nextKey CDCEvent.offset out.nextOffset
          (page CDCEvent.offset offset (k + 1) events) } := by
  induction events with
  | nil =>
    intro out k _
    simp [readLoop, page, nextKey]
  | cons event events ih =>
    intro out k hk
    rw [readLoop]
    by_cases hpast : event.offset ≤ offset
    · rw [if_pos hpast, ih out k hk, page_cons_of_le hpast]
    rw [if_neg hpast, page_cons_of_lt (lt_of_not_ge hpast), nextKey_cons]
    dsimp only
    by_cases hfull : limit ≤ ((out.events ++ [event]).length : ℤ)
    · obtain rfl : k = 0 := by
        rw [List.length_append, List.length_singleton] at hfull
        omega
      rw [if_pos hfull]
      simp [page, nextKey]
    · rw [if_neg hfull]
      rw [List.length_append, List.length_singleton] at hfull
      obtain ⟨k, rfl⟩ : ∃ k', k = k' + 1 := ⟨k - 1, by omega⟩
      rw [ih _ k (by rw [List.length_append, List.length_singleton]; omega), List.append_assoc]
      rfl

theorem normalizeCDCReadLimit_pos (limit : ℤ) : 0 < normalizeCDCReadLimit limit := by
  rw [normalizeCDCReadLimit]
  split
  · decide
  split
  · decide
  · omega

/-- What a read gives of a stream: a page, and a signal of what it misses
at the oldest event. -/
theorem readStream_eq (shardID : String) (offset : UInt64) (hlimit : 0 < limit)
    (stream : List CDCEvent) :
    (readStream shardID offset limit stream).events =
        page CDCEvent.offset offset limit.toNat stream ∧
      (readStream shardID offset limit stream).nextOffset =
        nextKey CDCEvent.offset offset (page CDCEvent.offset offset limit.toNat stream) ∧
      (readStream shardID offset limit stream).droppedBefore =
        stream.head?.any fun oldest => oldest.offset > 0 ∧ offset + 1 < oldest.offset := by
  obtain ⟨k, hk⟩ : ∃ k, limit.toNat = k + 1 := ⟨limit.toNat - 1, by omega⟩
  rcases stream with _ | ⟨oldest, stream⟩
  · rw [page, List.filter_nil, List.take_nil]
    exact ⟨rfl, rfl, rfl⟩
  · rw [hk, readStream, readLoop_eq _ _ _ _ k (by
      show ((([] : List CDCEvent).length : ℕ) : ℤ) + _ + 1 = _
      rw [List.length_nil]
      omega)]
    exact ⟨List.nil_append _, rfl, rfl⟩

/-- **A read gives a page of the stream of its shard.** -/
theorem exists_page {store : CDCStreamStore} {known : Option (List String)} {result : CDCReadResult}
    (hid : trimSpace shardID ≠ "")
    (h : readCDCEvents store known shardID offset limit = .ok result) :
    ∃ k, result.events = page CDCEvent.offset offset k (store.stream (trimSpace shardID)) ∧
      result.nextOffset = nextKey CDCEvent.offset offset
        (page CDCEvent.offset offset k (store.stream (trimSpace shardID))) := by
  have hread : ∀ {result}, store.read (trimSpace shardID) offset limit = .ok result →
      ∃ k, result.events = page CDCEvent.offset offset k (store.stream (trimSpace shardID)) ∧
        result.nextOffset = nextKey CDCEvent.offset offset
          (page CDCEvent.offset offset k (store.stream (trimSpace shardID))) := by
    intro result h
    rw [CDCStreamStore.read, trimSpace_trimSpace, if_neg hid] at h
    split at h
    · cases h
    next stream hstream =>
    rw [← Except.ok.inj h, CDCStreamStore.stream, hstream]
    obtain ⟨hevents, hnext, -⟩ := readStream_eq (trimSpace shardID) offset
      (normalizeCDCReadLimit_pos limit) stream
    exact ⟨_, hevents, hnext⟩
  rcases known with _ | known
  · exact hread h
  rw [readCDCEvents] at h
  have hshard : readShard known (trimSpace shardID) = trimSpace shardID :=
    if_neg fun hempty => hid hempty.1
  rw [hshard] at h
  split at h
  · cases h
  split at h
  · -- a shard that is known but has no stream yet
    next hnone =>
    split at h
    · have hstream : store.stream (trimSpace shardID) = [] := by
        rw [CDCStreamStore.read, trimSpace_trimSpace, if_neg hid] at hnone
        split at hnone
        · next hlookup => rw [CDCStreamStore.stream, hlookup]; rfl
        · cases hnone
      rw [hstream, ← Except.ok.inj h]
      exact ⟨0, rfl, rfl⟩
    · cases h
  · exact hread h

/-! ## Appending -/

theorem stream_append (store : CDCStreamStore) (event : CDCEvent) (shardID : String) :
    (store.append event).stream shardID = store.stream shardID ∨
      shardID = trimSpace event.shardID ∧ (store.append event).stream shardID =
        store.push (store.stream shardID) { event with shardID := shardID } := by
  rw [CDCStreamStore.append]
  dsimp only
  split
  · exact Or.inl rfl
  by_cases hid : shardID = trimSpace event.shardID
  · refine Or.inr ⟨hid, ?_⟩
    rw [CDCStreamStore.stream, hid, AList.lookup_insert]
    rfl
  · refine Or.inl ?_
    rw [CDCStreamStore.stream, AList.lookup_insert_ne hid]
    rfl

section Push

variable {store : CDCStreamStore} {stream : List CDCEvent} {event : CDCEvent}

/-- An event is added, and some of the oldest may go. -/
theorem exists_push (store : CDCStreamStore) (stream : List CDCEvent) (event : CDCEvent) :
    ∃ k < (stream ++ [event]).length, store.push stream event = (stream ++ [event]).drop k := by
  have hpos := store.pos
  rw [CDCStreamStore.push]
  split
  · exact ⟨_, by omega, rfl⟩
  · refine ⟨0, ?_, rfl⟩
    rw [List.length_append, List.length_singleton]
    omega

theorem ascending_push (h : Ascending CDCEvent.offset stream)
    (hlast : ∀ e ∈ stream, e.offset < event.offset) :
    Ascending CDCEvent.offset (store.push stream event) := by
  obtain ⟨k, -, hk⟩ := exists_push store stream event
  rw [hk]
  exact (h.append_singleton hlast).sublist (List.drop_sublist _ _)

theorem follows_push {r : Reader CDCEvent UInt64} (h : r.Follows CDCEvent.offset stream)
    (hlast : ∀ e ∈ stream, e.offset < event.offset) :
    r.Follows CDCEvent.offset (store.push stream event) := by
  obtain ⟨k, hlt, hk⟩ := exists_push store stream event
  rw [hk]
  exact (h.push hlast).drop hlt

end Push

/-! ## Numbers -/

/-- The number of a call that has committed and has still to record its
event. -/
def Phase.number : Phase → Option UInt64
  | .committed n => some n
  | .recording n => some n
  | _ => none

/-- The stream a call records its event in. -/
def State.shardOf (s : State) (c : Call) : String := trimSpace (s.recordShard c.key)

/-- A call records its event when no call that committed before it has
still to record one in the same stream. The numbers do not run out, and
the routes do not change under a call that has still to record. -/
def State.inTurn (s : State) : Step → Bool
  | .record i => s.calls[i]?.all fun c => c.phase.number.all fun n =>
      s.calls.all fun d => d.phase.number.all fun m => s.shardOf d ≠ s.shardOf c || n ≤ m
  | .commit _ => s.index.toNat + 1 < 2 ^ 64
  | .commitControl => s.index.toNat + 1 < 2 ^ 64
  | .reroute route => s.calls.all fun c =>
      c.phase.number.isNone || { s with route := route }.shardOf c = s.shardOf c
  | _ => true

/-- **The condition on a step**: calls record their events in the order
they committed in. -/
def InTurn (s : State) (step : Step) : Prop := s.inTurn step = true

instance (s : State) (step : Step) : Decidable (InTurn s step) :=
  inferInstanceAs (Decidable (_ = true))

/-- **Numbers.** No number is beyond the last one given, no two calls have
the same, and a call that has still to record its event has a larger one
than the events of its stream. -/
structure Numbered (s : State) : Prop where
  events_le : ∀ shardID, ∀ e ∈ s.store.stream shardID, e.offset ≤ s.index
  calls_le : ∀ {i : ℕ} {c : Call} {n : UInt64}, s.calls[i]? = some c →
    c.phase.number = some n → n ≤ s.index
  distinct : ∀ {i j : ℕ} {c d : Call} {n : UInt64}, s.calls[i]? = some c →
    s.calls[j]? = some d → c.phase.number = some n → d.phase.number = some n → i = j
  behind : ∀ {i : ℕ} {c : Call} {n : UInt64}, s.calls[i]? = some c →
    c.phase.number = some n → ∀ e ∈ s.store.stream (s.shardOf c), e.offset < n

theorem getElem?_move {j : ℕ} {d : Call} {phase : Phase}
    (h : (s.move i c phase).calls[j]? = some d) :
    j = i ∧ d = { c with phase := phase } ∨ j ≠ i ∧ s.calls[j]? = some d := by
  rw [State.move, List.getElem?_set] at h
  split at h
  · next heq =>
    split at h
    · exact .inl ⟨heq.symm, (Option.some.inj h).symm⟩
    · cases h
  · next hne => exact .inr ⟨Ne.symm hne, h⟩

theorem lt_next (hmax : s.index.toNat + 1 < 2 ^ 64) : s.index < s.index + 1 := by
  rw [UInt64.lt_iff_toNat_lt, UInt64.toNat_add, UInt64.toNat_one, Nat.mod_eq_of_lt hmax]
  exact Nat.lt_succ_self _

/-- A step that gives no number and records no event: a call that has a
number had it before, and the same stream. -/
theorem Numbered.of_same (h : Numbered s)
    (hcalls : ∀ {j : ℕ} {d : Call} {n : UInt64}, s'.calls[j]? = some d → d.phase.number = some n →
      ∃ c, s.calls[j]? = some c ∧ c.phase.number = some n ∧ s'.shardOf d = s.shardOf c)
    (hindex : s.index ≤ s'.index) (hstore : s'.store = s.store) : Numbered s' := by
  refine ⟨fun shardID e he => ?_, fun hd hn => ?_, fun hd hd' hn hn' => ?_, fun hd hn => ?_⟩
  · exact (h.events_le shardID e (hstore ▸ he)).trans hindex
  · obtain ⟨c, hc, hcn, -⟩ := hcalls hd hn
    exact (h.calls_le hc hcn).trans hindex
  · obtain ⟨c, hc, hcn, -⟩ := hcalls hd hn
    obtain ⟨c', hc', hcn', -⟩ := hcalls hd' hn'
    exact h.distinct hc hc' hcn hcn'
  · obtain ⟨c, hc, hcn, hshard⟩ := hcalls hd hn
    rw [hstore, hshard]
    exact h.behind hc hcn

/-- A call goes on with its number, or without one. -/
theorem Numbered.of_move (h : Numbered s) {phase : Phase} (hc : s.calls[i]? = some c)
    (hcalls : s'.calls = (s.move i c phase).calls)
    (hphase : ∀ n, phase.number = some n → c.phase.number = some n) (hindex : s'.index = s.index)
    (hroute : s'.route = s.route) (hstore : s'.store = s.store) : Numbered s' := by
  refine h.of_same (fun {j d n} hd hn => ?_) hindex.ge hstore
  rw [State.shardOf, State.recordShard, hroute]
  rw [hcalls] at hd
  rcases getElem?_move hd with ⟨rfl, rfl⟩ | ⟨-, hd⟩
  · exact ⟨c, hc, hphase n hn, rfl⟩
  · exact ⟨d, hd, hn, rfl⟩

/-- **A call takes its number**, larger than all those given. -/
theorem Numbered.commit (h : Numbered s) (hmax : s.index.toNat + 1 < 2 ^ 64) :
    Numbered { s.move i c (.committed (s.index + 1)) with index := s.index + 1 } := by
  have hlt := lt_next hmax
  have hold : ∀ {j : ℕ} {d : Call}, s.calls[j]? = some d → d.phase.number ≠ some (s.index + 1) :=
    fun hd hn => absurd (h.calls_le hd hn) (not_le_of_gt hlt)
  refine ⟨fun shardID e he => (h.events_le shardID e he).trans hlt.le, fun hd hn => ?_,
    fun hd hd' hn hn' => ?_, fun hd hn => ?_⟩
  · rcases getElem?_move hd with ⟨-, rfl⟩ | ⟨-, hd⟩
    · exact (Option.some.inj hn).ge
    · exact (h.calls_le hd hn).trans hlt.le
  · rcases getElem?_move hd with ⟨rfl, rfl⟩ | ⟨-, hother⟩ <;>
      rcases getElem?_move hd' with ⟨rfl, rfl⟩ | ⟨-, hother'⟩
    · rfl
    · exact absurd (hn'.trans hn.symm) (hold hother')
    · exact absurd (hn.trans hn'.symm) (hold hother)
    · exact h.distinct hother hother' hn hn'
  · rcases getElem?_move hd with ⟨-, rfl⟩ | ⟨-, hd⟩
    · obtain rfl := Option.some.inj hn
      exact fun e he => lt_of_le_of_lt (h.events_le _ e he) hlt
    · exact h.behind hd hn

/-- What recording an event does to a stream. -/
theorem stream_record (s : State) (c : Call) (n : UInt64) (shardID : String) :
    (s.recordCDCEvent c n).stream shardID = s.store.stream shardID ∨
      shardID = s.shardOf c ∧ ∃ event : CDCEvent, event.offset = n ∧
        (s.recordCDCEvent c n).stream shardID = s.store.push (s.store.stream shardID) event := by
  have hevent : (c.event (s.recordShard c.key) n).offset = n ∧
      (c.event (s.recordShard c.key) n).shardID = s.recordShard c.key := by
    rw [Call.event]
    split <;> exact ⟨rfl, rfl⟩
  rw [State.recordCDCEvent]
  split
  · exact .inl rfl
  refine (stream_append _ _ shardID).imp_right ?_
  rintro ⟨rfl, hpush⟩
  exact ⟨by rw [hevent.2]; rfl, { c.event (s.recordShard c.key) n with
    shardID := trimSpace (c.event (s.recordShard c.key) n).shardID }, hevent.1, hpush⟩

/-- **A call records its event in its turn.** -/
theorem Numbered.record (h : Numbered s) {n : UInt64} (hc : s.calls[i]? = some c)
    (hcn : c.phase.number = some n)
    (hturn : ∀ d ∈ s.calls, ∀ m, d.phase.number = some m → s.shardOf d = s.shardOf c → n ≤ m) :
    Numbered { s.move i c .acknowledged with store := s.recordCDCEvent c n } := by
  have hmem : ∀ {shardID : String}, ∀ e ∈ (s.recordCDCEvent c n).stream shardID,
      e ∈ s.store.stream shardID ∨ shardID = s.shardOf c ∧ e.offset = n := by
    intro shardID e he
    rcases stream_record s c n shardID with heq | ⟨hid, event, hn, heq⟩
    · exact .inl (heq ▸ he)
    · obtain ⟨k, -, hk⟩ := exists_push s.store (s.store.stream shardID) event
      rw [heq, hk] at he
      rcases List.mem_append.mp (List.mem_of_mem_drop he) with he | he
      · exact .inl he
      · exact .inr ⟨hid, List.mem_singleton.mp he ▸ hn⟩
  have hcalls : ∀ {j : ℕ} {d : Call} {m : UInt64},
      (s.move i c .acknowledged).calls[j]? = some d → d.phase.number = some m →
      j ≠ i ∧ s.calls[j]? = some d := fun hd hm => (getElem?_move hd).resolve_left (by
    rintro ⟨-, rfl⟩
    cases hm)
  refine ⟨fun shardID e he => ?_, fun hd hm => h.calls_le (hcalls hd hm).2 hm,
    fun hd hd' hm hm' => h.distinct (hcalls hd hm).2 (hcalls hd' hm').2 hm hm',
    fun {j d m} hd hm e he => ?_⟩
  · rcases hmem e he with he | ⟨-, hn⟩
    · exact h.events_le shardID e he
    · exact hn.trans_le (h.calls_le hc hcn)
  · obtain ⟨hne, hd⟩ := hcalls hd hm
    rcases hmem e he with he | ⟨hid, hn⟩
    · exact h.behind hd hm e he
    · rw [hn]
      refine lt_of_le_of_ne (hturn d (List.mem_of_getElem? hd) m hm hid) ?_
      rintro rfl
      exact hne (h.distinct hd hc hm hcn)

/-! ## Streams -/

/-- **Streams in order.** The offsets of every stream ascend, and its
consumers miss nothing. -/
structure InOrder (s : State) : Prop where
  ascending : ∀ shardID, Ascending CDCEvent.offset (s.store.stream shardID)
  follows : ∀ c ∈ s.consumers, trimSpace c.shardID ≠ "" →
    c.reader.Follows CDCEvent.offset (s.store.stream (trimSpace c.shardID))

theorem InOrder.congr (h : InOrder s) (hstore : s'.store = s.store)
    (hconsumers : s'.consumers = s.consumers) : InOrder s' := by
  refine ⟨fun shardID => ?_, fun c hc hid => ?_⟩
  · rw [hstore]
    exact h.ascending shardID
  · rw [hstore]
    exact h.follows c (hconsumers ▸ hc) hid

/-- A call that records its event behind those of its stream. -/
theorem InOrder.record (h : InOrder s) {n : UInt64}
    (hbehind : ∀ e ∈ s.store.stream (s.shardOf c), e.offset < n) :
    InOrder { s.move i c .acknowledged with store := s.recordCDCEvent c n } := by
  refine ⟨fun shardID => ?_, fun c' hc' hid => ?_⟩
  · rcases stream_record s c n shardID with heq | ⟨rfl, event, rfl, heq⟩
    · exact heq ▸ h.ascending shardID
    · exact heq ▸ ascending_push (h.ascending _) hbehind
  · have hfollows := h.follows c' hc' hid
    rcases stream_record s c n (trimSpace c'.shardID) with heq | ⟨hshard, event, rfl, heq⟩
    · exact heq ▸ hfollows
    · exact heq ▸ follows_push hfollows (hshard ▸ hbehind)

theorem readNext_shardID (s : State) (c : Consumer) (known : Option (List String)) (limit : ℤ) :
    (s.readNext c known limit).shardID = c.shardID := by
  rw [State.readNext]
  split <;> rfl

/-- A consumer that reads on follows the stream. -/
theorem InOrder.readNext (h : InOrder s) {c : Consumer} (hc : c ∈ s.consumers)
    (hid : trimSpace c.shardID ≠ "") (known : Option (List String)) (limit : ℤ) :
    (s.readNext c known limit).reader.Follows CDCEvent.offset
      (s.store.stream (trimSpace c.shardID)) := by
  rw [State.readNext]
  split
  · exact h.follows c hc hid
  next result hresult =>
  obtain ⟨n, hevents, hnext⟩ := exists_page hid hresult
  rw [hevents, hnext]
  exact (h.follows c hc hid).take (h.ascending _) n

/-! ## Steps -/

/-- **A step keeps the numbers and the streams in order**, if it is in
turn. -/
theorem act_keeps (h : Numbered s) (ho : InOrder s) {step : Step} (hturn : InTurn s step)
    (hact : s.act step = some s') : Numbered s' ∧ InOrder s' := by
  cases step with
  | call operation key value =>
    rw [← Option.some.inj hact]
    refine ⟨h.of_same (fun {j d n} hd hn => ?_) le_rfl rfl, ho.congr rfl rfl⟩
    rw [List.getElem?_append] at hd
    split at hd
    · exact ⟨d, hd, hn, rfl⟩
    · rw [List.mem_singleton.mp (List.mem_of_getElem? hd), apply_ite Phase.number] at hn
      simp [Phase.number] at hn
  | refuse i =>
    obtain ⟨c, hc, hact⟩ := Option.bind_eq_some_iff.mp hact
    rw [State.callAct] at hact
    split at hact
    · rw [← Option.some.inj hact]
      exact ⟨h.of_move hc rfl nofun rfl rfl rfl, ho.congr rfl rfl⟩
    · rw [← Option.some.inj hact]
      exact ⟨h.of_move hc rfl nofun rfl rfl rfl, ho.congr rfl rfl⟩
    · cases hact
  | lock i =>
    obtain ⟨c, hc, hact⟩ := Option.bind_eq_some_iff.mp hact
    rw [State.callAct] at hact
    split at hact
    · rw [← Option.some.inj hact]
      exact ⟨h.of_move hc rfl nofun rfl rfl rfl, ho.congr rfl rfl⟩
    · cases hact
  | commit i =>
    obtain ⟨c, -, hact⟩ := Option.bind_eq_some_iff.mp hact
    rw [State.callAct] at hact
    split at hact
    · rw [← Option.some.inj hact]
      exact ⟨h.commit (of_decide_eq_true hturn), ho.congr rfl rfl⟩
    · cases hact
  | apply i ok =>
    obtain ⟨c, hc, hact⟩ := Option.bind_eq_some_iff.mp hact
    rw [State.callAct] at hact
    split at hact
    swap
    · cases hact
    next n hphase =>
    rw [← Option.some.inj hact]
    refine ⟨?_, ho.congr rfl rfl⟩
    split
    · exact h.of_move hc rfl (fun m hm => by rw [hphase]; exact hm) rfl rfl rfl
    · exact h.of_move hc rfl nofun rfl rfl rfl
  | record i =>
    obtain ⟨c, hc, hact⟩ := Option.bind_eq_some_iff.mp hact
    rw [State.callAct] at hact
    split at hact
    swap
    · cases hact
    next n hphase =>
    rw [← Option.some.inj hact]
    have hn : c.phase.number = some n := by rw [hphase]; rfl
    refine ⟨h.record hc hn fun d hd m hm hid => ?_, ho.record (h.behind hc hn)⟩
    simp only [InTurn, State.inTurn, hc, hn, Option.all_some, List.all_eq_true] at hturn
    simpa only [hm, Option.all_some, hid, ne_eq, not_true_eq_false, decide_false, Bool.false_or,
      decide_eq_true_eq] using hturn d hd
  | commitControl =>
    rw [← Option.some.inj hact]
    exact ⟨h.of_same (fun hd hn => ⟨_, hd, hn, rfl⟩) (lt_next (of_decide_eq_true hturn)).le rfl,
      ho.congr rfl rfl⟩
  | reroute route =>
    rw [← Option.some.inj hact]
    refine ⟨h.of_same (fun {j d n} hd hn => ⟨d, hd, hn, ?_⟩) le_rfl rfl, ho.congr rfl rfl⟩
    have hkeep := List.all_eq_true.mp hturn d (List.mem_of_getElem? hd)
    simpa only [hn, Option.isNone_some, Bool.false_or, decide_eq_true_eq] using hkeep
  | consume shardID offset =>
    rw [← Option.some.inj hact]
    refine ⟨h.of_same (fun hd hn => ⟨_, hd, hn, rfl⟩) le_rfl rfl, ho.ascending, fun c hc hid => ?_⟩
    rcases List.mem_append.mp hc with hc | hc
    · exact ho.follows c hc hid
    · rw [List.mem_singleton.mp hc]
      exact Reader.follows_of_start rfl
  | read k known limit =>
    obtain ⟨c, hc, rfl⟩ := Option.map_eq_some_iff.mp hact
    refine ⟨h.of_same (fun hd hn => ⟨_, hd, hn, rfl⟩) le_rfl rfl, ho.ascending,
      fun c' hc' hid => ?_⟩
    rcases List.mem_or_eq_of_mem_set hc' with hc' | rfl
    · exact ho.follows c' hc' hid
    · rw [readNext_shardID] at hid ⊢
      exact ho.readNext (List.mem_of_getElem? hc) hid known limit

/-! ## Runs -/

section Runs

variable {index : UInt64} {route : Bytes → Option String} {capacity : ℤ} {steps : List Step}

theorem numbered_opened (index : UInt64) (route : Bytes → Option String) (capacity : ℤ) :
    Numbered (State.opened index route capacity) :=
  ⟨fun _ _ he => absurd he List.not_mem_nil, nofun, nofun, nofun⟩

theorem inOrder_opened (index : UInt64) (route : Bytes → Option String) (capacity : ℤ) :
    InOrder (State.opened index route capacity) :=
  ⟨fun _ => List.Pairwise.nil, fun _ hc => absurd hc List.not_mem_nil⟩

/-- **Streams list writes in commit order.** In every state that is reached
by calls that record their events in the order they committed in, the
offsets of every stream strictly increase, and what a stream holds beyond
the offset at which a consumer of its shard has started, the consumer has
received or has still ahead of the offset it will ask for. -/
theorem streams_run (hturn : Along State.act InTurn (State.opened index route capacity) steps)
    (hrun : runs State.act (State.opened index route capacity) steps = some s) :
    (∀ shardID, (s.store.stream shardID).Pairwise fun e e' => e.offset < e'.offset) ∧
      ∀ c ∈ s.consumers, trimSpace c.shardID ≠ "" →
        ∀ e ∈ s.store.stream (trimSpace c.shardID), c.reader.start < e.offset →
          e ∈ c.reader.received ∨ c.reader.offset < e.offset := by
  have hstep : ∀ t step t', Numbered t ∧ InOrder t → InTurn t step → t.act step = some t' →
      Numbered t' ∧ InOrder t' := fun _ _ _ h hturn hact => act_keeps h.1 h.2 hturn hact
  obtain ⟨-, h⟩ := runs_induction hstep
    ⟨numbered_opened index route capacity, inOrder_opened index route capacity⟩ hrun hturn
  exact ⟨h.ascending, fun c hc hid => (h.follows c hc hid).kept⟩

/-- Two puts commit, one after the other. -/
def twoPuts : List Step :=
  [.consume "default" 0, .call .put [1] [1], .call .put [2] [2],
    .lock 0, .commit 0, .apply 0 true, .lock 1, .commit 1, .apply 1 true]

/-- They record their events in the order they committed in. -/
def inOrderRecords : List Step := twoPuts ++ [.record 0, .read 0 none 1, .record 1, .read 0 none 1]

/-- The second one records its event first, and a consumer reads it. -/
def overtakenRecords : List Step := twoPuts ++ [.record 1, .read 0 none 1, .record 0, .read 0 none 1]

theorem streams_inOrderRecords :
    ∃ s, runs State.act (State.opened 0 (fun _ => none) 0) inOrderRecords = some s ∧
      (s.store.stream "default").map CDCEvent.offset = [1, 2] ∧
      (s.store.stream "default").Pairwise fun e e' => e.offset < e'.offset := by
  have h : (runs State.act (State.opened 0 (fun _ => none) 0) inOrderRecords).map
      (fun s => (s.store.stream "default").map CDCEvent.offset) = some [1, 2] := by
    decide +kernel
  have hturn : check State.act InTurn (State.opened 0 (fun _ => none) 0) inOrderRecords := by
    decide +kernel
  obtain ⟨s, hrun, hoffsets⟩ := Option.map_eq_some_iff.mp h
  exact ⟨s, hrun, hoffsets, (streams_run (along_of_check hturn) hrun).1 "default"⟩

/-- **A call that is overtaken** leaves its event behind a later one, and a
consumer that has read that one never gets it: the stream holds an event
with the offset 1, which the consumer has not received and will not ask
for. -/
theorem overtaken_breaks_stream :
    ∃ s, runs State.act (State.opened 0 (fun _ => none) 0) overtakenRecords = some s ∧
      s.calls.map Call.phase = [.acknowledged, .acknowledged] ∧
      (s.store.stream "default").map CDCEvent.offset = [2, 1] ∧
      s.consumers.map (fun c => (c.reader.start, c.reader.offset,
        c.reader.received.map CDCEvent.offset)) = [(0, 2, [2])] := by
  have h : (runs State.act (State.opened 0 (fun _ => none) 0) overtakenRecords).map
      (fun s => (s.calls.map Call.phase, (s.store.stream "default").map CDCEvent.offset,
        s.consumers.map (fun c => (c.reader.start, c.reader.offset,
          c.reader.received.map CDCEvent.offset)))) =
      some ([.acknowledged, .acknowledged], [2, 1], [(0, 2, [2])]) := by
    decide +kernel
  obtain ⟨s, hrun, hs⟩ := Option.map_eq_some_iff.mp h
  obtain ⟨hcalls, hrest⟩ := Prod.mk.inj hs
  obtain ⟨hstream, hconsumers⟩ := Prod.mk.inj hrest
  exact ⟨s, hrun, hcalls, hstream, hconsumers⟩

end Runs

end LSMEngine.Cdc
