import LSMEngine.Common.Runs
import LSMEngine.Server.Model.Requests
/-!
# Server — pending requests stay

The order of the store has the ids of the tracked requests, each once, and
the request of every handler that still runs is among them and pending
(`Tracks`). The compaction takes finished requests from the front of the
order until enough are gone or all that is left is pending
(`compactLoop_spec`), so it never takes one that a handler will finish, and
what it leaves is as it was (`tracks_run`).

That is so as long as the number of a new request is not that of one that
is still tracked. The counter has 64 bits, and starts again when it has
come to its end (`numbers_repeat`).
-/

namespace LSMEngine.Server

variable {s s' : Tracker} {store : WriteRequestStore} {order : List String} {statusMap : Statuses}
  {drop : ℕ} {id : String}

/-! ## Compaction -/

/-- The request is pending. -/
def Pending (statusMap : Statuses) (id : String) : Prop :=
  ∃ status, statusMap.lookup id = some status ∧ status.state = .pending

theorem Pending.mem (h : Pending statusMap id) : id ∈ statusMap := by
  obtain ⟨status, hstatus, -⟩ := h
  exact AList.lookup_isSome.mp (Option.isSome_of_eq_some hstatus)

theorem Pending.congr {statusMap' : Statuses} (h : Pending statusMap id)
    (hlookup : statusMap'.lookup id = statusMap.lookup id) : Pending statusMap' id := by
  obtain ⟨status, hstatus, hpending⟩ := h
  exact ⟨status, hlookup.trans hstatus, hpending⟩

/-- **What the compaction keeps** of an order of tracked ids. -/
structure Compacts (drop : ℕ) (order : List String) (statusMap : Statuses)
    (kept : List String × Statuses) : Prop where
  sublist : kept.1.Sublist order
  lookup : ∀ id, (id ∈ order → id ∈ kept.1) → kept.2.lookup id = statusMap.lookup id
  gone : ∀ id ∈ order, id ∉ kept.1 → kept.2.lookup id = none
  pending : ∀ id ∈ order, Pending statusMap id → id ∈ kept.1
  bounded : kept.1.length + drop ≤ order.length ∨ ∀ id ∈ kept.1, Pending statusMap id

/-- A finished request in front goes. -/
theorem Compacts.evict {kept : List String × Statuses} {status : WriteRequestStatus}
    (h : Compacts (drop - 1) order (statusMap.erase id) kept) (hid : id ∉ order)
    (hstatus : statusMap.lookup id = some status) (hdrop : 0 < drop)
    (hfinished : status.state ≠ .pending) : Compacts drop (id :: order) statusMap kept := by
  have hnot : id ∉ kept.1 := fun hmem => hid (h.sublist.subset hmem)
  have hsame : ∀ id' ∈ order, (statusMap.erase id).lookup id' = statusMap.lookup id' :=
    fun id' hid' => AList.lookup_erase_ne (ne_of_mem_of_not_mem hid' hid)
  refine ⟨h.sublist.cons id, fun id' hkept => ?_, fun id' hid' hgone => ?_,
    fun id' hid' hpending => ?_, ?_⟩
  · have hne : id' ≠ id := by
      rintro rfl
      exact hnot (hkept List.mem_cons_self)
    rw [h.lookup id' fun hid' => hkept (List.mem_cons_of_mem _ hid'), AList.lookup_erase_ne hne]
  · rcases List.mem_cons.mp hid' with rfl | hid'
    · rw [h.lookup id' fun hc => absurd hc hid, AList.lookup_erase]
    · exact h.gone id' hid' hgone
  · rcases List.mem_cons.mp hid' with rfl | hid'
    · obtain ⟨status', hstatus', hpending⟩ := hpending
      rw [Option.some.inj (hstatus.symm.trans hstatus')] at hfinished
      exact absurd hpending hfinished
    · exact h.pending id' hid' (hpending.congr (hsame id' hid'))
  · refine h.bounded.imp (fun hle => ?_) fun hall id' hid' => ?_
    · rw [List.length_cons]
      omega
    · exact (hall id' hid').congr (hsame id' (h.sublist.subset hid')).symm

/-- Any other request in front stays. -/
theorem Compacts.keep {kept : List String × Statuses} {status : WriteRequestStatus}
    (h : Compacts drop order statusMap kept) (hid : id ∉ order)
    (hstatus : statusMap.lookup id = some status)
    (hstays : ¬(0 < drop ∧ status.state ≠ .pending)) :
    Compacts drop (id :: order) statusMap (id :: kept.1, kept.2) := by
  refine ⟨h.sublist.cons_cons id, fun id' hkept => ?_, fun id' hid' hgone => ?_,
    fun id' hid' hpending => ?_, ?_⟩
  · refine h.lookup id' fun hid' => ?_
    exact (List.mem_cons.mp (hkept (List.mem_cons_of_mem _ hid'))).resolve_left
      (ne_of_mem_of_not_mem hid' hid)
  · obtain ⟨hne, hgone⟩ := not_or.mp (mt List.mem_cons.mpr hgone)
    exact h.gone id' ((List.mem_cons.mp hid').resolve_left hne) hgone
  · refine List.mem_cons.mpr ((List.mem_cons.mp hid').imp_right fun hid' => ?_)
    exact h.pending id' hid' hpending
  · have hlength := h.sublist.length_le
    rw [List.length_cons, List.length_cons]
    by_cases hpending : status.state = .pending
    · refine h.bounded.imp (fun hle => by omega) fun hall id' hid' => ?_
      rcases List.mem_cons.mp hid' with rfl | hid'
      · exact ⟨status, hstatus, hpending⟩
      · exact hall id' hid'
    · have hzero : drop = 0 := by
        by_contra hpos
        exact hstays ⟨Nat.pos_of_ne_zero hpos, hpending⟩
      exact Or.inl (by omega)

/-- **The loop of the compaction.** -/
theorem compactLoop_spec (hnodup : order.Nodup) (htracked : ∀ id ∈ order, id ∈ statusMap) :
    Compacts drop order statusMap (compactLoop drop order statusMap) := by
  induction order generalizing drop statusMap with
  | nil =>
    exact ⟨List.Sublist.refl _, fun _ _ => rfl, fun id hid => absurd hid List.not_mem_nil,
      fun id hid => absurd hid List.not_mem_nil, Or.inr fun id hid => absurd hid List.not_mem_nil⟩
  | cons id order ih =>
    obtain ⟨hnot, hnodup⟩ := List.nodup_cons.mp hnodup
    obtain ⟨status, hstatus⟩ := Option.isSome_iff_exists.mp
      (AList.lookup_isSome.mpr (htracked id List.mem_cons_self))
    have htracked : ∀ id' ∈ order, id' ∈ statusMap := fun id' hid' =>
      htracked id' (List.mem_cons_of_mem _ hid')
    rw [compactLoop, hstatus]
    dsimp only
    split
    · next hgoes =>
      refine (ih hnodup fun id' hid' => ?_).evict hnot hstatus hgoes.1 hgoes.2
      exact AList.mem_erase.mpr ⟨ne_of_mem_of_not_mem hid' hnot, htracked id' hid'⟩
    · next hstays => exact (ih hnodup htracked).keep hnot hstatus hstays

/-! ## The store -/

/-- **The order has the ids of the tracked requests**, each once. -/
structure Listed (store : WriteRequestStore) : Prop where
  nodup : store.order.Nodup
  mem : ∀ id, id ∈ store.order ↔ id ∈ store.statusMap

/-- The number of pending requests. -/
def pendingCount (store : WriteRequestStore) : ℕ :=
  store.order.countP fun id => (store.get id).any fun status => status.state = .pending

theorem pendingCount_eq_length (h : ∀ id ∈ store.order, Pending store.statusMap id) :
    pendingCount store = store.order.length := by
  refine List.countP_eq_length.mpr fun id hid => ?_
  obtain ⟨status, hstatus, hpending⟩ := h id hid
  exact Option.any_eq_true _ _ |>.mpr ⟨status, hstatus, decide_eq_true hpending⟩

/-- **A store that has lost finished requests only.** -/
structure Trimmed (store store' : WriteRequestStore) : Prop where
  max : store'.max = store.max
  listed : Listed store'
  pending : ∀ id, Pending store.statusMap id → Pending store'.statusMap id
  lookup : ∀ id, store'.statusMap.lookup id = none ∨
    store'.statusMap.lookup id = store.statusMap.lookup id
  bounded : store'.order.length ≤ Max.max store.max (pendingCount store')

/-- **A compaction.** -/
theorem Listed.compact (h : Listed store) : Trimmed store store.compact := by
  rw [WriteRequestStore.compact]
  split
  · next hle => exact ⟨rfl, h, fun _ hp => hp, fun _ => Or.inr rfl, le_max_of_le_left hle⟩
  next hmore =>
  have hc : Compacts (store.order.length - store.max) _ _ _ :=
    compactLoop_spec h.nodup fun id hid => (h.mem id).mp hid
  generalize compactLoop _ _ _ = kept at hc
  have hlookup : ∀ id ∈ kept.1, kept.2.lookup id = store.statusMap.lookup id :=
    fun id hid => hc.lookup id fun _ => hid
  refine ⟨rfl, ⟨h.nodup.sublist hc.sublist, fun id => ⟨fun hid => ?_, fun hid => ?_⟩⟩,
    fun id hp => ?_, fun id => ?_, ?_⟩
  · rw [← AList.lookup_isSome, hlookup id hid, AList.lookup_isSome]
    exact (h.mem id).mp (hc.sublist.subset hid)
  · by_contra hgone
    refine AList.lookup_eq_none.mp ?_ hid
    by_cases hmem : id ∈ store.order
    · exact hc.gone id hmem hgone
    · rw [hc.lookup id fun hc => absurd hc hmem, AList.lookup_eq_none]
      exact fun hc => hmem ((h.mem id).mpr hc)
  · exact hp.congr (hlookup id (hc.pending id ((h.mem id).mpr hp.mem) hp))
  · by_cases hkept : id ∈ store.order → id ∈ kept.1
    · exact Or.inr (hc.lookup id hkept)
    · obtain ⟨hmem, hgone⟩ := Classical.not_imp.mp hkept
      exact Or.inl (hc.gone id hmem hgone)
  · rcases hc.bounded with hle | hall
    · refine le_max_of_le_left ?_
      show kept.1.length ≤ store.max
      omega
    · refine le_max_of_le_right (pendingCount_eq_length fun id hid => ?_).ge
      exact (hall id hid).congr (hlookup id hid)

/-- **A new request** under an id that is not tracked. -/
theorem Listed.insert (h : Listed store) {n : UInt64}
    (hnew : WriteRequestStore.requestID n ∉ store.statusMap) :
    ∃ before, store.insert n = before.compact ∧ before.max = store.max ∧ Listed before ∧
      Pending before.statusMap (WriteRequestStore.requestID n) ∧
      ∀ id ≠ WriteRequestStore.requestID n,
        before.statusMap.lookup id = store.statusMap.lookup id := by
  refine ⟨_, rfl, rfl, ⟨?_, fun id => ?_⟩, ⟨_, AList.lookup_insert _, rfl⟩, fun id hne =>
    AList.lookup_insert_ne hne⟩
  · refine List.nodup_append.mpr ⟨h.nodup, List.nodup_singleton _, fun id hid id' hid' heq => ?_⟩
    rw [List.mem_singleton.mp hid'] at heq
    exact hnew ((h.mem _).mp (heq ▸ hid))
  · rw [List.mem_append, List.mem_singleton, h.mem, AList.mem_insert, or_comm]

/-! ## Runs -/

/-- **The state of a server**: the requests of the handlers that run are
tracked and pending, and each handler has its own. -/
structure Tracks (limit : ℕ) (s : Tracker) : Prop where
  max : s.store.max = limit
  listed : Listed s.store
  running : ∀ (i : ℕ) id, s.handlers[i]? = some (Handler.running id) → Pending s.store.statusMap id
  distinct : ∀ (i j : ℕ) id, s.handlers[i]? = some (Handler.running id) →
    s.handlers[j]? = some (Handler.running id) → i = j

/-- The number a handler has is not that of a tracked request. -/
def Handler.fresh (store : WriteRequestStore) : Handler → Bool
  | .numbered n => WriteRequestStore.requestID n ∉ store.statusMap
  | _ => true

/-- **No `New` takes the id of a tracked request.** -/
def Fresh (s : Tracker) : Step → Prop
  | .new i => ∀ h ∈ s.handlers[i]?, h.fresh s.store
  | _ => True

/-- **What a step does to the requests that are there**: a pending one
stays tracked, a finished one stays as it is or goes. -/
structure Preserves (s s' : Tracker) : Prop where
  pending : ∀ id, Pending s.store.statusMap id → id ∈ s'.store.statusMap
  finished : ∀ id status, s.store.get id = some status → status.state ≠ .pending →
    s'.store.get id = none ∨ s'.store.get id = some status

variable {limit : ℕ} {step : Step}

theorem Preserves.refl (s : Tracker) : Preserves s s :=
  ⟨fun _ hp => hp.mem, fun _ _ hget _ => Or.inr hget⟩

/-- **What a step does.** -/
theorem act_cases (hact : s.act step = some s') :
    (step = .number ∧ s' = ⟨{ s.store with seq := s.store.seq + 1 },
      s.handlers ++ [.numbered (s.store.seq + 1)]⟩) ∨
    (∃ i n, step = .new i ∧ s.handlers[i]? = some (.numbered n) ∧
      s' = ⟨s.store.insert n, s.handlers.set i (.running (WriteRequestStore.requestID n))⟩) ∨
    (∃ i err id, step = .finish i err ∧ s.handlers[i]? = some (.running id) ∧
      s' = ⟨s.store.finish id err, s.handlers.set i .done⟩) ∨
    (∃ id, step = .get id) ∧ s' = s := by
  cases step with
  | number => exact Or.inl ⟨rfl, (Option.some.inj hact).symm⟩
  | get id => exact Or.inr (Or.inr (Or.inr ⟨⟨id, rfl⟩, (Option.some.inj hact).symm⟩))
  | new i =>
    rw [Tracker.act] at hact
    split at hact
    · next n hi => exact Or.inr (Or.inl ⟨i, n, rfl, hi, (Option.some.inj hact).symm⟩)
    · cases hact
  | finish i err =>
    rw [Tracker.act] at hact
    split at hact
    · next id hi =>
      exact Or.inr (Or.inr (Or.inl ⟨i, err, id, rfl, hi, (Option.some.inj hact).symm⟩))
    · cases hact

theorem getElem?_set_cases {hs : List Handler} {i j : ℕ} {h h' : Handler}
    (hj : (hs.set i h)[j]? = some h') : (j = i ∧ h = h') ∨ (j ≠ i ∧ hs[j]? = some h') := by
  by_cases heq : j = i
  · subst heq
    rw [List.getElem?_set_self'] at hj
    obtain ⟨_, -, hh⟩ := Option.map_eq_some_iff.mp hj
    exact Or.inl ⟨rfl, hh⟩
  · rw [List.getElem?_set_ne (Ne.symm heq)] at hj
    exact Or.inr ⟨heq, hj⟩

/-- What a `New` does. -/
theorem Tracks.new (h : Tracks limit s) {i : ℕ} {n : UInt64}
    (hnew : WriteRequestStore.requestID n ∉ s.store.statusMap) {s' : Tracker}
    (hs' : s' =
      ⟨s.store.insert n, s.handlers.set i (.running (WriteRequestStore.requestID n))⟩) :
    Tracks limit s' ∧ Preserves s s' ∧
      s'.store.order.length ≤ Max.max limit (pendingCount s'.store) := by
  obtain ⟨before, heq, hmax, hlisted, hpending, hothers⟩ := h.listed.insert hnew
  have htrim := hlisted.compact
  have hne : ∀ id, id ∈ s.store.statusMap → id ≠ WriteRequestStore.requestID n :=
    fun id hmem hc => hnew (hc ▸ hmem)
  have hstays : ∀ id, Pending s.store.statusMap id → Pending before.compact.statusMap id :=
    fun id hp => htrim.pending id (hp.congr (hothers id (hne id hp.mem)))
  rw [heq] at hs'
  subst hs'
  refine ⟨⟨htrim.max.trans (hmax.trans h.max), htrim.listed, fun j id hj => ?_,
    fun j k id hj hk => ?_⟩, ⟨fun id hp => (hstays id hp).mem, fun id status hget _ => ?_⟩, ?_⟩
  · rcases getElem?_set_cases hj with ⟨-, hid⟩ | ⟨-, hj⟩
    · rw [← Handler.running.inj hid]
      exact htrim.pending _ hpending
    · exact hstays id (h.running j id hj)
  · rcases getElem?_set_cases hj with ⟨hji, hid⟩ | ⟨-, hj⟩ <;>
      rcases getElem?_set_cases hk with ⟨hki, hid'⟩ | ⟨-, hk⟩
    · exact hji.trans hki.symm
    · exact absurd (Handler.running.inj hid).symm (hne id (h.running k id hk).mem)
    · exact absurd (Handler.running.inj hid').symm (hne id (h.running j id hj).mem)
    · exact h.distinct j k id hj hk
  · refine (htrim.lookup id).imp_right fun hsame => ?_
    exact hsame.trans ((hothers id (hne id (AList.lookup_isSome.mp
      (Option.isSome_of_eq_some hget)))).trans hget)
  · rw [← h.max, ← hmax]
    exact htrim.bounded

/-- What a `Commit` or a `Reject` does: its request is pending, so it is
tracked, and no other handler has it. -/
theorem Tracks.finish (h : Tracks limit s) {i : ℕ} {id : String} {err : Option String}
    (hi : s.handlers[i]? = some (.running id)) {s' : Tracker}
    (hs' : s' = ⟨s.store.finish id err, s.handlers.set i .done⟩) :
    Tracks limit s' ∧ Preserves s s' := by
  subst hs'
  have hpending := h.running i id hi
  have hlookup : ∀ id' ≠ id, (s.store.finish id err).statusMap.lookup id' =
      s.store.statusMap.lookup id' := fun id' hne => AList.lookup_insert_ne hne
  have hmem : ∀ id', id' ∈ (s.store.finish id err).statusMap ↔ id' ∈ s.store.statusMap := by
    intro id'
    refine (AList.mem_insert _).trans ⟨?_, Or.inr⟩
    rintro (rfl | hmem)
    · exact hpending.mem
    · exact hmem
  refine ⟨⟨h.max, ⟨h.listed.nodup, fun id' => (h.listed.mem id').trans (hmem id').symm⟩,
    fun j id' hj => ?_, fun j k id' hj hk => ?_⟩,
    ⟨fun id' hp => (hmem id').mpr hp.mem, fun id' status hget hfin => Or.inr ?_⟩⟩
  · rcases getElem?_set_cases hj with ⟨-, hdone⟩ | ⟨hne, hj⟩
    · cases hdone
    · have hid : id' ≠ id := fun heq => hne (h.distinct j i id (heq ▸ hj) hi)
      exact (h.running j id' hj).congr (hlookup id' hid)
  · rcases getElem?_set_cases hj with ⟨-, hdone⟩ | ⟨-, hj⟩
    · cases hdone
    · rcases getElem?_set_cases hk with ⟨-, hdone⟩ | ⟨-, hk⟩
      · cases hdone
      · exact h.distinct j k id' hj hk
  · refine (hlookup id' ?_).trans hget
    rintro rfl
    obtain ⟨status', hstatus', hp⟩ := hpending
    rw [Option.some.inj (hget.symm.trans hstatus')] at hfin
    exact hfin hp

/-- A new handler has no request. -/
theorem Tracks.number (h : Tracks limit s) {n : UInt64} {s' : Tracker}
    (hs' : s' = ⟨{ s.store with seq := n }, s.handlers ++ [.numbered n]⟩) :
    Tracks limit s' ∧ Preserves s s' := by
  subst hs'
  have hold : ∀ {j : ℕ} {id}, (s.handlers ++ [Handler.numbered n])[j]? = some (Handler.running id) →
      s.handlers[j]? = some (Handler.running id) := by
    intro j id hj
    rw [List.getElem?_append] at hj
    split at hj
    · exact hj
    · cases (List.mem_singleton.mp (List.mem_of_getElem? hj))
  refine ⟨⟨h.max, ⟨h.listed.nodup, h.listed.mem⟩, fun j id hj => h.running j id (hold hj),
    fun j k id hj hk => h.distinct j k id (hold hj) (hold hk)⟩, fun _ hp => hp.mem,
    fun _ _ hget _ => Or.inr hget⟩

/-- **One step.** -/
theorem Tracks.act (h : Tracks limit s) (hact : s.act step = some s') (hfresh : Fresh s step) :
    Tracks limit s' ∧ Preserves s s' ∧
      ∀ i, step = .new i → s'.store.order.length ≤ Max.max limit (pendingCount s'.store) := by
  rcases act_cases hact with ⟨rfl, hs'⟩ | ⟨i, n, rfl, hi, hs'⟩ | ⟨i, err, id, rfl, hi, hs'⟩ |
    ⟨⟨id, rfl⟩, rfl⟩
  · obtain ⟨htracks, hpres⟩ := h.number hs'
    exact ⟨htracks, hpres, fun _ hstep => by cases hstep⟩
  · obtain ⟨htracks, hpres, hbound⟩ := h.new (of_decide_eq_true (hfresh _ hi)) hs'
    exact ⟨htracks, hpres, fun _ _ => hbound⟩
  · obtain ⟨htracks, hpres⟩ := h.finish hi hs'
    exact ⟨htracks, hpres, fun _ hstep => by cases hstep⟩
  · exact ⟨h, .refl s', fun _ hstep => by cases hstep⟩

theorem tracks_start (max : ℤ) : Tracks (newWriteRequestStore max).max (.start max) :=
  ⟨rfl, ⟨List.nodup_nil, fun _ => iff_of_false List.not_mem_nil (AList.notMem_empty _)⟩,
    fun _ _ h => by simp [Tracker.start] at h, fun _ _ _ h => by simp [Tracker.start] at h⟩

/-! ## Numbers -/

/-- The id of the request of handler `i`, as long as the counter has not
come round. -/
def nthID (i : ℕ) : String := WriteRequestStore.requestID (UInt64.ofNat (i + 1))

theorem requestID_injective : Function.Injective WriteRequestStore.requestID := by
  intro n m h
  have hl := congrArg String.toList h
  rw [WriteRequestStore.requestID, WriteRequestStore.requestID, String.toList_append,
    String.toList_append, List.append_cancel_left_eq] at hl
  have hrepr : ∀ k : ℕ, (toString k).toList = Nat.toDigits 10 k := fun _ => Nat.toList_repr
  rw [hrepr, hrepr] at hl
  have hnat := congrArg (Nat.ofDigitChars 10 · 0) hl
  simp only [Nat.ofDigitChars_ten_toDigits] at hnat
  exact UInt64.toNat_inj.mp hnat

theorem nthID_inj {i j : ℕ} (hi : i + 1 < 2 ^ 64) (hj : j + 1 < 2 ^ 64) (h : nthID i = nthID j) :
    i = j := by
  have hnat := congrArg UInt64.toNat (requestID_injective h)
  rw [UInt64.toNat_ofNat', UInt64.toNat_ofNat', Nat.mod_eq_of_lt hi, Nat.mod_eq_of_lt hj] at hnat
  omega

/-- **Handler `i` has the number `i + 1`**, and a tracked id is that of a
handler that has done its `New`. -/
structure Numbered (s : Tracker) : Prop where
  seq : s.store.seq = UInt64.ofNat s.handlers.length
  number : ∀ (i : ℕ) n, s.handlers[i]? = some (Handler.numbered n) → n = UInt64.ofNat (i + 1)
  tracked : ∀ id ∈ s.store.statusMap, ∃ i : ℕ, id = nthID i ∧ i < s.handlers.length ∧
    ∀ n, s.handlers[i]? ≠ some (Handler.numbered n)

/-- As long as there are fewer handlers than numbers, numbers are new. -/
theorem Numbered.fresh (h : Numbered s) (hfew : s.handlers.length < 2 ^ 64) : Fresh s step := by
  cases step with
  | new i =>
    intro handler hi
    cases handler with
    | numbered n =>
      refine decide_eq_true fun hmem => ?_
      obtain ⟨j, hid, hj, hnot⟩ := h.tracked _ hmem
      have hlt : i < s.handlers.length := (List.getElem?_eq_some_iff.mp hi).1
      rw [h.number i n hi] at hid
      have heq : i = j := nthID_inj (by omega) (by omega) hid
      exact hnot n (heq ▸ hi)
    | running id => rfl
    | done => rfl
  | number => trivial
  | finish i err => trivial
  | get id => trivial

theorem seq_compact (store : WriteRequestStore) : store.compact.seq = store.seq := by
  rw [WriteRequestStore.compact]
  split <;> rfl

/-- A handler that has gone on has no number any more. -/
theorem Numbered.tracked_set (h : Numbered s) {i : ℕ} {handler : Handler}
    (hhandler : ∀ n, handler ≠ .numbered n) {id : String} (hid : id ∈ s.store.statusMap) :
    ∃ j, id = nthID j ∧ j < (s.handlers.set i handler).length ∧
      ∀ n, (s.handlers.set i handler)[j]? ≠ some (.numbered n) := by
  obtain ⟨j, hj, hlt, hnot⟩ := h.tracked id hid
  refine ⟨j, hj, List.length_set.symm ▸ hlt, fun n hn => ?_⟩
  rcases getElem?_set_cases hn with ⟨-, heq⟩ | ⟨-, hold⟩
  · exact hhandler n heq
  · exact hnot n hold

theorem Numbered.number_set (h : Numbered s) {i : ℕ} {handler : Handler}
    (hhandler : ∀ n, handler ≠ .numbered n) (j : ℕ) (n : UInt64)
    (hj : (s.handlers.set i handler)[j]? = some (.numbered n)) : n = UInt64.ofNat (j + 1) := by
  rcases getElem?_set_cases hj with ⟨-, heq⟩ | ⟨-, hold⟩
  · exact absurd heq (hhandler n)
  · exact h.number j n hold

theorem Numbered.act (h : Numbered s) (htracks : Tracks limit s) (hfresh : Fresh s step)
    (hact : s.act step = some s') : Numbered s' := by
  rcases act_cases hact with ⟨rfl, rfl⟩ | ⟨i, n, rfl, hi, rfl⟩ | ⟨i, err, id, rfl, hi, rfl⟩ |
    ⟨-, rfl⟩
  · -- a new request takes the next number
    have hnext : s.store.seq + 1 = UInt64.ofNat (s.handlers.length + 1) := by
      rw [h.seq, UInt64.ofNat_add]
      rfl
    refine ⟨by rw [List.length_append]; exact hnext, fun j n hj => ?_, fun id hid => ?_⟩
    · rw [List.getElem?_append] at hj
      split at hj
      · exact h.number j n hj
      · obtain ⟨hlt, hn⟩ := List.getElem?_eq_some_iff.mp hj
        rw [List.length_singleton] at hlt
        rw [List.getElem_singleton, Handler.numbered.injEq, hnext] at hn
        rw [← hn, show j = s.handlers.length by omega]
    · obtain ⟨j, hj, hlt, hnot⟩ := h.tracked id hid
      refine ⟨j, hj, List.length_append ▸ Nat.lt_add_right _ hlt, fun n hn => hnot n ?_⟩
      rwa [List.getElem?_append_left hlt] at hn
  · obtain ⟨before, heq, -, hlisted, -, hothers⟩ :=
      htracks.listed.insert (of_decide_eq_true (hfresh _ hi))
    have hrunning : ∀ m, Handler.running (WriteRequestStore.requestID n) ≠ .numbered m :=
      fun m hm => by cases hm
    refine ⟨?_, h.number_set hrunning, fun id hid => ?_⟩
    · rw [List.length_set, ← h.seq]
      exact seq_compact _
    -- the request itself is at its own place; any other was tracked before, as the bound only drops
    by_cases hself : id = WriteRequestStore.requestID n
    · refine ⟨i, by rw [hself, h.number i n hi, nthID], ?_, fun m hm => ?_⟩
      · rw [List.length_set]
        exact (List.getElem?_eq_some_iff.mp hi).1
      · rcases getElem?_set_cases hm with ⟨-, hc⟩ | ⟨hne, -⟩
        · exact hrunning m hc
        · exact hne rfl
    · refine h.tracked_set hrunning ?_
      rw [heq] at hid
      have hsame := (hlisted.compact.lookup id).resolve_left fun hnone =>
        AList.lookup_eq_none.mp hnone hid
      rwa [← AList.lookup_isSome, ← hothers id hself, ← hsame, AList.lookup_isSome]
  · have hdone : ∀ m, Handler.done ≠ .numbered m := fun m hm => by cases hm
    refine ⟨by rw [List.length_set]; exact h.seq, h.number_set hdone,
      fun id' hid' => h.tracked_set hdone ?_⟩
    rcases (AList.mem_insert _).mp hid' with rfl | hmem
    · exact (htracks.running i id' hi).mem
    · exact hmem
  · exact h

/-- Each number makes one handler. -/
theorem length_act (hact : s.act step = some s') :
    s'.handlers.length = s.handlers.length + [step].count .number := by
  rcases act_cases hact with ⟨rfl, rfl⟩ | ⟨i, n, rfl, -, rfl⟩ | ⟨i, err, id, rfl, -, rfl⟩ |
    ⟨⟨id, rfl⟩, rfl⟩
  · exact List.length_append
  · exact List.length_set
  · exact List.length_set
  · rfl

theorem length_handlers {steps : List Step} (hrun : runs Tracker.act s steps = some s') :
    s'.handlers.length = s.handlers.length + steps.count .number := by
  induction steps generalizing s with
  | nil => rw [Option.some.inj hrun, List.count_nil, Nat.add_zero]
  | cons step steps ih =>
    obtain ⟨s₁, hact, hrest⟩ := Option.bind_eq_some_iff.mp hrun
    rw [ih hrest, length_act hact, Nat.add_assoc, ← List.count_append]
    rfl

/-- **Fewer requests than numbers**: no `New` takes the id of a tracked
request. -/
theorem fresh_of_few {max : ℤ} {steps : List Step} (hfew : steps.count .number < 2 ^ 64) :
    Along Tracker.act Fresh (.start max) steps := by
  -- a state of the run has as many handlers as numbers were taken before it
  have hlength : ∀ pre post s, steps = pre ++ post →
      runs Tracker.act (.start max) pre = some s → s.handlers.length < 2 ^ 64 := by
    rintro pre post s rfl hpre
    have hcount := length_handlers hpre
    rw [List.count_append] at hfew
    change _ = 0 + _ at hcount
    omega
  have hnumbered : Numbered (.start max) :=
    ⟨rfl, fun _ _ h => by simp [Tracker.start] at h, fun _ h => absurd h (AList.notMem_empty _)⟩
  intro pre step post s hsteps hpre
  have hinv : Tracks (newWriteRequestStore max).max s ∧ Numbered s := by
    refine runs_induction (P := fun s => Tracks (newWriteRequestStore max).max s ∧ Numbered s)
      (C := fun s _ => s.handlers.length < 2 ^ 64) ?_ ⟨tracks_start max, hnumbered⟩ hpre ?_
    · intro s step s' h hlt hact
      have hfresh : Fresh s step := h.2.fresh hlt
      exact ⟨(h.1.act hact hfresh).1, h.2.act h.1 hfresh hact⟩
    · intro pre' step' post' s₁ hpre' hrun'
      refine hlength pre' (step' :: post' ++ step :: post) s₁ ?_ hrun'
      rw [hsteps, hpre', List.append_assoc]
  exact hinv.2.fresh (hlength pre (step :: post) s hsteps hpre)

/-- **Write request tracking keeps unfinished requests.** In every run in
which no `New` takes the id of a tracked request, and so in every run with
fewer than 2⁶⁴ requests, the order has the ids of the tracked requests,
each once, and the requests of the handlers that run are tracked and
pending; its last step keeps the pending requests and the state of every
finished one that it does not take out, and leaves no more requests than
the limit, or than there are pending ones, if it is a `New`. -/
theorem tracks_run {max : ℤ} {steps : List Step}
    (hrun : runs Tracker.act (.start max) steps = some s) (hact : s.act step = some s')
    (hfew : (steps ++ [step]).count .number < 2 ^ 64 ∨
      Along Tracker.act Fresh (.start max) (steps ++ [step])) :
    Tracks (newWriteRequestStore max).max s ∧ Tracks (newWriteRequestStore max).max s' ∧
      Preserves s s' ∧ ∀ i, step = .new i → s'.store.order.length ≤
        Max.max (newWriteRequestStore max).max (pendingCount s'.store) := by
  have hfresh : Along Tracker.act Fresh (.start max) (steps ++ [step]) :=
    hfew.elim fresh_of_few fun h => h
  have htracks : Tracks (newWriteRequestStore max).max s := by
    refine runs_induction (fun s step s' h hfresh hact => (h.act hact hfresh).1)
      (tracks_start max) hrun fun pre a post s₁ hsteps hpre => ?_
    exact hfresh pre a (post ++ [step]) s₁ (by rw [hsteps, List.append_assoc]; rfl) hpre
  exact ⟨htracks, htracks.act hact (hfresh steps step [] s rfl hrun)⟩

/-- Three requests under a limit of one: the second finishes first, and
goes when the third comes. -/
theorem tracks_run_three :
    ∃ s s', runs Tracker.act (.start 1)
        [.number, .new 0, .number, .new 1, .finish 1 none, .number] = some s ∧
      s.act (.new 2) = some s' ∧ s'.store.order = ["wr-1", "wr-3"] ∧
      Tracks (newWriteRequestStore 1).max s' := by
  refine ⟨_, _, rfl, rfl, by decide +kernel, ?_⟩
  exact (@tracks_run _ _ (.new 2) 1
    [.number, .new 0, .number, .new 1, .finish 1 none, .number] rfl rfl
    (Or.inl (by decide))).2.1

/-! ## The counter comes round -/

/-- So many handlers take a number. -/
theorem numbers_run (s : Tracker) (n : ℕ) :
    ∃ hs, hs.length = n ∧ runs Tracker.act s (List.replicate n .number) =
      some ⟨{ s.store with seq := s.store.seq + UInt64.ofNat n }, s.handlers ++ hs⟩ := by
  induction n with
  | zero => exact ⟨[], rfl, by simp [runs]⟩
  | succ n ih =>
    obtain ⟨hs, hlength, hrun⟩ := ih
    refine ⟨hs ++ [.numbered (s.store.seq + UInt64.ofNat n + 1)], by simp [hlength], ?_⟩
    rw [List.replicate_succ', runs_append, hrun, Option.bind_some, runs, Tracker.act,
      Option.bind_some, runs, ← List.append_assoc, UInt64.ofNat_add, ← UInt64.add_assoc]
    rfl

/-- A store with one request, which is pending. -/
def firstRequest : WriteRequestStore :=
  WriteRequestStore.insert { newWriteRequestStore 1 with seq := 1 } 1

/-- **A request can get the id of one that is still pending**: after 2⁶⁴
others, the counter is where it was. -/
theorem numbers_repeat :
    ∃ steps s, runs Tracker.act (.start 1) steps = some s ∧ ¬s.store.order.Nodup := by
  have hfirst : runs Tracker.act (.start 1) [.number, .new 0] =
      some ⟨firstRequest, [.running (WriteRequestStore.requestID 1)]⟩ := rfl
  obtain ⟨hs, hlength, hrun⟩ :=
    numbers_run ⟨firstRequest, [.running (WriteRequestStore.requestID 1)]⟩ (2 ^ 64 - 1)
  have hround : firstRequest.seq + UInt64.ofNat (2 ^ 64 - 1) + 1 = 1 := by decide +kernel
  obtain ⟨old, hold⟩ : ∃ old, [Handler.running (WriteRequestStore.requestID 1)] ++ hs = old :=
    ⟨_, rfl⟩
  -- the last handler has the number of the first
  have hlast : (old ++ [Handler.numbered 1])[2 ^ 64]? = some (.numbered 1) := by
    have hlen : old.length = 2 ^ 64 := by
      rw [← hold, List.length_append, hlength, List.length_singleton]
      rfl
    rw [← hlen, List.getElem?_concat_length]
  have htwice : ¬(WriteRequestStore.insert { firstRequest with seq := 1 } 1).order.Nodup := by
    decide +kernel
  refine ⟨[.number, .new 0] ++ (List.replicate (2 ^ 64 - 1) .number ++ [.number, .new (2 ^ 64)]),
    ⟨WriteRequestStore.insert { firstRequest with seq := 1 } 1,
      (old ++ [Handler.numbered 1]).set (2 ^ 64) (.running (WriteRequestStore.requestID 1))⟩, ?_, htwice⟩
  rw [runs_append, hfirst, Option.bind_some, runs_append, hrun, Option.bind_some, runs,
    Tracker.act, Option.bind_some, runs, Tracker.act]
  dsimp only
  rw [hround, hold, hlast]
  rfl

end LSMEngine.Server
