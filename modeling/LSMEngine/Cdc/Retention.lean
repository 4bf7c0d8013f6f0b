import LSMEngine.Cdc.Streams
/-!
# Change streams — the retention signal

A stream keeps the last events of its shard, as many as there is room for
(`stream_foldl_append`), and the others are evicted. A read tells whether
an event beyond the offset it was asked for is gone, and tells it from the
oldest event that is left: there is something in between the two offsets.

What is in between need not be events of the shard, since offsets are
given to the writes of all shards. So the signal is right where the offset
is below the last one that was evicted, or next to the oldest one that is
left or behind it, unless it is the last offset there is, whose successor
is 0 (`read_retained`).
-/

namespace LSMEngine.Cdc

open Control (trimSpace)

variable {shardID : String} {limit : ℤ} {offset : UInt64}

/-! ## What a stream retains -/

/-- The events that are appended to the stream of a shard. -/
def appended (shardID : String) (events : List CDCEvent) : List CDCEvent :=
  (events.map fun e => { e with shardID := trimSpace e.shardID }).filter fun e =>
    e.shardID = shardID ∧ e.offset ≠ 0

/-- The events that are still there. -/
def retained (room : ℕ) (l : List CDCEvent) : List CDCEvent := l.drop (l.length - room)

/-- The events that are gone. -/
def evicted (room : ℕ) (l : List CDCEvent) : List CDCEvent := l.take (l.length - room)

theorem push_retained (s : CDCStreamStore) (l : List CDCEvent) (event : CDCEvent) :
    s.push (retained s.capacity l) event = retained s.capacity (l ++ [event]) := by
  have hpos := s.pos
  simp only [CDCStreamStore.push, retained, List.length_append, List.length_drop,
    List.length_singleton]
  have hdrop : ∀ k ≤ l.length, l.drop k ++ [event] = (l ++ [event]).drop k :=
    fun k hk => (List.drop_append_of_le_length hk).symm
  rw [hdrop _ (Nat.sub_le _ _)]
  split
  · rw [List.drop_drop]
    congr 1
    omega
  · congr 1
    omega

/-- One event: it joins the stream of its shard. -/
theorem stream_append_eq (s : CDCStreamStore) (event : CDCEvent) {l : List CDCEvent}
    (hid : shardID ≠ "") (h : s.stream shardID = retained s.capacity l) :
    (s.append event).stream shardID = retained s.capacity (l ++ appended shardID [event]) := by
  rw [CDCStreamStore.append, appended, List.map_singleton, List.filter_singleton, Bool.cond_decide]
  dsimp only
  split
  · next hskip =>
    rw [if_neg (by rintro ⟨rfl, hoffset⟩; exact hskip.elim hid hoffset), List.append_nil, h]
  next hkeep =>
  by_cases hshard : trimSpace event.shardID = shardID
  · subst hshard
    rw [if_pos ⟨rfl, fun hzero => hkeep (Or.inr hzero)⟩, ← push_retained, ← h]
    simp only [CDCStreamStore.stream, AList.lookup_insert, Option.getD_some]
  · rw [if_neg fun hkeep => hshard hkeep.1, List.append_nil, ← h]
    simp only [CDCStreamStore.stream, AList.lookup_insert_ne (Ne.symm hshard)]

/-- **A stream retains the last events of its shard.** -/
theorem stream_foldl_append (hid : shardID ≠ "") (events : List CDCEvent) :
    ∀ (s : CDCStreamStore) (l : List CDCEvent), s.stream shardID = retained s.capacity l →
      (events.foldl CDCStreamStore.append s).stream shardID =
        retained s.capacity (l ++ appended shardID events) := by
  induction events with
  | nil =>
    intro s l h
    rw [appended, List.map_nil, List.filter_nil, List.append_nil]
    exact h
  | cons event events ih =>
    intro s l h
    have hcapacity : (s.append event).capacity = s.capacity := by
      rw [CDCStreamStore.append]
      dsimp only
      split <;> rfl
    have hsplit : appended shardID (event :: events) =
        appended shardID [event] ++ appended shardID events := by
      rw [appended, appended, appended, ← List.filter_append, ← List.map_append]
      rfl
    have hstep := stream_append_eq s event hid h
    rw [← hcapacity] at hstep
    rw [List.foldl_cons, ih _ _ hstep, hcapacity, hsplit, List.append_assoc]

/-! ## Reading it -/

/-- **When the signal is right**, by the offsets appended: the one asked for
has a successor, and it is below the last one that was evicted, or no
further than one before the oldest one that is left. -/
def Telling (room : ℕ) (offsets : List UInt64) (offset : UInt64) : Prop :=
  let gone := offsets.length - room
  offset.toNat + 1 < 2 ^ 64 ∧
    ((∃ last ∈ (offsets.take gone).getLast?, offset < last) ∨
      ∃ oldest ∈ offsets[gone]?, oldest.toNat ≤ offset.toNat + 1)

/-- An event beyond the offset was evicted if the last one was. -/
theorem exists_evicted_iff {gone : List CDCEvent} (hasc : Ascending CDCEvent.offset gone) :
    (∃ e ∈ gone, offset < e.offset) ↔
      ∃ last ∈ (gone.map CDCEvent.offset).getLast?, offset < last := by
  constructor
  · rintro ⟨e, he, hbeyond⟩
    obtain ⟨last, hlast, hle⟩ := hasc.le_getLast he
    exact ⟨last.offset, by rw [List.getLast?_map, hlast]; rfl, lt_of_lt_of_le hbeyond hle⟩
  · rintro ⟨_, hlast, hbeyond⟩
    obtain ⟨e, he, rfl⟩ := List.mem_map.mp (List.mem_of_getLast? hlast)
    exact ⟨e, he, hbeyond⟩

theorem signal_iff {room : ℕ} {appended l : List CDCEvent} {oldest : CDCEvent}
    (hasc : Ascending CDCEvent.offset appended) (hkept : retained room appended = oldest :: l)
    (hpos : oldest.offset ≠ 0) :
    ((oldest.offset > 0 ∧ offset + 1 < oldest.offset) ↔
        ∃ e ∈ evicted room appended, offset < e.offset) ↔
      Telling room (appended.map CDCEvent.offset) offset := by
  have hsplit : evicted room appended ++ oldest :: l = appended := by
    rw [← hkept]
    exact List.take_append_drop _ _
  have hgone : ∀ e ∈ evicted room appended, e.offset.toNat < oldest.offset.toNat := fun e he =>
    UInt64.lt_iff_toNat_lt.mp ((List.pairwise_append.mp (hsplit ▸ hasc)).2.2 e he oldest
      List.mem_cons_self)
  have hold : 0 < oldest.offset.toNat := Nat.pos_of_ne_zero fun h =>
    hpos (UInt64.toNat_inj.mp h)
  have hfirst : (appended.map CDCEvent.offset)[appended.length - room]? = some oldest.offset := by
    rw [List.getElem?_map, ← Nat.add_zero (appended.length - room), ← List.getElem?_drop,
      show appended.drop _ = _ from hkept]
    rfl
  rw [Telling, List.length_map, hfirst, ← List.map_take,
    ← exists_evicted_iff (hasc.sublist (List.take_sublist _ _)), ← evicted]
  simp only [Option.mem_some_iff, exists_eq_left', gt_iff_lt, UInt64.lt_iff_toNat_lt,
    UInt64.toNat_add, UInt64.toNat_zero, UInt64.toNat_one]
  by_cases hlast : offset.toNat + 1 < 2 ^ 64
  · rw [Nat.mod_eq_of_lt hlast]
    constructor
    · intro h
      by_cases hgap : offset.toNat + 1 < oldest.offset.toNat
      · exact ⟨hlast, .inl (h.mp ⟨hold, hgap⟩)⟩
      · exact ⟨hlast, .inr (not_lt.mp hgap)⟩
    · rintro ⟨-, htell⟩
      refine ⟨fun hgap => htell.resolve_right (not_le.mpr hgap.2), ?_⟩
      rintro ⟨e, he, hbeyond⟩
      exact ⟨hold, by have := hgone e he; omega⟩
  · -- at the last offset nothing is beyond, but its successor is 0
    have hmax : offset.toNat + 1 = 2 ^ 64 := by have := offset.toNat_lt; omega
    rw [hmax, Nat.mod_self]
    refine iff_of_false (fun h => ?_) (fun h => absurd h.1 (lt_irrefl _))
    obtain ⟨e, -, hbeyond⟩ := h.mp ⟨hold, hold⟩
    have := e.offset.toNat_lt
    omega

/-- There is an oldest event. -/
theorem exists_oldest {room : ℕ} {l : List CDCEvent} (hroom : 0 < room) (h : l ≠ []) :
    ∃ oldest rest, retained room l = oldest :: rest := by
  have hlength := List.length_pos_of_ne_nil h
  refine List.exists_cons_of_ne_nil fun hnil => ?_
  have := List.drop_eq_nil_iff.mp hnil
  omega

/-- A read of a stream. -/
theorem read_eq_ok {s : CDCStreamStore} {stream : List CDCEvent} (hid : trimSpace shardID ≠ "")
    (h : s.stream (trimSpace shardID) = stream) (hne : stream ≠ []) :
    s.read shardID offset limit =
      .ok (readStream (trimSpace shardID) offset (normalizeCDCReadLimit limit) stream) := by
  rw [CDCStreamStore.stream] at h
  rw [CDCStreamStore.read, if_neg hid]
  rcases hs : s.shards.lookup (trimSpace shardID) with _ | stream'
  · rw [hs] at h
    exact absurd h.symm hne
  · rw [hs] at h
    exact congrArg (fun l => Except.ok (readStream _ _ _ l)) h

/-- **The retention signal.** A read of a stream that has events gives the
first of those it retains beyond the offset, as many as the limit allows,
and the offset of the last one it gives; and its signal says whether an
event beyond the offset was evicted exactly if the offsets are telling. -/
theorem read_retained (events : List CDCEvent) (shardID : String) (capacity limit : ℤ)
    (offset : UInt64) (hid : trimSpace shardID ≠ "")
    (hasc : (appended (trimSpace shardID) events).Pairwise fun e e' => e.offset < e'.offset)
    (hstream : appended (trimSpace shardID) events ≠ []) :
    let store := events.foldl CDCStreamStore.append (newCDCStreamStore capacity)
    let kept := retained (storeCapacity capacity) (appended (trimSpace shardID) events)
    let gone := evicted (storeCapacity capacity) (appended (trimSpace shardID) events)
    let returned := (kept.filter fun e => offset < e.offset).take (normalizeCDCReadLimit limit).toNat
    ∃ result, store.read shardID offset limit = .ok result ∧
      result.events = returned ∧
      result.nextOffset = (returned.getLast?.map CDCEvent.offset).getD offset ∧
      ((result.droppedBefore = true ↔ ∃ e ∈ gone, offset < e.offset) ↔
        Telling (storeCapacity capacity)
          ((appended (trimSpace shardID) events).map CDCEvent.offset) offset) := by
  intro store kept gone returned
  have hkept : store.stream (trimSpace shardID) = kept := by
    refine stream_foldl_append hid events (newCDCStreamStore capacity) [] ?_
    simp only [CDCStreamStore.stream, newCDCStreamStore, AList.lookup_empty, Option.getD_none,
      retained, List.drop_nil]
  obtain ⟨oldest, l, hcons⟩ : ∃ oldest l, kept = oldest :: l :=
    exists_oldest (storeCapacity_pos capacity) hstream
  have hpos : oldest.offset ≠ 0 := by
    have hmem : oldest ∈ kept := hcons ▸ List.mem_cons_self
    have hmem := List.mem_of_mem_drop hmem
    exact (of_decide_eq_true (List.mem_filter.mp hmem).2).2
  obtain ⟨hevents, hnext, hsignal⟩ := readStream_eq (trimSpace shardID) offset
    (normalizeCDCReadLimit_pos limit) kept
  have hpage : page CDCEvent.offset offset (normalizeCDCReadLimit limit).toNat kept = returned :=
    congrArg (List.take _) (List.filter_congr fun e _ => decide_eq_decide.mpr Iff.rfl)
  rw [hpage] at hevents hnext
  refine ⟨_, read_eq_ok hid hkept (by rw [hcons]; exact List.cons_ne_nil _ _), hevents, hnext, ?_⟩
  rw [hsignal, hcons, List.head?_cons, Option.any_some, decide_eq_true_iff]
  exact signal_iff hasc hcons hpos

/-- The events of a shard with gaps between their offsets. -/
def gapped : List CDCEvent :=
  [2, 5, 9].map fun offset => ⟨offset, "default", .put, [1], [1], false⟩

/-- Of the three events one is gone, and who has read up to the offset 1
is told. -/
theorem read_retained_gapped :
    ∃ result, (gapped.foldl CDCStreamStore.append (newCDCStreamStore 2)).read "default" 1 10 =
        .ok result ∧
      ((result.droppedBefore = true ↔
          ∃ e ∈ evicted (storeCapacity 2) (appended (trimSpace "default") gapped), 1 < e.offset) ↔
        Telling (storeCapacity 2)
          ((appended (trimSpace "default") gapped).map CDCEvent.offset) 1) := by
  obtain ⟨result, hread, -, -, hsignal⟩ := read_retained gapped "default" 2 10 1
    (by decide +kernel) (by decide +kernel) (by decide +kernel)
  exact ⟨result, hread, hsignal⟩

/-- **A gap is taken for a loss.** Nothing was evicted from a stream with
one event, but who asks for all of it is told that something was; so is
who asks for what is behind the last offset. -/
theorem read_gap_dropped :
    let store := ([⟨5, "default", .put, [1], [1], false⟩] : List CDCEvent).foldl
      CDCStreamStore.append (newCDCStreamStore 2)
    (store.read "default" 0 10).map CDCReadResult.droppedBefore = .ok true ∧
      (store.read "default" 0xFFFFFFFFFFFFFFFF 10).map CDCReadResult.droppedBefore = .ok true ∧
      evicted (storeCapacity 2) (appended "default" [⟨5, "default", .put, [1], [1], false⟩]) = [] := by
  decide +kernel

end LSMEngine.Cdc
