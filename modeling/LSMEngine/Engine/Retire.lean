import LSMEngine.Common.Lists
import LSMEngine.Engine.Model.Flush
import LSMEngine.Engine.Places
/-!
# Engine — what a completed flush retires

`onFlush` drops the head of the flush queue, whatever was written. It is
the right memtable if the entry lists reach the channel in the order in
which their memtables joined the flush queue, and if no memtable is
queued twice or after it was retired (`InTurn`). The code sees to
neither: two callers append and send in two steps each, a full channel
leaves the order to the scheduler, and a shutdown can meet a snapshot
that is being closed.
-/

namespace LSMEngine.Engine

namespace Flushing

variable {cfg : Config} {s s' : Flushing} {a : Event} {id : ℕ}

/-- What is on its way to a completion, in order. -/
def onWay (s : Flushing) : List Batch := s.stage.toList ++ s.channel

/-- Everything whose memtable is in the flush queue. -/
def flight (s : Flushing) : List Batch := s.onWay ++ (s.blocked ++ s.sending.map Prod.snd)

/-- The condition on a step: what joins the flush queue, or is discarded,
is frozen and not queued, and holds what was read from it; and what joins
the channel is the first in the flush queue that is not on its way. -/
def InTurn (cfg : Config) (s : Flushing) : Event → Prop
  | .append j => ∀ c ∈ s.calls[j]?, ∀ es ∈ c.entries,
      c.id ∈ s.mems.immutables ∧ c.id ∉ s.mems.flushQueue ∧ (s.mems.heap c.id).entries = es
  | .send j => ∀ c ∈ s.sending[j]?, s.canEnqueue cfg →
      s.mems.flushQueue[s.onWay.length]? = some c.2.id
  | .unblock i => ∀ b ∈ s.blocked[i]?, s.mems.flushQueue[s.onWay.length]? = some b.id
  | _ => True

instance (cfg : Config) (s : Flushing) (a : Event) : Decidable (s.InTurn cfg a) :=
  match a with
  | .append _ => inferInstanceAs (Decidable (∀ _, _))
  | .send _ => inferInstanceAs (Decidable (∀ _, _))
  | .unblock _ => inferInstanceAs (Decidable (∀ _, _))
  | .write _ | .freezeFull _ | .openSnapshot _ | .closeSnapshot _ | .shutdown _ | .closeNext
  | .capture _ | .take | .complete => inferInstanceAs (Decidable True)

/-- What a completion should be: the memtable dropped is the one written,
with the entries that were written. -/
def Right (c : Completion) : Prop := c.dropped = some c.batch.id ∧ c.held = c.batch.entries

/-- **The flush queue and what is in flight go together.** -/
structure Lined (s : Flushing) : Prop where
  placed : Placed s.mems
  frozen : ∀ id ∈ s.mems.flushQueue, id ∈ s.mems.immutables
  nodup : s.mems.flushQueue.Nodup
  flight : (s.flight.map Batch.id).Perm s.mems.flushQueue
  content : ∀ b ∈ s.flight, (s.mems.heap b.id).entries = b.entries
  order : s.onWay.map Batch.id <+: s.mems.flushQueue
  right : ∀ c ∈ s.completions, Right c

theorem lined_init : Lined init :=
  ⟨placed_init, fun _ h => absurd h List.not_mem_nil, .nil, .refl _,
    fun _ h => absurd h List.not_mem_nil, List.nil_prefix, fun _ h => absurd h List.not_mem_nil⟩

section

variable (h : s.Lined)
include h

theorem Lined.queued {b : Batch} (hb : b ∈ s.flight) : b.id ∈ s.mems.flushQueue :=
  h.flight.mem_iff.mp (List.mem_map_of_mem hb)

/-- Changes elsewhere: the memtables in the flush queue stay as they are. -/
theorem Lined.mems {m : Mems} (hplaced : Placed m) (hqueue : m.flushQueue = s.mems.flushQueue)
    (hfrozen : ∀ id ∈ s.mems.flushQueue, id ∈ m.immutables)
    (hheap : ∀ id ∈ s.mems.flushQueue, m.heap id = s.mems.heap id) :
    Lined { s with mems := m } := by
  refine ⟨hplaced, ?_, ?_, ?_, fun b hb => ?_, ?_, h.right⟩
  · rw [hqueue]
    exact hfrozen
  · rw [hqueue]
    exact h.nodup
  · rw [hqueue]
    exact h.flight
  · rw [hheap _ (h.queued hb)]
    exact h.content b hb
  · rw [hqueue]
    exact h.order

/-- What callers, snapshots and a shutdown do besides. -/
theorem Lined.rest (snapshots : List (Option ℕ)) (closing : List ℕ) (calls : List FlushCall) :
    Lined { s with snapshots := snapshots, closing := closing, calls := calls } :=
  ⟨h.placed, h.frozen, h.nodup, h.flight, h.content, h.order, h.right⟩

theorem Lined.froze {m : Mems} (hm : Froze s.mems m) (pinned : ℕ → ℕ) :
    Lined { s with mems := { m with pinned := pinned } } := by
  have hplaced := h.placed.froze hm
  refine h.mems ⟨hplaced.nodup, hplaced.pool, hplaced.apart, hplaced.fresh⟩ hm.flushQueue
    (fun id hid => ?_) fun id _ => congrFun hm.heap id
  change id ∈ m.immutables
  rw [hm.immutables]
  exact List.mem_append_left _ (h.frozen id hid)

/-- Entry lists move towards the dispatcher. -/
theorem Lined.moved {sending : List (Caller × Batch)} {blocked channel : List Batch}
    {stage : Option Batch}
    (hflight : (Flushing.flight { s with
      sending := sending, blocked := blocked, channel := channel, stage := stage }).Perm s.flight)
    (horder : (stage.toList ++ channel).map Batch.id <+: s.mems.flushQueue) :
    Lined { s with
      sending := sending, blocked := blocked, channel := channel, stage := stage } :=
  ⟨h.placed, h.frozen, h.nodup, (hflight.map Batch.id).trans h.flight,
    fun b hb => h.content b (hflight.mem_iff.mp hb), horder, h.right⟩

/-- A memtable joins the flush queue. -/
theorem Lined.append {caller : Caller} {es : List Entry} (calls : List FlushCall)
    (hfrozen : id ∈ s.mems.immutables) (hqueue : id ∉ s.mems.flushQueue)
    (hcontent : (s.mems.heap id).entries = es) :
    Lined { s with
      mems := { s.mems with flushQueue := s.mems.flushQueue ++ [id] }
      calls := calls
      sending := s.sending ++ [(caller, ⟨id, es⟩)] } := by
  have hflight : Flushing.flight { s with sending := s.sending ++ [(caller, ⟨id, es⟩)] } =
      s.flight ++ [⟨id, es⟩] := by
    simp [Flushing.flight, onWay]
  refine ⟨⟨h.placed.nodup, h.placed.pool, h.placed.apart, h.placed.fresh⟩, fun x hx => ?_, ?_, ?_,
    fun b hb => ?_, h.order.trans (List.prefix_append ..), h.right⟩
  · rcases List.mem_append.mp hx with hx | hx
    · exact h.frozen x hx
    · exact List.mem_singleton.mp hx ▸ hfrozen
  · refine List.nodup_append.mpr ⟨h.nodup, List.nodup_singleton _, fun x hx y hy hxy => ?_⟩
    rw [List.mem_singleton.mp hy] at hxy
    exact hqueue (hxy ▸ hx)
  · change ((Flushing.flight
      { s with sending := s.sending ++ [(caller, ⟨id, es⟩)] }).map Batch.id).Perm _
    rw [hflight, List.map_append]
    exact h.flight.append_right _
  · have hb : b ∈ s.flight ++ [⟨id, es⟩] := hflight ▸ hb
    rcases List.mem_append.mp hb with hb | hb
    · exact h.content b hb
    · rw [List.mem_singleton.mp hb]
      exact hcontent

/-- A memtable that holds nothing is dropped. -/
theorem Lined.discard (calls : List FlushCall) (hfrozen : id ∈ s.mems.immutables)
    (hqueue : id ∉ s.mems.flushQueue) (pooled : Bool) :
    Lined { s with mems := (s.mems.removeImmutable id).recycle pooled id, calls := calls } := by
  have hdrop : Placed ((s.mems.removeImmutable id).recycle pooled id) :=
    h.placed.drop hfrozen (s.mems.flushQueue.erase id) pooled
  have hsame := recycle_queue pooled (s.mems.removeImmutable id) id
  have herase : s.mems.flushQueue.erase id = s.mems.flushQueue := List.erase_of_not_mem hqueue
  have hlined := h.mems hdrop (hsame.1.trans herase) (fun x hx => ?_) fun x hx => ?_
  · exact hlined.rest s.snapshots s.closing calls
  · have hne : x ≠ id := fun heq => hqueue (heq ▸ hx)
    rw [hsame.2]
    exact (List.mem_erase_of_ne hne).mpr (h.frozen x hx)
  · have hne : id ≠ x := fun heq => hqueue (heq ▸ hx)
    exact (recycle_other (s.mems.removeImmutable id) x pooled fun _ _ => hne).1

/-- **The head of the flush queue is what was written.** -/
theorem Lined.complete {b : Batch} (hstage : s.stage = some b) (pooled : Bool) :
    Lined { s with
      mems := s.mems.popFlushedTable pooled
      stage := none
      completions := s.completions ++
        [⟨b, s.mems.flushQueue.head?,
          (s.mems.flushQueue.head?.map fun id => (s.mems.heap id).entries).getD []⟩] } := by
  have hway : s.onWay = b :: s.channel := by rw [onWay, hstage]; rfl
  have hflight : s.flight = b :: (s.channel ++ (s.blocked ++ s.sending.map Prod.snd)) := by
    rw [Flushing.flight, hway]
    rfl
  -- the way to the dispatcher is the beginning of the queue
  obtain ⟨rest, hqueue⟩ : ∃ rest, s.mems.flushQueue = b.id :: rest := by
    obtain ⟨tail, htail⟩ := h.order
    exact ⟨s.channel.map Batch.id ++ tail, by rw [← htail, hway]; rfl⟩
  have hb : b ∈ s.flight := hflight ▸ List.mem_cons_self
  obtain ⟨hnotin, hrest⟩ := List.nodup_cons.mp (hqueue ▸ h.nodup)
  -- what is in flight besides is the rest of the queue
  have hperm : ((s.channel ++ (s.blocked ++ s.sending.map Prod.snd)).map Batch.id).Perm rest := by
    have := h.flight
    rw [hflight, hqueue, List.map_cons] at this
    exact this.cons_inv
  rw [popFlushedTable_cons hqueue, hqueue]
  have hsame := recycle_queue pooled
    { s.mems with flushQueue := rest, immutables := s.mems.immutables.erase b.id } b.id
  refine ⟨h.placed.drop (h.frozen b.id (h.queued hb)) rest pooled, ?_, ?_, ?_, ?_, ?_, ?_⟩
  · intro x hx
    rw [hsame.1] at hx
    rw [hsame.2]
    have hne : x ≠ b.id := fun heq => hnotin (heq ▸ hx)
    refine (List.mem_erase_of_ne hne).mpr (h.frozen x ?_)
    rw [hqueue]
    exact List.mem_cons_of_mem _ hx
  · rw [hsame.1]
    exact hrest
  · rw [hsame.1]
    exact hperm
  · intro c hc
    have hne : b.id ≠ c.id := by
      intro heq
      exact hnotin (heq ▸ hperm.mem_iff.mp (List.mem_map_of_mem hc))
    rw [(recycle_other _ c.id pooled fun _ _ => hne).1]
    exact h.content c (hflight ▸ List.mem_cons_of_mem b hc)
  · rw [hsame.1]
    obtain ⟨tail, htail⟩ := h.order
    rw [hway, hqueue, List.map_cons, List.cons_append] at htail
    exact ⟨tail, (List.cons.inj htail).2⟩
  · intro c hc
    rcases List.mem_append.mp hc with hc | hc
    · exact h.right c hc
    · rw [List.mem_singleton.mp hc]
      exact ⟨rfl, h.content b hb⟩

/-- A list that is sent joins the channel in its turn, or waits. -/
theorem Lined.send {j : ℕ} (hturn : s.InTurn cfg (.send j)) (hs : s.act cfg (.send j) = some s') :
    s'.Lined := by
  simp only [act] at hs
  split at hs
  · next caller b hj =>
    have hperm : (s.sending.map Prod.snd).Perm (b :: (s.sending.eraseIdx j).map Prod.snd) :=
      (perm_cons_eraseIdx hj).map Prod.snd
    split at hs
    · next hroom =>
      obtain rfl := Option.some.inj hs
      refine h.moved ?_ ?_
      · simp only [Flushing.flight, onWay, List.append_assoc]
        refine List.Perm.append_left _ (List.Perm.append_left _ ?_)
        refine .trans ?_ (hperm.symm.append_left _)
        rw [List.singleton_append]
        exact List.perm_middle.symm
      · rw [← List.append_assoc, List.map_append]
        refine concat_isPrefix h.order ?_
        rw [List.length_map]
        exact hturn _ hj hroom
    · obtain rfl := Option.some.inj hs
      refine h.moved ?_ h.order
      simp only [Flushing.flight, onWay, List.append_assoc]
      refine List.Perm.append_left _ (List.Perm.append_left _ (List.Perm.append_left _ ?_))
      exact hperm.symm
  · cases hs

theorem Lined.unblock {i : ℕ} (hturn : s.InTurn cfg (.unblock i))
    (hs : s.act cfg (.unblock i) = some s') : s'.Lined := by
  simp only [act] at hs
  split at hs
  · next b hi =>
    split at hs
    · obtain rfl := Option.some.inj hs
      refine h.moved ?_ ?_
      · simp only [Flushing.flight, onWay, List.append_assoc]
        refine List.Perm.append_left _ (List.Perm.append_left _ ?_)
        exact ((perm_cons_eraseIdx hi).symm).append_right _
      · rw [← List.append_assoc, List.map_append]
        refine concat_isPrefix h.order ?_
        rw [List.length_map]
        exact hturn b hi
    · cases hs
  · cases hs

/-- **Every step in turn keeps the flush queue and the channel in line.** -/
theorem Lined.act (hturn : s.InTurn cfg a) (hs : s.act cfg a = some s') : s'.Lined := by
  cases a with
  | write e =>
    obtain rfl := Option.some.inj hs
    refine h.mems ⟨h.placed.nodup, h.placed.pool, h.placed.apart, h.placed.fresh⟩ rfl h.frozen
      fun x hx => Function.update_of_ne ?_ _ _
    -- what is written to is the active memtable, and no batch is of it
    rintro rfl
    exact h.placed.mem_not_frozen (h.frozen _ hx)
  | freezeFull reuse =>
    simp only [Flushing.act] at hs
    split at hs
    · obtain ⟨m, hm, rfl⟩ := Option.map_eq_some_iff.mp hs
      exact (h.froze (froze_of_freeze hm) m.pinned).rest s.snapshots s.closing _
    · cases hs
  | openSnapshot reuse =>
    obtain ⟨m, hm, rfl⟩ := Option.map_eq_some_iff.mp hs
    exact (h.froze (froze_of_freeze hm) _).rest _ s.closing s.calls
  | closeSnapshot i =>
    simp only [Flushing.act, Mems.unpin] at hs
    split at hs
    · next id hi =>
      obtain rfl := Option.some.inj hs
      -- closing only touches the pins, whether or not a flush follows
      have hplaced : ∀ pinned, Placed { s.mems with pinned := pinned } := fun pinned =>
        ⟨h.placed.nodup, h.placed.pool, h.placed.apart, h.placed.fresh⟩
      have hpinned : ∀ pinned, Lined { s with mems := { s.mems with pinned := pinned } } :=
        fun pinned => h.mems (hplaced pinned) rfl h.frozen fun _ _ => rfl
      split
      · exact (hpinned _).rest _ s.closing _
      · exact (hpinned _).rest _ s.closing s.calls
    · cases hs
  | shutdown reuse =>
    obtain ⟨m, hm, rfl⟩ := Option.map_eq_some_iff.mp hs
    exact (h.froze (froze_of_freeze hm) m.pinned).rest s.snapshots _ s.calls
  | closeNext =>
    simp only [Flushing.act] at hs
    split at hs
    · split at hs
      · obtain rfl := Option.some.inj hs
        exact h.rest s.snapshots _ s.calls
      · split at hs
        · obtain rfl := Option.some.inj hs
          exact h.rest s.snapshots _ _
        · cases hs
    · cases hs
  | capture j =>
    simp only [Flushing.act] at hs
    split at hs
    · obtain rfl := Option.some.inj hs
      exact h.rest s.snapshots s.closing _
    · cases hs
  | append j =>
    simp only [Flushing.act] at hs
    split at hs
    · next caller id hj =>
      obtain rfl := Option.some.inj hs
      -- an empty memtable is recycled, and nothing is queued for it
      obtain ⟨hfrozen, hqueue, -⟩ := hturn _ hj [] rfl
      exact h.discard _ hfrozen hqueue cfg.pooled
    · next caller id e es hj =>
      obtain rfl := Option.some.inj hs
      obtain ⟨hfrozen, hqueue, hcontent⟩ := hturn _ hj _ rfl
      exact h.append _ hfrozen hqueue hcontent
    · cases hs
  | send j => exact h.send hturn hs
  | unblock i => exact h.unblock hturn hs
  | take =>
    simp only [Flushing.act] at hs
    split at hs
    · next b rest hstage hchannel =>
      obtain rfl := Option.some.inj hs
      -- the batch the dispatcher takes stays at the head of the way
      have hway : s.onWay = b :: rest := by rw [onWay, hstage, hchannel]; rfl
      have horder := h.order
      rw [hway] at horder
      refine h.moved ?_ horder
      rw [Flushing.flight, Flushing.flight, hway]
      exact .refl _
    · cases hs
  | complete =>
    simp only [Flushing.act] at hs
    split at hs
    · next b hstage =>
      obtain rfl := Option.some.inj hs
      exact h.complete hstage cfg.pooled
    · cases hs

end

/-- **Where everything goes in turn, a completed flush retires the
memtable that was written**, and that memtable holds what was written. -/
theorem retires_written {as : List Event} (hturn : Along (act cfg) (InTurn cfg) init as)
    (hrun : runs (act cfg) init as = some s) : ∀ c ∈ s.completions, Right c :=
  (runs_induction (fun _ _ _ h ha hs => h.act ha hs) lined_init hrun hturn).right

/-- Two snapshots have frozen a memtable each, and are closed: both calls
have read their entries and appended their memtables. -/
def twoClosed : List Event :=
  [.write ⟨[1], [1], false, 1⟩, .openSnapshot none, .write ⟨[2], [2], false, 2⟩,
    .openSnapshot none, .closeSnapshot 0, .closeSnapshot 1, .capture 0, .capture 1, .append 0,
    .append 0]

/-- They send in the order they appended. -/
def sentInTurn : List Event :=
  twoClosed ++ [.send 0, .send 0, .take, .complete, .take, .complete]

theorem sentInTurn_isSome : (runs (act pooledConfig) init sentInTurn).isSome := by decide +kernel

theorem retires_written_inTurn :
    let s := (runs (act pooledConfig) init sentInTurn).get sentInTurn_isSome
    (∀ c ∈ s.completions, Right c) ∧ s.completions.length = 2 := by
  have hturn : Along (act pooledConfig) (InTurn pooledConfig) init sentInTurn :=
    along_of_check (by decide +kernel)
  exact ⟨retires_written hturn (Option.some_get sentInTurn_isSome).symm, by decide +kernel⟩

/-- They send in the other order. -/
def sentOutOfTurn : List Event := twoClosed ++ [.send 1, .send 0, .take, .complete]

theorem sentOutOfTurn_isSome : (runs (act pooledConfig) init sentOutOfTurn).isSome := by
  decide +kernel

/-- **A completed flush drops a memtable that is in no table**, and empties
it. -/
theorem retires_unwritten :
    ∃ s, runs (act pooledConfig) init sentOutOfTurn = some s ∧
      s.completions = [⟨⟨1, [⟨[2], [2], false, 2⟩]⟩, some 0, [⟨[1], [1], false, 1⟩]⟩] ∧
      0 ∉ s.mems.live ∧ (s.mems.heap 0).entries = [] := by
  refine ⟨_, (Option.some_get sentOutOfTurn_isSome).symm, ?_⟩
  decide +kernel

end Flushing

end LSMEngine.Engine
