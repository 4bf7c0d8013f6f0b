import LSMEngine.Control.Idempotence
import LSMEngine.Control.Roles
/-!
# Control plane — replicas in shared slices

A split leaves both halves with one slice. While they share it they have
the same leader, and a drain moves both (`view_drained`). But a transfer of
one half rewrites the roles in the slice of the other, whose leader stays,
unless the half has that leader already, or a replica has to be appended
and the slice moves to a new array for it (`view_transfer_other`).
`safeTransfer` computes whether a transfer is free of this. In every state
reached by safe transfers all shards are consistent, and the next mutation
leaves the other shards alone exactly if it is safe (`roles_run`).
-/

namespace LSMEngine.Control

open CommitLog (Commit ControlEntry)

variable {grow : ℕ → ℕ → ℕ} {c c' : ControlPlane (Arrays ReplicaStatus) SliceRef}
  {shard shard' : ShardStatus SliceRef} {id id' : String} {m : ControlMutation}

/-! ## Sharing -/

/-- **The slices are in order.** They are slices of arrays there are, and
two of one array are the same. -/
structure Shared (arrays : Arrays ReplicaStatus) (shards : Shards SliceRef) : Prop where
  valid : ∀ {id shard}, shards.lookup id = some shard → arrays.Valid shard.replicas
  shared : ∀ {id id' shard shard'}, shards.lookup id = some shard →
    shards.lookup id' = some shard' → shard.replicas.arr = shard'.replicas.arr →
    shard.replicas = shard'.replicas

theorem Shared.empty (arrays : Arrays ReplicaStatus) : Shared arrays ∅ := by
  refine ⟨fun hs => ?_, fun hs => ?_⟩
  · rw [AList.lookup_empty] at hs
    cases hs
  · rw [AList.lookup_empty] at hs
    cases hs

section Shared

variable {arrays arrays' : Arrays ReplicaStatus} {shards shards' : Shards SliceRef}

/-- A shard put in, that has the slice of each shard it shares an array
with. -/
theorem Shared.insert (h : Shared arrays shards) (hvalid : arrays'.Valid shard.replicas)
    (hkeep : ∀ r, arrays.Valid r → arrays'.Valid r)
    (hsame : ∀ {id' shard'}, shards.lookup id' = some shard' → id' ≠ id →
      shard.replicas.arr = shard'.replicas.arr → shard.replicas = shard'.replicas) :
    Shared arrays' (shards.insert id shard) := by
  refine ⟨fun {id₁ shard₁} hs => ?_, fun {id₁ id₂ shard₁ shard₂} hs₁ hs₂ heq => ?_⟩
  · by_cases h₁ : id₁ = id
    · rw [h₁, AList.lookup_insert] at hs
      rw [← Option.some.inj hs]
      exact hvalid
    · rw [AList.lookup_insert_ne h₁] at hs
      exact hkeep _ (h.valid hs)
  · by_cases h₁ : id₁ = id
    · rw [h₁, AList.lookup_insert] at hs₁
      rw [← Option.some.inj hs₁] at heq ⊢
      by_cases h₂ : id₂ = id
      · rw [h₂, AList.lookup_insert] at hs₂
        rw [← Option.some.inj hs₂]
      · rw [AList.lookup_insert_ne h₂] at hs₂
        exact hsame hs₂ h₂ heq
    · rw [AList.lookup_insert_ne h₁] at hs₁
      by_cases h₂ : id₂ = id
      · rw [h₂, AList.lookup_insert] at hs₂
        rw [← Option.some.inj hs₂] at heq ⊢
        exact (hsame hs₁ h₁ heq.symm).symm
      · rw [AList.lookup_insert_ne h₂] at hs₂
        exact h.shared hs₁ hs₂ heq

/-- A shard with a new array. -/
theorem Shared.alloc (h : Shared arrays shards) {l spare : List ReplicaStatus}
    (hnew : shard.replicas = (arrays.alloc l spare).2) (id : String) :
    Shared (arrays.alloc l spare).1 (shards.insert id shard) := by
  refine h.insert ?_ (fun r hr => hr.alloc _ _) fun hs _ heq => ?_
  · rw [hnew]
    exact Arrays.valid_alloc _ _ _
  · -- the array of an old shard is not the new one
    have hlt := (h.valid hs).1
    rw [← heq, hnew] at hlt
    exact absurd hlt (Nat.lt_irrefl _)

/-- Shards that have their slices from shards there were. -/
theorem Shared.of_slices (h : Shared arrays shards)
    (hold : ∀ {id shard}, shards'.lookup id = some shard → ∃ id₀ shard₀,
      shards.lookup id₀ = some shard₀ ∧ shard.replicas = shard₀.replicas ∧
        arrays'.Valid shard₀.replicas) : Shared arrays' shards' := by
  refine ⟨fun hs => ?_, fun hs hs' harr => ?_⟩
  · obtain ⟨id₀, shard₀, -, heq, hvalid⟩ := hold hs
    rw [heq]
    exact hvalid
  · obtain ⟨id₀, shard₀, hs₀, heq, -⟩ := hold hs
    obtain ⟨id₁, shard₁, hs₁, heq', -⟩ := hold hs'
    rw [heq, heq'] at harr ⊢
    exact h.shared hs₀ hs₁ harr

end Shared

theorem Shared.foldl_addShard (shards : List (ShardStatus (List ReplicaStatus))) :
    ∀ acc : Arrays ReplicaStatus × Shards SliceRef, Shared acc.1 acc.2 →
      Shared (shards.foldl (ControlPlane.addShard (slices grow)) acc).1
        (shards.foldl (ControlPlane.addShard (slices grow)) acc).2 := by
  induction shards with
  | nil => exact fun _ h => h
  | cons shard shards ih => exact fun acc h => ih _ (h.alloc rfl shard.id)

/-- **The control plane is sound**: its slices are in order, and its shards
consistent. -/
structure Sound (grow : ℕ → ℕ → ℕ) (c : ControlPlane (Arrays ReplicaStatus) SliceRef) : Prop where
  memory : Shared c.heap c.shards
  consistent : RolesConsistent (slices grow) c

theorem view_of_lookup (hs : c.shards.lookup id = some shard) :
    c.view (slices grow) id = some (shard.read (slices grow) c.heap) := by
  rw [ControlPlane.view, hs, Option.map_some]

/-- Shards that share their slice have the same leader. -/
theorem Sound.leader_eq (h : Sound grow c) (hs : c.shards.lookup id = some shard)
    (hs' : c.shards.lookup id' = some shard') (harr : shard.replicas.arr = shard'.replicas.arr) :
    shard.leader = shard'.leader := by
  refine (h.consistent id _ (view_of_lookup hs)).leader_eq (h.consistent id' _ (view_of_lookup hs')) ?_
  rw [ShardStatus.read, ShardStatus.read, h.memory.shared hs hs' harr]

/-- After a copy every shard has an array of its own. -/
theorem Sound.restored (h : Sound grow c) (hr : Restored (slices grow) c c') : Sound grow c' := by
  obtain ⟨c₀, -, hagree, -, -, -, hheap⟩ := hr
  obtain ⟨hh, hs⟩ := Prod.mk.inj hheap
  refine ⟨?_, fun id shard hview => h.consistent id shard (hagree.shards id ▸ hview)⟩
  rw [hh, hs]
  exact Shared.foldl_addShard _ (c₀.heap, ∅) (Shared.empty c₀.heap)

theorem Sound.of_sameShards (h : Sound grow c) (hs : SameShards c c') : Sound grow c' := by
  refine ⟨hs.heap.symm ▸ hs.shards.symm ▸ h.memory, fun id shard hview => h.consistent id shard ?_⟩
  rw [ControlPlane.view, hs.shards, hs.heap] at hview
  exact hview

/-! ## Transfers -/

section Transfer

variable {arrays : Arrays ReplicaStatus} {r : SliceRef} {target : String}

/-- The replica has to be appended, and the array is full. -/
def moves (arrays : Arrays ReplicaStatus) (replicas : SliceRef) (target : String) : Bool :=
  !hasReplica (arrays.read replicas) target && decide (arrays.cap replicas ≤ replicas.len)

/-- What adding a replica to a shard does to memory. -/
structure Added (arrays : Arrays ReplicaStatus) (shard : ShardStatus SliceRef) (target : String)
    (arrays' : Arrays ReplicaStatus) (shard' : ShardStatus SliceRef) : Prop where
  valid : arrays'.Valid shard'.replicas
  valid_of : ∀ r, arrays.Valid r → arrays'.Valid r
  read : arrays'.read shard'.replicas = if hasReplica (arrays.read shard.replicas) target
    then arrays.read shard.replicas
    else arrays.read shard.replicas ++ [⟨target, .follower, true⟩]
  read_self : arrays'.read shard.replicas = arrays.read shard.replicas
  read_of : ∀ r, arrays.Valid r → r.arr ≠ shard.replicas.arr ∨ moves arrays shard.replicas target →
    arrays'.read r = arrays.read r
  stays : moves arrays shard.replicas target = false →
    shard.replicas.arr = shard'.replicas.arr ∧ shard.replicas.len ≤ shard'.replicas.len
  moved : moves arrays shard.replicas target = true → ∀ r, arrays.Valid r →
    r.arr ≠ shard'.replicas.arr
  same : hasReplica (arrays.read shard.replicas) target = true → shard'.replicas = shard.replicas
  place : shard' = { shard with replicas := shard'.replicas }

theorem added_addReplica (grow : ℕ → ℕ → ℕ) (hr : arrays.Valid shard.replicas) (target : String) :
    Added arrays shard target (ControlPlane.addReplica (slices grow) arrays shard target).1
      (ControlPlane.addReplica (slices grow) arrays shard target).2 := by
  by_cases hhas : hasReplica (arrays.read shard.replicas) target = true
  · have heq : ControlPlane.addReplica (slices grow) arrays shard target = (arrays, shard) :=
      if_pos hhas
    rw [heq]
    refine ⟨hr, fun _ h => h, by rw [if_pos hhas], rfl, fun _ _ _ => rfl,
      fun _ => ⟨rfl, le_refl _⟩, fun hm => ?_, fun _ => rfl, rfl⟩
    rw [moves, hhas] at hm
    cases hm
  · have heq : ControlPlane.addReplica (slices grow) arrays shard target =
        ((arrays.push (fun cap len => unwritten (grow cap len)) shard.replicas
          ⟨target, .follower, true⟩).1, { shard with
            replicas := (arrays.push (fun cap len => unwritten (grow cap len)) shard.replicas
              ⟨target, .follower, true⟩).2 }) := if_neg hhas
    have hmoves : moves arrays shard.replicas target = true ↔
        ¬shard.replicas.len < arrays.cap shard.replicas := by
      simp [moves, hhas]
    rw [heq]
    refine ⟨Arrays.valid_push hr, fun r h => h.push hr, ?_, Arrays.read_push_self hr, fun r h hor => ?_,
      fun hm => ?_, fun hm r h => ?_, fun h => absurd h hhas, rfl⟩
    · rw [if_neg hhas, Arrays.read_push hr]
    · exact Arrays.read_push_of_ne h (hor.imp Ne.symm hmoves.mp)
    · have hlt : shard.replicas.len < arrays.cap shard.replicas := by
        by_contra hc
        rw [hmoves.mpr hc] at hm
        cases hm
      rw [Arrays.push_of_lt hlt]
      exact ⟨rfl, Nat.le_succ _⟩
    · rw [Arrays.push_of_full (hmoves.mp hm)]
      exact Nat.ne_of_lt h.1

/-- The transfer of a shard: its replica is added, then its roles are
set. -/
theorem exists_transfer (h : c.applyTransferLeaderPayload (slices grow) m = .ok c') :
    ∃ shard shard₁ arrays, c.shards.lookup m.shardID = some shard ∧
      ControlPlane.addReplica (slices grow) c.heap shard m.target = (arrays, shard₁) ∧
      c'.heap = arrays.update (ReplicaStatus.setRole m.target) shard₁.replicas ∧
      c'.shards = c.shards.insert m.shardID { shard₁ with leader := m.target } := by
  rw [ControlPlane.applyTransferLeaderPayload] at h
  split at h
  · cases h
  next shard hs =>
  rw [← Except.ok.inj h]
  exact ⟨shard, _, _, hs, rfl, rfl, rfl⟩

/-- **The shard that is transferred.** -/
theorem view_transfer_self (hsound : Sound grow c)
    (h : c.applyTransferLeaderPayload (slices grow) m = .ok c') :
    c'.view (slices grow) m.shardID =
      (c.view (slices grow) m.shardID).map (transferView m.target) := by
  obtain ⟨shard, shard₁, arrays, hs, hadd, hheap, hshards⟩ := exists_transfer h
  have ha := added_addReplica grow (hsound.memory.valid hs) m.target
  rw [hadd] at ha
  obtain ⟨id₁, start₁, stop₁, leader₁, replicas₁⟩ := shard₁
  obtain ⟨rfl, rfl, rfl, rfl, -⟩ := ShardStatus.mk.inj ha.place
  have hread : (slices grow).read c'.heap replicas₁ =
      (arrays.read replicas₁).map (ReplicaStatus.setRole m.target) := by
    rw [hheap]
    exact Arrays.read_update ha.valid _
  rw [view_of_lookup hs, ControlPlane.view, hshards, AList.lookup_insert, Option.map_some,
    Option.map_some, ShardStatus.read, hread, show arrays.read replicas₁ = _ from ha.read]
  rfl

/-- **The other shards.** One that shares the slice has its roles
rewritten, unless the slice moves. -/
theorem view_transfer_other (hsound : Sound grow c)
    (h : c.applyTransferLeaderPayload (slices grow) m = .ok c')
    (hs : c.shards.lookup m.shardID = some shard) (hid : id ≠ m.shardID)
    (hs' : c.shards.lookup id = some shard') :
    c'.view (slices grow) id =
      if shard'.replicas.arr = shard.replicas.arr ∧ moves c.heap shard.replicas m.target = false then
        some { shard'.read (slices grow) c.heap with
          replicas := (c.heap.read shard'.replicas).map (ReplicaStatus.setRole m.target) }
      else c.view (slices grow) id := by
  obtain ⟨shard₀, shard₁, arrays, hs₀, hadd, hheap, hshards⟩ := exists_transfer h
  obtain rfl : shard₀ = shard := Option.some.inj (hs₀.symm.trans hs)
  have ha := added_addReplica grow (hsound.memory.valid hs) m.target
  rw [hadd] at ha
  have hvalid := hsound.memory.valid hs'
  rw [view_of_lookup hs', ControlPlane.view, hshards, AList.lookup_insert_ne hid, hs',
    Option.map_some, ShardStatus.read]
  split
  · next hcase =>
    -- the slice is the same, and its roles are set in place
    have hsame := hsound.memory.shared hs' hs hcase.1
    obtain ⟨harr, hle⟩ := ha.stays hcase.2
    have hread : c'.heap.read shard'.replicas =
        (c.heap.read shard'.replicas).map (ReplicaStatus.setRole m.target) := by
      rw [hheap, hsame, Arrays.read_update_of_le ha.valid harr hle, ha.read_self]
    rw [show (slices grow).read c'.heap shard'.replicas = _ from hread]
    rfl
  · next hcase =>
    have hor : shard'.replicas.arr ≠ shard₀.replicas.arr ∨
        moves c.heap shard₀.replicas m.target = true := by
      rw [not_and_or, Bool.not_eq_false] at hcase
      exact hcase
    have hne : shard₁.replicas.arr ≠ shard'.replicas.arr := by
      rcases Bool.eq_false_or_eq_true (moves c.heap shard₀.replicas m.target) with hm | hm
      · exact (ha.moved hm _ hvalid).symm
      · rw [← (ha.stays hm).1]
        exact (hor.resolve_right (by rw [hm]; exact Bool.false_ne_true)).symm
    have hread : c'.heap.read shard'.replicas = c.heap.read shard'.replicas := by
      rw [hheap, Arrays.read_update_of_ne hne, ha.read_of _ hvalid hor]
    rw [show (slices grow).read c'.heap shard'.replicas = _ from hread]
    rfl

end Transfer

/-! ## Safe transfers -/

/-- Another shard has its slice in the array. -/
def ControlPlane.shares (c : ControlPlane (Arrays ReplicaStatus) SliceRef) (id : String)
    (replicas : SliceRef) : Bool :=
  c.order.any fun id' => id' ≠ id &&
    (c.shards.lookup id').any fun shard => shard.replicas.arr = replicas.arr

theorem shares_eq_true (hl : Layout c) {replicas : SliceRef} :
    c.shares id replicas = true ↔ ∃ id' shard', c.shards.lookup id' = some shard' ∧ id' ≠ id ∧
      shard'.replicas.arr = replicas.arr := by
  rw [ControlPlane.shares, List.any_eq_true]
  constructor
  · rintro ⟨id', -, h⟩
    rw [Bool.and_eq_true, decide_eq_true_eq, Option.any_eq_true] at h
    obtain ⟨hne, shard', hs', harr⟩ := h
    exact ⟨id', shard', hs', hne, of_decide_eq_true harr⟩
  · rintro ⟨id', shard', hs', hne, harr⟩
    refine ⟨id', hl.mem_order_of_lookup hs', ?_⟩
    rw [Bool.and_eq_true, decide_eq_true_eq, Option.any_eq_true]
    exact ⟨hne, shard', hs', decide_eq_true harr⟩

/-- **A transfer is safe** if the shard has the leader already, if its
slice moves, or if no other shard shares it. -/
def safeTransfer (c : ControlPlane (Arrays ReplicaStatus) SliceRef) (m : ControlMutation) : Bool :=
  (c.shards.lookup m.shardID).all fun shard =>
    shard.leader = m.target || moves c.heap shard.replicas m.target ||
      !c.shares m.shardID shard.replicas

theorem safeTransfer_eq_true (hl : Layout c) (hs : c.shards.lookup m.shardID = some shard) :
    safeTransfer c m = true ↔ shard.leader = m.target ∨
      moves c.heap shard.replicas m.target = true ∨
      ∀ id' shard', c.shards.lookup id' = some shard' → id' ≠ m.shardID →
        shard'.replicas.arr ≠ shard.replicas.arr := by
  have hshares : c.shares m.shardID shard.replicas = false ↔
      ∀ id' shard', c.shards.lookup id' = some shard' → id' ≠ m.shardID →
        shard'.replicas.arr ≠ shard.replicas.arr := by
    rw [← Bool.not_eq_true, shares_eq_true hl]
    push Not
    exact ⟨fun h id' shard' hs' hne => h id' shard' hs' hne,
      fun h id' shard' hs' hne => h id' shard' hs' hne⟩
  rw [safeTransfer, hs, Option.all_some, Bool.or_eq_true, Bool.or_eq_true, decide_eq_true_eq,
    Bool.not_eq_true', hshares, or_assoc]

/-- A shard that keeps its leader keeps its roles. -/
theorem map_setRole_of_leader {shard : ShardStatus (List ReplicaStatus)} (h : Consistent shard) :
    shard.replicas.map (ReplicaStatus.setRole shard.leader) = shard.replicas := by
  conv_rhs => rw [← List.map_id shard.replicas]
  exact List.map_congr_left fun r hr => setRole_eq_self (h.roles r hr)

/-- **A safe transfer leaves the other shards alone.** -/
theorem view_transfer_of_safe (hl : Layout c) (hsound : Sound grow c)
    (h : c.applyTransferLeaderPayload (slices grow) m = .ok c') (hsafe : safeTransfer c m = true)
    (hid : id ≠ m.shardID) : c'.view (slices grow) id = c.view (slices grow) id := by
  obtain ⟨shard, shard₁, arrays, hs, hadd, hheap, hshards⟩ := exists_transfer h
  rcases hs' : c.shards.lookup id with _ | shard'
  · rw [ControlPlane.view, ControlPlane.view, hshards, AList.lookup_insert_ne hid, hs']
    rfl
  rw [view_transfer_other hsound h hs hid hs']
  split
  · next hcase =>
    rcases (safeTransfer_eq_true hl hs).mp hsafe with hlead | hmoves | halone
    · -- it shares the slice, and has the same leader
      have hcons := hsound.consistent id _ (view_of_lookup hs')
      have hlead' : (shard'.read (slices grow) c.heap).leader = m.target := by
        rw [← hlead]
        exact hsound.leader_eq hs' hs hcase.1
      have hroles := map_setRole_of_leader hcons
      rw [hlead'] at hroles
      rw [view_of_lookup hs', show (c.heap.read shard'.replicas).map _ = _ from hroles]
    · rw [hcase.2] at hmoves
      cases hmoves
    · exact absurd hcase.1 (halone id shard' hs' hid)
  · rfl

/-- **An unsafe transfer changes another shard.** The leader of the one
that shares the slice loses its role. -/
theorem exists_changed_of_shared (hl : Layout c) (hsound : Sound grow c)
    (h : c.applyTransferLeaderPayload (slices grow) m = .ok c') (hshared : safeTransfer c m = false) :
    ∃ id, id ≠ m.shardID ∧ id ∈ c.shards ∧
      c'.view (slices grow) id ≠ c.view (slices grow) id := by
  obtain ⟨shard, shard₁, arrays, hs, hadd, hheap, hshards⟩ := exists_transfer h
  have hnot := (safeTransfer_eq_true hl hs).not.mp (by rw [hshared]; exact Bool.false_ne_true)
  push Not at hnot
  obtain ⟨hlead, hmoves, id, shard', hs', hid, harr⟩ := hnot
  refine ⟨id, hid, AList.lookup_isSome.mp (by rw [hs']; rfl), ?_⟩
  have hcons := hsound.consistent id _ (view_of_lookup hs')
  have hlead' : shard'.leader ≠ m.target := hsound.leader_eq hs' hs harr ▸ hlead
  rw [view_transfer_other hsound h hs hid hs', if_pos ⟨harr, Bool.eq_false_iff.mpr hmoves⟩,
    view_of_lookup hs']
  intro heq
  -- the replica of the leader
  obtain ⟨r, hr, hnode⟩ := hcons.leader
  have hreplicas := congrArg ShardStatus.replicas (Option.some.inj heq)
  have hall : ∀ r ∈ c.heap.read shard'.replicas, r.role = .leader → r.nodeID = m.target := by
    intro r hr hrole
    rw [← show _ = c.heap.read shard'.replicas from hreplicas] at hr
    obtain ⟨r₀, -, rfl⟩ := List.mem_map.mp hr
    rw [setRole_nodeID]
    exact (setRole_role m.target r₀).mp hrole
  exact hlead' (hnode.symm.trans (hall r hr ((hcons.roles r hr).mpr hnode)))

/-- **A safe transfer keeps the control plane sound.** -/
theorem Sound.transfer (hsound : Sound grow c) (hl : Layout c)
    (h : c.applyTransferLeaderPayload (slices grow) m = .ok c') (hsafe : safeTransfer c m = true) :
    Sound grow c' := by
  have hview := view_transfer_self hsound h
  have hother : ∀ id, id ≠ m.shardID → c'.view (slices grow) id = c.view (slices grow) id :=
    fun id => view_transfer_of_safe hl hsound h hsafe
  obtain ⟨shard, shard₁, arrays, hs, hadd, hheap, hshards⟩ := exists_transfer h
  have ha := added_addReplica grow (hsound.memory.valid hs) m.target
  rw [hadd] at ha
  -- one that shares the slice of the shard after the transfer has the same
  have hkey : ∀ {id' shard'}, c.shards.lookup id' = some shard' → id' ≠ m.shardID →
      shard₁.replicas.arr = shard'.replicas.arr → shard₁.replicas = shard'.replicas := by
    intro id' shard' hs' hne harr
    rcases Bool.eq_false_or_eq_true (moves c.heap shard.replicas m.target) with hm | hm
    · exact absurd harr.symm (ha.moved hm _ (hsound.memory.valid hs'))
    have harr' : shard.replicas.arr = shard'.replicas.arr := (ha.stays hm).1.trans harr
    rcases (safeTransfer_eq_true hl hs).mp hsafe with hlead | hmoves | halone
    · have hhas : hasReplica (c.heap.read shard.replicas) m.target = true := by
        rw [← hlead]
        exact hasReplica_eq_true.mpr (hsound.consistent _ _ (view_of_lookup hs)).leader
      rw [ha.same hhas]
      exact hsound.memory.shared hs hs' harr'
    · rw [hm] at hmoves
      cases hmoves
    · exact absurd harr'.symm (halone id' shard' hs' hne)
  refine ⟨?_, fun id shard' hv => ?_⟩
  · rw [hheap, hshards]
    exact hsound.memory.insert (ha.valid.update ha.valid _)
      (fun r hr => (ha.valid_of r hr).update ha.valid _) hkey
  · by_cases hid : id = m.shardID
    · rw [hid, hview] at hv
      obtain ⟨shard₀, -, rfl⟩ := Option.map_eq_some_iff.mp hv
      exact consistent_transferView _ _
    · exact hsound.consistent id shard' (hother id hid ▸ hv)

/-! ## Splits -/

/-- The halves of a shard share its slice. -/
theorem Sound.split (hsound : Sound grow c) {parent left right : ShardStatus SliceRef}
    (h : Split c m c' parent left right) : Sound grow c' := by
  refine ⟨hsound.memory.of_slices fun {id shard} hs => ?_, h.consistent hsound.consistent⟩
  rw [h.heap]
  have hvalid := hsound.memory.valid h.lookup
  rcases h.lookup_iff.mp hs with ⟨-, rfl⟩ | ⟨-, rfl⟩ | ⟨-, hs⟩
  · exact ⟨m.shardID, parent, h.lookup, by rw [h.left_eq], hvalid⟩
  · exact ⟨m.shardID, parent, h.lookup, by rw [h.right_eq], hvalid⟩
  · exact ⟨id, shard, hs, rfl, hsound.memory.valid hs⟩

/-! ## Drains -/

section Drain

variable {targets : AList fun _ : String => String} {done : List String} {t : String}

/-- **A drain on its way.** The shards that have been visited have their
leaders. A slice with a target has no roles written but those of the
target, and has them once a shard with it has been visited. -/
structure Drained (targets : AList fun _ : String => String) (done : List String)
    (c c' : ControlPlane (Arrays ReplicaStatus) SliceRef) : Prop where
  shards : ∀ id, c'.shards.lookup id = (c.shards.lookup id).map fun shard =>
    if id ∈ done then { shard with leader := (targets.lookup id).getD shard.leader } else shard
  valid : ∀ {id shard}, c.shards.lookup id = some shard → c'.heap.Valid shard.replicas
  untouched : ∀ {id shard}, c.shards.lookup id = some shard → targets.lookup id = none →
    c'.heap.read shard.replicas = c.heap.read shard.replicas
  roles : ∀ {id shard t}, c.shards.lookup id = some shard → targets.lookup id = some t →
    (c'.heap.read shard.replicas).map (ReplicaStatus.setRole t) =
      (c.heap.read shard.replicas).map (ReplicaStatus.setRole t)
  touched : ∀ {id shard t}, c.shards.lookup id = some shard → targets.lookup id = some t →
    id ∈ done → c'.heap.read shard.replicas =
      (c.heap.read shard.replicas).map (ReplicaStatus.setRole t)

/-- Shards that share their slice have the same target. -/
def SameTargets (targets : AList fun _ : String => String)
    (c : ControlPlane (Arrays ReplicaStatus) SliceRef) : Prop :=
  ∀ {id id' shard shard'}, c.shards.lookup id = some shard → c.shards.lookup id' = some shard' →
    shard.replicas.arr = shard'.replicas.arr → targets.lookup id = targets.lookup id'

theorem Drained.start (h : Shared c.heap c.shards) : Drained targets [] c c := by
  refine ⟨fun id => ?_, fun hs => h.valid hs, fun _ _ => rfl, fun _ _ => rfl,
    fun _ _ hmem => absurd hmem List.not_mem_nil⟩
  simp

/-- A shard without a target, or none at all, is passed over. -/
theorem Drained.skip (h : Drained targets done c c')
    (hskip : c.shards.lookup id ≠ none → targets.lookup id = none) :
    Drained targets (done ++ [id]) c c' := by
  have hnone : ∀ {shard}, c.shards.lookup id = some shard → targets.lookup id = none := by
    intro shard hs
    exact hskip (by rw [hs]; exact Option.some_ne_none _)
  refine ⟨fun id₁ => ?_, h.valid, h.untouched, h.roles, fun {id₁ shard t} hs htarget hmem => ?_⟩
  · rw [h.shards]
    rcases hs : c.shards.lookup id₁ with _ | shard
    · rfl
    rw [Option.map_some, Option.map_some]
    by_cases hid : id₁ = id
    · rw [hid] at hs ⊢
      simp [hnone hs]
    · simp [hid]
  · rcases List.mem_append.mp hmem with hmem | hmem
    · exact h.touched hs htarget hmem
    · rw [List.mem_singleton.mp hmem] at hs htarget
      rw [hnone hs] at htarget
      cases htarget

/-- **One turn of the drain.** -/
theorem Drained.step (grow : ℕ → ℕ → ℕ) (h : Drained targets done c c')
    (hshared : Shared c.heap c.shards) (hsame : SameTargets targets c) (id : String) :
    Drained targets (done ++ [id]) c (ControlPlane.drainShard (slices grow) targets c' id) := by
  rcases htarget : targets.lookup id with _ | t
  · have heq : ControlPlane.drainShard (slices grow) targets c' id = c' := by
      rw [ControlPlane.drainShard, htarget]
    rw [heq]
    exact h.skip fun _ => htarget
  rcases hs₀ : c.shards.lookup id with _ | shard₀
  · have heq : ControlPlane.drainShard (slices grow) targets c' id = c' := by
      rw [ControlPlane.drainShard, htarget, h.shards, hs₀]
      rfl
    rw [heq]
    exact h.skip fun hc => absurd hs₀ hc
  obtain ⟨shardₖ, hsₖ, hledₖ⟩ : ∃ shardₖ, c'.shards.lookup id = some shardₖ ∧
      ({ shardₖ with leader := t } : ShardStatus SliceRef) = { shard₀ with leader := t } := by
    rw [h.shards, hs₀, Option.map_some]
    refine ⟨_, rfl, ?_⟩
    split <;> rfl
  have hrefₖ : shardₖ.replicas = shard₀.replicas := (ShardStatus.mk.inj hledₖ).2.2.2.2
  have heap_eq : (ControlPlane.drainShard (slices grow) targets c' id).heap =
      c'.heap.update (ReplicaStatus.setRole t) shard₀.replicas := by
    rw [ControlPlane.drainShard, htarget, hsₖ, ← hrefₖ]
    rfl
  have shards_eq : (ControlPlane.drainShard (slices grow) targets c' id).shards =
      c'.shards.insert id { shard₀ with leader := t } := by
    rw [ControlPlane.drainShard, htarget, hsₖ, ← hledₖ]
    rfl
  -- a slice is the one that is written, and has the target, or is left alone
  have hcases : ∀ {id₁ shard}, c.shards.lookup id₁ = some shard →
      (targets.lookup id₁ = some t ∧
        (ControlPlane.drainShard (slices grow) targets c' id).heap.read shard.replicas =
          (c.heap.read shard.replicas).map (ReplicaStatus.setRole t)) ∨
      (id₁ ≠ id ∧ (ControlPlane.drainShard (slices grow) targets c' id).heap.read shard.replicas =
        c'.heap.read shard.replicas) := by
    intro id₁ shard hs
    rw [heap_eq]
    by_cases harr : shard₀.replicas.arr = shard.replicas.arr
    · have htarget₁ := (hsame hs₀ hs harr).symm.trans htarget
      rw [← hshared.shared hs₀ hs harr, Arrays.read_update (h.valid hs₀), h.roles hs₀ htarget]
      exact .inl ⟨htarget₁, rfl⟩
    · rw [Arrays.read_update_of_ne harr]
      refine .inr ⟨fun hid => harr ?_, rfl⟩
      rw [Option.some.inj (hs₀.symm.trans (hid ▸ hs))]
  refine ⟨fun id₁ => ?_, fun {id₁ shard} hs => ?_, fun {id₁ shard} hs hnone => ?_,
    fun {id₁ shard t'} hs htarget' => ?_, fun {id₁ shard t'} hs htarget' hmem => ?_⟩
  · rw [shards_eq]
    by_cases hid : id₁ = id
    · rw [hid, AList.lookup_insert, hs₀, Option.map_some, if_pos (by simp), htarget]
      rfl
    · rw [AList.lookup_insert_ne hid, h.shards]
      simp [hid]
  · rw [heap_eq]
    exact (h.valid hs).update (h.valid hs₀) _
  · rcases hcases hs with ⟨htarget₁, -⟩ | ⟨-, hread⟩
    · rw [hnone] at htarget₁
      cases htarget₁
    · exact hread.trans (h.untouched hs hnone)
  · rcases hcases hs with ⟨htarget₁, hread⟩ | ⟨-, hread⟩
    · obtain rfl : t' = t := Option.some.inj (htarget'.symm.trans htarget₁)
      rw [hread, List.map_map]
      exact List.map_congr_left fun r _ => setRole_setRole t' r
    · rw [hread]
      exact h.roles hs htarget'
  · rcases hcases hs with ⟨htarget₁, hread⟩ | ⟨hne, hread⟩
    · obtain rfl : t' = t := Option.some.inj (htarget'.symm.trans htarget₁)
      exact hread
    · rw [List.mem_append, List.mem_singleton] at hmem
      exact hread.trans (h.touched hs htarget' (hmem.resolve_right hne))

theorem Drained.foldl (grow : ℕ → ℕ → ℕ) (hshared : Shared c.heap c.shards)
    (hsame : SameTargets targets c) (ids : List String) : ∀ done c', Drained targets done c c' →
      Drained targets (done ++ ids) c
        (ids.foldl (ControlPlane.drainShard (slices grow) targets) c') := by
  induction ids with
  | nil =>
    intro done c' h
    rw [List.append_nil]
    exact h
  | cons id ids ih =>
    intro done c' h
    have := ih (done ++ [id]) _ (h.step grow hshared hsame id)
    rwa [List.append_assoc] at this

/-- Who shares a slice has the same leader, and so the same target. -/
theorem sameTargets (hl : Layout c) (hsound : Sound grow c) {nodeID : String}
    (h : c.drainTargets (slices grow) nodeID c.order = .ok targets) : SameTargets targets c := by
  intro id id' shard shard' hs hs' harr
  have hlookup := (lookup_drainTargets h).1
  have hlead := hsound.leader_eq hs hs' harr
  rw [hlookup, hlookup, if_pos (hl.mem_order_of_lookup hs), if_pos (hl.mem_order_of_lookup hs'),
    view_of_lookup hs, view_of_lookup hs', Option.bind_some, Option.bind_some, drainTargetOf,
    drainTargetOf, ShardStatus.read, ShardStatus.read, hlead, hsound.memory.shared hs hs' harr]

/-- **What a drain makes of the shards.** -/
theorem view_drained (hl : Layout c) {nodeID : String}
    (h : c.drainTargets (slices grow) nodeID c.order = .ok targets)
    (hd : Drained targets c.order c c') (id : String) :
    c'.view (slices grow) id = (c.view (slices grow) id).map (drainView nodeID) := by
  rcases hs : c.shards.lookup id with _ | shard
  · rw [ControlPlane.view, ControlPlane.view, hd.shards, hs]
    rfl
  have hmem := hl.mem_order_of_lookup hs
  have htarget := (lookup_drainTargets h).1 id
  rw [if_pos hmem, view_of_lookup hs, Option.bind_some, drainTargetOf] at htarget
  rw [view_of_lookup hs, ControlPlane.view, hd.shards, hs, Option.map_some, Option.map_some,
    Option.map_some, if_pos hmem, drainView]
  split at htarget
  · next hlead =>
    have hread := hd.touched hs htarget hmem
    rw [if_pos hlead, ShardStatus.read, htarget,
      show (slices grow).read c'.heap shard.replicas = _ from hread]
    rfl
  · next hlead =>
    have hread := hd.untouched hs htarget
    rw [if_neg hlead, ShardStatus.read, htarget,
      show (slices grow).read c'.heap shard.replicas = _ from hread]
    rfl

theorem Sound.drained (hsound : Sound grow c) (hl : Layout c) {nodeID : String}
    (h : c.drainTargets (slices grow) nodeID c.order = .ok targets)
    (hd : Drained targets c.order c c') : Sound grow c' := by
  refine ⟨hsound.memory.of_slices fun {id shard} hs => ?_, fun id shard hview => ?_⟩
  · rw [hd.shards] at hs
    obtain ⟨shard₀, hs₀, rfl⟩ := Option.map_eq_some_iff.mp hs
    refine ⟨id, shard₀, hs₀, ?_, hd.valid hs₀⟩
    split <;> rfl
  · rw [view_drained hl h hd] at hview
    obtain ⟨shard₀, hview₀, rfl⟩ := Option.map_eq_some_iff.mp hview
    have hmem : id ∈ c.order := by
      rw [hl.mem_order, ← isSome_view (S := slices grow), hview₀]
      rfl
    exact consistent_drainView (hsound.consistent id shard₀ hview₀)
      ((lookup_drainTargets h).2 id hmem shard₀ hview₀)

/-- **A drain**, of all shards at once. -/
theorem exists_drained (hl : Layout c) (hsound : Sound grow c)
    (h : c.applyDrainPayload (slices grow) m = .ok c') :
    ∃ targets, c.drainTargets (slices grow) m.nodeID c.order = .ok targets ∧
      Drained targets c.order c c' := by
  obtain ⟨targets, htargets, hc'⟩ := map_eq_ok h
  have hd := Drained.foldl grow hsound.memory (sameTargets hl hsound htargets) c.order [] c
    (Drained.start hsound.memory)
  rw [List.nil_append] at hd
  refine ⟨targets, htargets, ?_⟩
  rw [← hc']
  dsimp only
  split
  · exact ⟨hd.shards, hd.valid, hd.untouched, hd.roles, hd.touched⟩
  · exact hd

end Drain

/-! ## The start -/

theorem consistent_newReplicas {leader : String} {nodes : List String} (h : leader ∈ nodes)
    (id : String) (start stop : Bytes) :
    Consistent ⟨id, start, stop, leader, newReplicas leader nodes⟩ := by
  refine ⟨⟨_, List.mem_map_of_mem h, rfl⟩, fun r hr => ?_⟩
  obtain ⟨node, -, rfl⟩ := List.mem_map.mp hr
  by_cases heq : node = leader
  · simp [heq]
  · simp [heq]

theorem mem_or_appended (leader : String) (replicas : List String) :
    leader ∈ if leader ∈ replicas then replicas else replicas ++ [leader] := by
  split
  · next h => exact h
  · exact List.mem_append_right _ List.mem_cons_self

theorem leader_mem_nodes (cfg : ShardConfig) (nodeID : String) :
    (cfg.nodes nodeID).1 ∈ (cfg.nodes nodeID).2 := mem_or_appended _ _

/-- A new shard with an array of its own. -/
theorem Sound.make (h : Sound grow c) (id : String) (shard : ShardStatus SliceRef)
    {replicas : List ReplicaStatus}
    (hc : Consistent ⟨shard.id, shard.startKey, shard.endKey, shard.leader, replicas⟩)
    (hnew : shard.replicas = (c.heap.alloc replicas []).2)
    (hheap : c'.heap = (c.heap.alloc replicas []).1) (hshards : c'.shards = c.shards.insert id shard) :
    Sound grow c' := by
  refine ⟨?_, fun id' shard' hview => ?_⟩
  · rw [hheap, hshards]
    exact h.memory.alloc hnew id
  rw [ControlPlane.view, hheap, hshards] at hview
  by_cases hid : id' = id
  · rw [hid, AList.lookup_insert, Option.map_some] at hview
    rw [← Option.some.inj hview, ShardStatus.read, hnew,
      show (slices grow).read (c.heap.alloc replicas []).1 (c.heap.alloc replicas []).2 = _ from
        Arrays.read_alloc c.heap replicas []]
    exact hc
  · rw [AList.lookup_insert_ne hid] at hview
    obtain ⟨shard₀, hs₀, rfl⟩ := Option.map_eq_some_iff.mp hview
    have hread : (slices grow).read (c.heap.alloc replicas []).1 shard₀.replicas =
        (slices grow).read c.heap shard₀.replicas :=
      Arrays.read_alloc_of_valid (h.memory.valid hs₀) replicas []
    rw [ShardStatus.read, hread]
    exact h.consistent id' _ (view_of_lookup hs₀)

theorem sound_new (grow : ℕ → ℕ → ℕ) (nodeID clusterID : String) :
    Sound grow (ControlPlane.new (slices grow) nodeID clusterID) := by
  refine ⟨Shared.empty _, fun id shard hview => ?_⟩
  rw [ControlPlane.view, ControlPlane.new, AList.lookup_empty] at hview
  cases hview

theorem Sound.addConfig (h : Sound grow c) (cfg : ShardConfig) :
    Sound grow (ControlPlane.addConfig (slices grow) c cfg) :=
  h.make (trimSpace cfg.id) ⟨trimSpace cfg.id, cfg.startKey, cfg.endKey, (cfg.nodes c.nodeID).1, _⟩
    (consistent_newReplicas (leader_mem_nodes cfg c.nodeID) _ _ _) rfl rfl rfl

theorem Sound.addConfigs (h : Sound grow c) {shardMap : List ShardConfig}
    (hadd : ControlPlane.addConfigs (slices grow) c shardMap = .ok c') : Sound grow c' := by
  induction shardMap generalizing c with
  | nil =>
    rw [← Except.ok.inj hadd]
    exact h
  | cons cfg shardMap ih =>
    rw [ControlPlane.addConfigs] at hadd
    split at hadd
    · cases hadd
    split at hadd
    · cases hadd
    exact ih (h.addConfig cfg) hadd

theorem Sound.addDefault (grow : ℕ → ℕ → ℕ) (nodeID clusterID : String) :
    Sound grow (ControlPlane.addDefault (slices grow)
      (ControlPlane.new (slices grow) nodeID clusterID)) := by
  refine (sound_new grow nodeID clusterID).make "default" ⟨"default", [], [], nodeID, _⟩ ?_ rfl rfl rfl
  refine ⟨⟨_, List.mem_cons_self, rfl⟩, fun r hr => ?_⟩
  rw [List.mem_singleton.mp hr]
  exact iff_of_true rfl rfl

theorem Sound.rebuildRoutes (h : Sound grow c) (hr : c.rebuildRoutes = .ok c') : Sound grow c' := by
  obtain ⟨routes, -, rfl⟩ := map_eq_ok hr
  exact ⟨h.memory, h.consistent⟩

/-- **A control plane at its start is sound.** -/
theorem bootstrap_sound {nodeID clusterID : String} {shardMap : List ShardConfig}
    (h : ControlPlane.bootstrap (slices grow) nodeID clusterID shardMap = .ok c) : Sound grow c := by
  rw [ControlPlane.bootstrap] at h
  split at h
  · exact (Sound.addDefault grow nodeID clusterID).rebuildRoutes h
  · rcases hadd : ControlPlane.addConfigs (slices grow) (ControlPlane.new (slices grow) nodeID
        clusterID) shardMap with err | c₁
    · rw [hadd] at h
      cases h
    · rw [hadd] at h
      exact ((sound_new grow nodeID clusterID).addConfigs hadd).rebuildRoutes h

/-! ## Runs -/

/-- **The condition on a mutation**: if it is a transfer that is carried
out, it is a safe one. -/
def SafeMutation (c : ControlPlane (Arrays ReplicaStatus) SliceRef) (m : ControlMutation) : Prop :=
  executes c m = true → m.kind = .transferLeader → safeTransfer c m = true

instance (c : ControlPlane (Arrays ReplicaStatus) SliceRef) (m : ControlMutation) :
    Decidable (SafeMutation c m) := inferInstanceAs (Decidable (_ → _ → _))

/-- **What a mutation has to keep.** The shards are consistent after it,
and one that names a shard leaves the others alone. -/
def KeepsRoles (grow : ℕ → ℕ → ℕ) (c : ControlPlane (Arrays ReplicaStatus) SliceRef)
    (m : ControlMutation) (c' : ControlPlane (Arrays ReplicaStatus) SliceRef) : Prop :=
  RolesConsistent (slices grow) c' ∧
    (m.kind ≠ .prepareDrain → ∀ id, id ≠ m.shardID → id ∈ c.shards →
      c'.view (slices grow) id = c.view (slices grow) id)

/-- **Payloads keep what they have to, if they are safe.** -/
theorem Sound.payload (hsound : Sound grow c) (hl : Layout c)
    (hsafe : m.kind = .transferLeader → safeTransfer c m = true)
    (h : c.applyControlPayload (slices grow) m = .ok c') : Sound grow c' ∧ KeepsRoles grow c m c' := by
  rw [ControlPlane.applyControlPayload] at h
  split at h
  · next hkind =>
    have hs := hsound.transfer hl h (hsafe hkind)
    exact ⟨hs, hs.consistent, fun _ id hid _ => view_transfer_of_safe hl hsound h (hsafe hkind) hid⟩
  · obtain ⟨parent, left, right, hsplit⟩ := exists_split h
    have hs := hsound.split hsplit
    exact ⟨hs, hs.consistent, fun _ id hid hmem => hsplit.view_of_ne hid hmem⟩
  · next hkind =>
    obtain ⟨targets, htargets, hd⟩ := exists_drained hl hsound h
    have hs := hsound.drained hl htargets hd
    exact ⟨hs, hs.consistent, fun hne => absurd hkind hne⟩
  · cases h

/-- **And only then.** -/
theorem keepsRoles_iff (hsound : Sound grow c) (hl : Layout c)
    (h : c.applyControlPayload (slices grow) m = .ok c') :
    KeepsRoles grow c m c' ↔ (m.kind = .transferLeader → safeTransfer c m = true) := by
  refine ⟨fun hkeeps hkind => ?_, fun hsafe => (hsound.payload hl hsafe h).2⟩
  by_contra hshared
  rw [ControlPlane.applyControlPayload, hkind] at h
  obtain ⟨id, hid, hmem, hne⟩ := exists_changed_of_shared hl hsound h (Bool.eq_false_iff.mpr hshared)
  exact hne (hkeeps.2 (by rw [hkind]; exact fun hc => by cases hc) id hid hmem)

theorem KeepsRoles.congr {c'' : ControlPlane (Arrays ReplicaStatus) SliceRef}
    (h : SameShards c' c'') : KeepsRoles grow c m c'' ↔ KeepsRoles grow c m c' := by
  have hview : ∀ id, c''.view (slices grow) id = c'.view (slices grow) id := fun id => by
    rw [ControlPlane.view, h.shards, h.heap]
    rfl
  simp only [KeepsRoles, RolesConsistent, hview]

/-- The control plane is in order and sound. -/
structure SoundInOrder (grow : ℕ → ℕ → ℕ) (K : Bytes → Prop)
    (c : ControlPlane (Arrays ReplicaStatus) SliceRef) : Prop where
  inOrder : InOrder K c
  sound : Sound grow c

/-- **Soundness is an invariant of safe mutations.** -/
theorem sound_invariant (grow : ℕ → ℕ → ℕ) (K : Bytes → Prop) :
    Invariant (slices grow) (SoundInOrder grow K) SafeMutation where
  layout h := h.inOrder.layout
  table h := h.inOrder.table
  restored h hr := ⟨(inOrder_invariant _ K).restored h.inOrder hr, h.sound.restored hr⟩
  observe {c} h index :=
    ⟨(inOrder_invariant (slices grow) K).observe h.inOrder index,
      h.sound.of_sameShards (sameShards_observe c index)⟩
  mutates {c m c'} h hsafe hm := by
    refine ⟨(inOrder_invariant _ K).mutates h.inOrder trivial hm, ?_⟩
    obtain ⟨fingerprint, c₁, hfp, hcheck, hpayload, rfl⟩ := hm
    have hs := (h.sound.payload h.inOrder.layout (hsafe (executes_eq_true hfp hcheck)) hpayload).1
    exact hs.of_sameShards (sameShards_noteOperationApplied c₁ m.options fingerprint m)

section Runs

variable {nodeID clusterID : String} {shardMap : List ShardConfig} {ops : List Op}
  {n₀ n : Node (Arrays ReplicaStatus) SliceRef}

theorem sound_run (hstart : Node.start (slices grow) nodeID clusterID shardMap = some n₀)
    (hsafe : Along (Node.act (slices grow)) (Meets SafeMutation) n₀ ops)
    (hrun : runs (Node.act (slices grow)) n₀ ops = some n) :
    Holds (slices grow) (SoundInOrder grow n₀.plane.Covers) n := by
  obtain ⟨hl, hu⟩ := bootstrap_inOrder (exists_bootstrap hstart).1
  have h₀ : Holds (slices grow) (SoundInOrder grow n₀.plane.Covers) n₀ :=
    holds_start hstart ⟨⟨hl, hu.table, fun _ => Iff.rfl⟩,
      bootstrap_sound (exists_bootstrap hstart).1⟩
  exact h₀.runs (sound_invariant _ _) (lawful_slices grow) hsafe hrun

/-- **Leaders and roles.** In every state that a node reaches by safe
mutations all shards are consistent. A mutation that is applied there
keeps them so and leaves the shards it does not name alone exactly if it
is safe. -/
theorem roles_run (hstart : Node.start (slices grow) nodeID clusterID shardMap = some n₀)
    (hsafe : Along (Node.act (slices grow)) (Meets SafeMutation) n₀ ops)
    (hrun : runs (Node.act (slices grow)) n₀ ops = some n) :
    RolesConsistent (slices grow) n.plane ∧
      ∀ entry save n', n.applyCommittedControlFromLog (slices grow) entry save = (.applied, n') →
        (KeepsRoles grow n.plane entry.mutation n'.plane ↔
          SafeMutation n.plane entry.mutation) := by
  have h := (sound_run hstart hsafe hrun).plane
  refine ⟨h.sound.consistent, fun entry save n' happly => ?_⟩
  obtain ⟨c', ⟨fingerprint, c₁, hfp, hcheck, hpayload, rfl⟩, hplane, -⟩ := mutates_of_applied happly
  have hs : SameShards c₁ n'.plane := by
    rw [hplane]
    exact (sameShards_noteOperationApplied c₁ _ fingerprint entry.mutation).trans
      (sameShards_observe _ _)
  rw [KeepsRoles.congr hs, keepsRoles_iff h.sound h.inOrder.layout hpayload, SafeMutation]
  exact ⟨fun hsafe _ => hsafe, fun hsafe => hsafe (executes_eq_true hfp hcheck)⟩

/-- A shard on two nodes. -/
def twoNodes : List ShardConfig := [⟨"s", [], [], ["n1", "n2"], "n1"⟩]

/-- It is split, and one half moves to the other node. -/
def splitAndMove (target : String) : List Op :=
  [.commit ⟨⟨1, 1⟩, ⟨.split, "s", "", [5], "", "", none⟩⟩ .ok,
    .commit ⟨⟨2, 1⟩, ⟨.transferLeader, "s-a", target, [], "", "", none⟩⟩ .ok]

/-- To a node without a replica, for which the slice has to move. -/
theorem roles_splitAndMove :
    ∃ n₀ n, Node.start (slices fun _ _ => 0) "n1" "c" twoNodes = some n₀ ∧
      runs (Node.act (slices fun _ _ => 0)) n₀ (splitAndMove "n3") = some n ∧
      n.reports = [.applied, .applied] ∧ RolesConsistent (slices fun _ _ => 0) n.plane := by
  have h : ((Node.start (slices fun _ _ => 0) "n1" "c" twoNodes).bind fun n₀ =>
      runs (Node.act (slices fun _ _ => 0)) n₀ (splitAndMove "n3")).map (fun n => n.reports) =
        some [.applied, .applied] := by decide +kernel
  have hcheck : (Node.start (slices fun _ _ => 0) "n1" "c" twoNodes).all fun n₀ =>
      check (Node.act (slices fun _ _ => 0)) (Meets SafeMutation) n₀ (splitAndMove "n3") := by
    decide +kernel
  obtain ⟨n₀, n, hstart, hrun, hreports⟩ := exists_run h
  rw [hstart] at hcheck
  exact ⟨n₀, n, hstart, hrun, hreports, (roles_run hstart (along_of_check hcheck) hrun).1⟩

/-- **To the other replica**: the half that stays has the first node as its
leader, but the second one in the role. -/
theorem splitAndMove_breaks_roles :
    ∃ n₀ n, Node.start (slices fun _ _ => 0) "n1" "c" twoNodes = some n₀ ∧
      runs (Node.act (slices fun _ _ => 0)) n₀ (splitAndMove "n2") = some n ∧
      n.reports = [.applied, .applied] ∧ ¬RolesConsistent (slices fun _ _ => 0) n.plane := by
  have h : ((Node.start (slices fun _ _ => 0) "n1" "c" twoNodes).bind fun n₀ =>
      runs (Node.act (slices fun _ _ => 0)) n₀ (splitAndMove "n2")).map
        (fun n => (n.reports, n.plane.view (slices fun _ _ => 0) "s-b")) =
      some ([.applied, .applied], some ⟨"s-b", [5], [], "n1",
        [⟨"n1", .follower, true⟩, ⟨"n2", .leader, true⟩]⟩) := by decide +kernel
  obtain ⟨n₀, n, hstart, hrun, hpair⟩ := exists_run h
  obtain ⟨hreports, hview⟩ := Prod.mk.inj hpair
  refine ⟨n₀, n, hstart, hrun, hreports, fun hc => ?_⟩
  have := ((hc "s-b" _ hview).roles ⟨"n2", .leader, true⟩ (by decide)).mp rfl
  exact absurd this (by decide)

end Runs

end LSMEngine.Control
