import LSMEngine.Control.Layout
/-!
# Control plane — leaders and roles

A shard is consistent if its leader is one of its replicas and the
replicas on the leader's node, and only they, have the role of leader
(`Consistent`). A transfer and a drain give the shard a leader and its
replicas their roles (`transferView`, `drainView`), which keeps it so; a
split gives both halves the leader and the replicas of the shard
(`Split.view_eq`). Which shards a drain moves, and where to, is decided
before it moves any (`lookup_drainTargets`).
-/

namespace LSMEngine.Control

open CommitLog (Commit ControlEntry)

variable {H ρ : Type} {S : ReplicaStore H ρ} {id id' target : String} {m : ControlMutation}
variable {shard : ShardStatus (List ReplicaStatus)} {nodeID : String} {c c' : ControlPlane H ρ}
  {parent left right : ShardStatus ρ}

/-! ## Consistent shards -/

/-- **The leader is a replica, and the replicas on its node are those with
the role of leader.** -/
structure Consistent (shard : ShardStatus (List ReplicaStatus)) : Prop where
  leader : ∃ r ∈ shard.replicas, r.nodeID = shard.leader
  roles : ∀ r ∈ shard.replicas, r.role = .leader ↔ r.nodeID = shard.leader

/-- All shards are consistent. -/
def RolesConsistent (S : ReplicaStore H ρ) (c : ControlPlane H ρ) : Prop :=
  ∀ id shard, c.view S id = some shard → Consistent shard

theorem setRole_role (target : String) (r : ReplicaStatus) :
    (r.setRole target).role = .leader ↔ r.nodeID = target := by
  rw [ReplicaStatus.setRole]
  split
  · next h => exact iff_of_true rfl h
  · next h => exact iff_of_false (by simp) h

theorem setRole_nodeID (target : String) (r : ReplicaStatus) :
    (r.setRole target).nodeID = r.nodeID := by
  rw [ReplicaStatus.setRole]
  split <;> rfl

theorem setRole_setRole (target : String) (r : ReplicaStatus) :
    (r.setRole target).setRole target = r.setRole target := by
  rw [ReplicaStatus.setRole, setRole_nodeID, ReplicaStatus.setRole]
  split <;> rfl

/-- The roles are set already. -/
theorem setRole_eq_self {r : ReplicaStatus} (h : r.role = .leader ↔ r.nodeID = target) :
    r.setRole target = r := by
  obtain ⟨nodeID, role, healthy⟩ := r
  rw [ReplicaStatus.setRole]
  split
  · next heq => rw [show role = .leader from h.mpr heq]
  · next hne =>
    rcases role with _ | _
    · exact absurd (h.mp rfl) hne
    · rfl

theorem hasReplica_eq_true {replicas : List ReplicaStatus} :
    hasReplica replicas target = true ↔ ∃ r ∈ replicas, r.nodeID = target := by
  simp [hasReplica]

/-- The shard with a leader and the roles that follow. -/
def ShardStatus.led (target : String) (shard : ShardStatus (List ReplicaStatus)) :
    ShardStatus (List ReplicaStatus) :=
  { shard with leader := target, replicas := shard.replicas.map (ReplicaStatus.setRole target) }

theorem Consistent.led (h : ∃ r ∈ shard.replicas, r.nodeID = target) :
    Consistent (shard.led target) := by
  obtain ⟨r, hr, hnode⟩ := h
  refine ⟨⟨r.setRole target, List.mem_map_of_mem hr, ?_⟩, fun r' hr' => ?_⟩
  · rw [setRole_nodeID]
    exact hnode
  · obtain ⟨r₀, -, rfl⟩ := List.mem_map.mp hr'
    rw [setRole_role, setRole_nodeID]
    rfl

/-- **What a transfer makes of a shard.** -/
def transferView (target : String) (shard : ShardStatus (List ReplicaStatus)) :
    ShardStatus (List ReplicaStatus) :=
  ShardStatus.led target { shard with
    replicas := if hasReplica shard.replicas target then shard.replicas
      else shard.replicas ++ [⟨target, .follower, true⟩] }

theorem consistent_transferView (target : String) (shard : ShardStatus (List ReplicaStatus)) :
    Consistent (transferView target shard) := by
  refine Consistent.led ?_
  by_cases h : hasReplica shard.replicas target = true
  · simp only [h, if_true]
    exact hasReplica_eq_true.mp h
  · simp only [h]
    exact ⟨_, List.mem_append_right _ List.mem_cons_self, rfl⟩

/-- **What a drain makes of a shard.** -/
def drainView (nodeID : String) (shard : ShardStatus (List ReplicaStatus)) :
    ShardStatus (List ReplicaStatus) :=
  if shard.leader = nodeID then shard.led (ControlPlane.drainTarget shard.replicas nodeID) else shard

theorem exists_drainTarget {replicas : List ReplicaStatus}
    (h : ControlPlane.drainTarget replicas nodeID ≠ "") :
    ∃ r ∈ replicas, r.nodeID = ControlPlane.drainTarget replicas nodeID := by
  rw [ControlPlane.drainTarget] at h ⊢
  split at h
  · exact absurd rfl h
  next r hfind => exact ⟨r, List.mem_of_find?_eq_some hfind, rfl⟩

theorem consistent_drainView (h : Consistent shard)
    (htarget : shard.leader = nodeID → ControlPlane.drainTarget shard.replicas nodeID ≠ "") :
    Consistent (drainView nodeID shard) := by
  rw [drainView]
  split
  · next hlead => exact Consistent.led (exists_drainTarget (htarget hlead))
  · exact h

/-- The replicas of a consistent shard tell its leader. -/
theorem Consistent.leader_eq {shard' : ShardStatus (List ReplicaStatus)} (h : Consistent shard)
    (h' : Consistent shard') (hreplicas : shard.replicas = shard'.replicas) :
    shard.leader = shard'.leader := by
  obtain ⟨r, hr, hnode⟩ := h.leader
  have hrole := (h.roles r hr).mpr hnode
  rw [← hnode]
  exact (h'.roles r (hreplicas ▸ hr)).mp hrole

/-! ## Splits -/

/-- **What a split makes of the shards.** -/
theorem Split.view_eq (h : Split c m c' parent left right) (id : String) :
    c'.view S id = if id = left.id then some (left.read S c.heap)
      else if id = right.id then some (right.read S c.heap)
      else if id = m.shardID then none
      else c.view S id := by
  rw [ControlPlane.view, h.heap]
  by_cases hl : id = left.id
  · rw [if_pos hl, hl, h.lookup_left, Option.map_some]
  rw [if_neg hl]
  by_cases hr : id = right.id
  · rw [if_pos hr, hr, h.lookup_right, Option.map_some]
  rw [if_neg hr]
  by_cases hp : id = m.shardID
  · rw [if_pos hp, h.shards, AList.lookup_insert_ne hr, AList.lookup_insert_ne hl, hp,
      AList.lookup_erase, Option.map_none]
  · rw [if_neg hp, h.shards, AList.lookup_insert_ne hr, AList.lookup_insert_ne hl,
      AList.lookup_erase_ne hp]
    rfl

theorem Split.consistent (h : Split c m c' parent left right) (hc : RolesConsistent S c) :
    RolesConsistent S c' := by
  have hparent : Consistent (parent.read S c.heap) :=
    hc m.shardID _ (by rw [ControlPlane.view, h.lookup, Option.map_some])
  intro id shard hview
  rw [h.view_eq] at hview
  split at hview
  · rw [← Option.some.inj hview, h.left_eq]
    exact ⟨hparent.leader, hparent.roles⟩
  split at hview
  · rw [← Option.some.inj hview, h.right_eq]
    exact ⟨hparent.leader, hparent.roles⟩
  split at hview
  · cases hview
  · exact hc id shard hview

/-- The other shards stay as they are. -/
theorem Split.view_of_ne (h : Split c m c' parent left right) (hid : id ≠ m.shardID)
    (hmem : id ∈ c.shards) : c'.view S id = c.view S id := by
  have hl : id ≠ left.id := fun hc => h.left_new (hc ▸ hmem)
  have hr : id ≠ right.id := fun hc => h.right_new (hc ▸ hmem)
  rw [h.view_eq, if_neg hl, if_neg hr, if_neg hid]

/-! ## The targets of a drain -/

/-- Where a drain moves a shard to. -/
def drainTargetOf (nodeID : String) (shard : ShardStatus (List ReplicaStatus)) : Option String :=
  if shard.leader = nodeID then some (ControlPlane.drainTarget shard.replicas nodeID) else none

/-- **The targets of a drain** are decided by what is in view. -/
theorem lookup_drainTargets {ids : List String} {targets : AList fun _ : String => String}
    (h : c.drainTargets S nodeID ids = .ok targets) :
    (∀ id, targets.lookup id =
      if id ∈ ids then (c.view S id).bind (drainTargetOf nodeID) else none) ∧
    ∀ id ∈ ids, ∀ shard, c.view S id = some shard → shard.leader = nodeID →
      ControlPlane.drainTarget shard.replicas nodeID ≠ "" := by
  induction ids generalizing targets with
  | nil =>
    rw [← Except.ok.inj h]
    exact ⟨fun id => by rw [AList.lookup_empty, if_neg List.not_mem_nil], by simp⟩
  | cons id₀ ids ih =>
    -- the shard is passed over: there is no target for it
    have hskip : ∀ targets, c.drainTargets S nodeID ids = .ok targets →
        (c.view S id₀).bind (drainTargetOf nodeID) = none →
        (∀ id, targets.lookup id =
          if id ∈ id₀ :: ids then (c.view S id).bind (drainTargetOf nodeID) else none) ∧
        ∀ id ∈ id₀ :: ids, ∀ shard, c.view S id = some shard → shard.leader = nodeID →
          ControlPlane.drainTarget shard.replicas nodeID ≠ "" := by
      intro targets h hnone
      obtain ⟨hlookup, hne⟩ := ih h
      refine ⟨fun id => ?_, fun id hid shard hview hlead => ?_⟩
      · rw [hlookup]
        by_cases hid : id = id₀
        · rw [hid, hnone, ite_self, ite_self]
        · simp only [List.mem_cons, hid, false_or]
      · rcases List.mem_cons.mp hid with rfl | hid
        · rw [hview, Option.bind_some, drainTargetOf, if_pos hlead] at hnone
          cases hnone
        · exact hne id hid shard hview hlead
    rw [ControlPlane.drainTargets] at h
    split at h
    · next hs => exact hskip targets h (by rw [ControlPlane.view, hs]; rfl)
    next shard hs =>
    have hview : c.view S id₀ = some (shard.read S c.heap) := by
      rw [ControlPlane.view, hs, Option.map_some]
    split at h
    · next hlead =>
      refine hskip targets h ?_
      rw [hview, Option.bind_some]
      exact if_neg hlead
    next hlead =>
    have hlead' : (shard.read S c.heap).leader = nodeID := not_not.mp hlead
    dsimp only at h
    split at h
    · cases h
    next htarget =>
    obtain ⟨rest, hrest, rfl⟩ := map_eq_ok h
    obtain ⟨hlookup, hne⟩ := ih hrest
    refine ⟨fun id => ?_, fun id hid shard' hview' hlead'' => ?_⟩
    · by_cases hid : id = id₀
      · rw [hid, AList.lookup_insert, if_pos List.mem_cons_self, hview, Option.bind_some,
          drainTargetOf, if_pos hlead']
        rfl
      · rw [AList.lookup_insert_ne hid, hlookup]
        simp only [List.mem_cons, hid, false_or]
    · rcases List.mem_cons.mp hid with rfl | hid
      · obtain rfl : shard.read S c.heap = shard' := Option.some.inj (hview.symm.trans hview')
        exact htarget
      · exact hne id hid shard' hview' hlead''

end LSMEngine.Control
