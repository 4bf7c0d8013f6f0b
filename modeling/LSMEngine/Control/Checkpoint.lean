import LSMEngine.Control.Routes
/-!
# Control plane — checkpoints mean what the state means

A snapshot holds copies, so what matters of a state is its `view`: the
shards with their replicas as lists. Two control planes `Agree` if they
look the same this way, whatever memory their replicas are in and on
whatever nodes they are.

A control plane in order, with its table of operations in order (`Table`),
has a snapshot that `validateControlPlaneState` accepts, and filling any
control plane with the snapshot gives one that agrees with it
(`applyState_snapshotState`). All that is asked of the memory is that
copying a list leaves the other lists alone (`Lawful`).
-/

namespace LSMEngine.Control

variable {H H' ρ ρ' : Type} {S : ReplicaStore H ρ} {S' : ReplicaStore H' ρ'}
  {c : ControlPlane H ρ} {c' : ControlPlane H' ρ'} {id : String}

/-! ## Copies -/

/-- A copy is the list it copies, and leaves the others alone. -/
structure Lawful (S : ReplicaStore H ρ) (Valid : H → ρ → Prop) : Prop where
  read_copy : ∀ h l, S.read (S.copy h l).1 (S.copy h l).2 = l
  valid_copy : ∀ h l, Valid (S.copy h l).1 (S.copy h l).2
  read_of_copy : ∀ {h r}, Valid h r → ∀ l, S.read (S.copy h l).1 r = S.read h r
  valid_of_copy : ∀ {h r}, Valid h r → ∀ l, Valid (S.copy h l).1 r

theorem lawful_slices (grow : ℕ → ℕ → ℕ) : Lawful (slices grow) Arrays.Valid where
  read_copy h l := Arrays.read_alloc h l _
  valid_copy h l := Arrays.valid_alloc h l _
  read_of_copy hr l := Arrays.read_alloc_of_valid hr l _
  valid_of_copy hr l := hr.alloc l _

/-! ## Views -/

/-- The shard under an id, with its replicas. -/
def ControlPlane.view (S : ReplicaStore H ρ) (c : ControlPlane H ρ) (id : String) :
    Option (ShardStatus (List ReplicaStatus)) :=
  (c.shards.lookup id).map (ShardStatus.read S c.heap)

theorem isSome_view : (c.view S id).isSome ↔ id ∈ c.shards := by
  rw [ControlPlane.view, Option.isSome_map]
  exact AList.lookup_isSome

theorem bounds_view :
    (c.view S id).map ShardStatus.bounds = (c.shards.lookup id).map ShardStatus.bounds := by
  rw [ControlPlane.view, Option.map_map]
  rfl

/-- **The control planes look the same**, but for what is the node's
own. -/
structure Agree (S : ReplicaStore H ρ) (c : ControlPlane H ρ) (S' : ReplicaStore H' ρ')
    (c' : ControlPlane H' ρ') : Prop where
  order : c.order = c'.order
  routes : c.routes = c'.routes
  shards : ∀ id, c.view S id = c'.view S' id
  revision : c.revision = c'.revision
  appliedOps : ∀ id, c.appliedOps.lookup id = c'.appliedOps.lookup id
  appliedOrder : c.appliedOrder = c'.appliedOrder
  commitLogAppliedIndex : c.commitLogAppliedIndex = c'.commitLogAppliedIndex
  past : c.past = c'.past

theorem Agree.symm (h : Agree S c S' c') : Agree S' c' S c :=
  ⟨h.order.symm, h.routes.symm, fun id => (h.shards id).symm, h.revision.symm,
    fun id => (h.appliedOps id).symm, h.appliedOrder.symm, h.commitLogAppliedIndex.symm,
    h.past.symm⟩

theorem mem_shards_congr (h : ∀ id, c.view S id = c'.view S' id) (id : String) :
    id ∈ c.shards ↔ id ∈ c'.shards := by
  rw [← isSome_view (S := S), ← isSome_view (S := S'), h id]

theorem length_keys_eq {shards : Shards ρ} {shards' : Shards ρ'}
    (h : ∀ id, id ∈ shards ↔ id ∈ shards') : shards.keys.length = shards'.keys.length := by
  refine List.Perm.length_eq ((List.perm_ext_iff_of_nodup (AList.keys_nodup _)
    (AList.keys_nodup _)).mpr fun id => ?_)
  rw [← AList.mem_keys, ← AList.mem_keys]
  exact h id

/-- Routes are built of what is in view. -/
theorem buildShardRoutes_view (h : ∀ id, c.view S id = c'.view S' id) (order : List String) :
    buildShardRoutes order c.shards = buildShardRoutes order c'.shards := by
  refine buildShardRoutes_congr (fun id => ?_) (length_keys_eq (mem_shards_congr h)) order
  rw [← bounds_view (S := S), ← bounds_view (S := S'), h id]

theorem named_view (h : ∀ id shard, c.shards.lookup id = some shard → shard.id = id)
    {shard : ShardStatus (List ReplicaStatus)} (hs : c.view S id = some shard) : shard.id = id := by
  obtain ⟨shard₀, hs₀, rfl⟩ := Option.map_eq_some_iff.mp hs
  exact h id shard₀ hs₀

theorem Agree.layout (h : Agree S c S' c') (hl : Layout c) : Layout c' := by
  refine ⟨?_, fun id shard hs => ?_, fun id hid => hl.trimmed id (h.order ▸ hid)⟩
  · rw [← h.order, ← h.routes, ← buildShardRoutes_view h.shards]
    exact hl.routes
  · have hview : c.view S id = some (shard.read S' c'.heap) := by
      rw [h.shards id, ControlPlane.view, hs, Option.map_some]
    have := named_view hl.named hview
    exact this

/-! ## Operations -/

/-- The order holds the ids of the table, each once. Each operation is
recorded under its id, and what is recorded has an id and a
fingerprint. -/
structure Recorded (c : ControlPlane H ρ) : Prop where
  nodup : c.appliedOrder.Nodup
  mem_order : ∀ id, id ∈ c.appliedOrder ↔ id ∈ c.appliedOps
  named : ∀ id op, c.appliedOps.lookup id = some op → op.id = id
  trimmed : ∀ id ∈ c.appliedOps, trimSpace id = id ∧ id ≠ ""
  fingerprint : ∀ id op, c.appliedOps.lookup id = some op → trimSpace op.fingerprint ≠ ""

/-- **The table of operations is in order**, with not too many of them. -/
structure Table (c : ControlPlane H ρ) : Prop extends Recorded c where
  bounded : c.appliedOrder.length ≤ maxAppliedControlOps

theorem Agree.table (h : Agree S c S' c') (ht : Table c) : Table c' := by
  have hmem : ∀ id, id ∈ c.appliedOps ↔ id ∈ c'.appliedOps := fun id => by
    rw [← AList.lookup_isSome, ← AList.lookup_isSome, h.appliedOps id]
  refine ⟨⟨h.appliedOrder ▸ ht.nodup, fun id => ?_, fun id op hop => ?_,
    fun id hid => ht.trimmed id ((hmem id).mpr hid), fun id op hop => ?_⟩, h.appliedOrder ▸ ht.bounded⟩
  · rw [← h.appliedOrder, ht.mem_order, hmem]
  · exact ht.named id op ((h.appliedOps id).trans hop)
  · exact ht.fingerprint id op ((h.appliedOps id).trans hop)

namespace Table

variable (h : Table c)
include h

theorem exists_of_mem (hid : id ∈ c.appliedOrder) : ∃ op, c.appliedOps.lookup id = some op :=
  Option.isSome_iff_exists.mp (AList.lookup_isSome.mpr ((h.mem_order id).mp hid))

/-- The snapshot of the operations has their ids in order. -/
theorem ids_snapshot : c.appliedOpsSnapshot.map AppliedOperation.id = c.appliedOrder := by
  have key : ∀ l : List String, (∀ id ∈ l, id ∈ c.appliedOrder) →
      (l.filterMap fun id => c.appliedOps.lookup id).map AppliedOperation.id = l := by
    intro l
    induction l with
    | nil => intro _; rfl
    | cons id l ih =>
      intro hl
      obtain ⟨op, hop⟩ := h.exists_of_mem (hl id List.mem_cons_self)
      rw [List.filterMap_cons, hop, List.map_cons, h.named id op hop,
        ih fun id hid => hl id (List.mem_cons_of_mem _ hid)]
  exact key c.appliedOrder fun _ => id

theorem mem_snapshot {op : AppliedOperation} :
    op ∈ c.appliedOpsSnapshot ↔ c.appliedOps.lookup op.id = some op := by
  rw [ControlPlane.appliedOpsSnapshot, List.mem_filterMap]
  constructor
  · rintro ⟨id, -, hop⟩
    rw [h.named id op hop]
    exact hop
  · intro hop
    refine ⟨op.id, (h.mem_order _).mpr (AList.lookup_isSome.mp ?_), hop⟩
    rw [hop]
    rfl

end Table

/-! ## Restoring -/

open ControlPlane (addShard addOperation)

section Shards

variable {Valid : H → ρ → Prop} {shards : List (ShardStatus (List ReplicaStatus))}
  {acc : H × Shards ρ}

/-- All the references are valid. -/
def AllValid (Valid : H → ρ → Prop) (acc : H × Shards ρ) : Prop :=
  ∀ id shard, acc.2.lookup id = some shard → Valid acc.1 shard.replicas

theorem Lawful.addShard_valid (L : Lawful S Valid) (hacc : AllValid Valid acc)
    (shard : ShardStatus (List ReplicaStatus)) : AllValid Valid (addShard S acc shard) := by
  intro id shard' hs
  by_cases hid : id = shard.id
  · rw [hid, addShard, AList.lookup_insert] at hs
    rw [← Option.some.inj hs]
    exact L.valid_copy _ _
  · rw [addShard, AList.lookup_insert_ne hid] at hs
    exact L.valid_of_copy (hacc id shard' hs) _

/-- What a shard added to the others looks like, and the others. -/
theorem Lawful.view_addShard (L : Lawful S Valid) (hacc : AllValid Valid acc)
    (shard : ShardStatus (List ReplicaStatus)) (id : String) :
    ((addShard S acc shard).2.lookup id).map (ShardStatus.read S (addShard S acc shard).1) =
      if shard.id = id then some shard
      else (acc.2.lookup id).map (ShardStatus.read S acc.1) := by
  split
  · next hid =>
    rw [addShard, ← hid, AList.lookup_insert, Option.map_some, ShardStatus.read, L.read_copy]
  · next hid =>
    rw [addShard, AList.lookup_insert_ne (Ne.symm hid)]
    rcases hs : acc.2.lookup id with _ | shard'
    · rfl
    · rw [Option.map_some, Option.map_some, ShardStatus.read, L.read_of_copy (hacc id shard' hs)]
      rfl

/-- **The shards that are copied look as they did.** -/
theorem Lawful.view_foldl_addShard (L : Lawful S Valid) (hacc : AllValid Valid acc)
    (hnodup : (shards.map ShardStatus.id).Nodup) (id : String) :
    ((shards.foldl (addShard S) acc).2.lookup id).map
        (ShardStatus.read S (shards.foldl (addShard S) acc).1) =
      (shards.find? fun shard => shard.id = id).or
        ((acc.2.lookup id).map (ShardStatus.read S acc.1)) := by
  induction shards generalizing acc with
  | nil => rfl
  | cons shard shards ih =>
    rw [List.map_cons, List.nodup_cons] at hnodup
    rw [List.foldl_cons, ih (L.addShard_valid hacc shard) hnodup.2, L.view_addShard hacc shard,
      List.find?_cons]
    by_cases hid : shard.id = id
    · have hnone : shards.find? (fun shard => shard.id = id) = none := by
        rw [List.find?_eq_none]
        intro shard' hmem heq
        exact hnodup.1 (List.mem_map.mpr ⟨shard', hmem, (of_decide_eq_true heq).trans hid.symm⟩)
      simp [hid, hnone]
    · simp [hid]

end Shards

section Operations

variable {ops : List AppliedOperation} {table : AList fun _ : String => AppliedOperation}

theorem lookup_foldl_addOperation_of_not_mem
    (h : id ∉ ops.map fun op => trimSpace op.id) :
    (ops.foldl addOperation table).lookup id = table.lookup id := by
  induction ops generalizing table with
  | nil => rfl
  | cons op ops ih =>
    rw [List.map_cons, List.mem_cons, not_or] at h
    rw [List.foldl_cons, ih h.2, addOperation, AList.lookup_insert_ne h.1]

theorem lookup_foldl_addOperation_of_mem {op : AppliedOperation}
    (table : AList fun _ : String => AppliedOperation)
    (hnodup : (ops.map fun op => trimSpace op.id).Nodup) (hop : op ∈ ops) :
    (ops.foldl addOperation table).lookup (trimSpace op.id) =
      some { op with id := trimSpace op.id } := by
  induction ops generalizing table with
  | nil => cases hop
  | cons op' ops ih =>
    rw [List.map_cons, List.nodup_cons] at hnodup
    rw [List.foldl_cons]
    rcases List.mem_cons.mp hop with rfl | hop
    · rw [lookup_foldl_addOperation_of_not_mem hnodup.1, addOperation, AList.lookup_insert]
    · exact ih _ hnodup.2 hop

end Operations

/-! ## Snapshots -/

theorem view_eq_shardSnapshot (h : Layout c) (hid : id ∈ c.order) :
    c.view S id = some (c.shardSnapshot S id) := by
  obtain ⟨shard, hs⟩ := h.exists_of_mem hid
  rw [ControlPlane.view, ControlPlane.shardSnapshot, hs, Option.map_some]

theorem id_shardSnapshot (h : Layout c) (hid : id ∈ c.order) : (c.shardSnapshot S id).id = id :=
  named_view h.named (view_eq_shardSnapshot h hid)

theorem ids_snapshotState (h : Layout c) :
    (c.snapshotState S).shards.map ShardStatus.id = c.order := by
  rw [ControlPlane.snapshotState, List.map_map]
  exact (List.map_congr_left fun id hid => id_shardSnapshot h hid).trans (List.map_id' c.order)

/-- **The shard of a snapshot under an id** is the one in view. -/
theorem find_snapshotState (h : Layout c) (id : String) :
    (c.snapshotState S).shards.find? (fun shard => shard.id = id) = c.view S id := by
  have key : ∀ l : List String, (∀ id ∈ l, id ∈ c.order) →
      (l.map (c.shardSnapshot S)).find? (fun shard => shard.id = id) =
        if id ∈ l then c.view S id else none := by
    intro l
    induction l with
    | nil => intro _; rfl
    | cons id' l ih =>
      intro hl
      rw [List.map_cons, List.find?_cons, id_shardSnapshot h (hl id' List.mem_cons_self),
        ih fun id hid => hl id (List.mem_cons_of_mem _ hid)]
      by_cases hid : id' = id
      · simp [← hid, view_eq_shardSnapshot h (hl id' List.mem_cons_self)]
      · simp [hid, Ne.symm hid]
  rw [ControlPlane.snapshotState, key c.order fun _ hid => hid]
  split
  · rfl
  · next hid =>
    rw [eq_comm, ← Option.not_isSome_iff_eq_none, isSome_view]
    exact fun hc => hid (h.mem_order.mpr hc)

theorem trimmed_snapshot (ht : Table c) :
    (c.appliedOpsSnapshot.map fun op => trimSpace op.id) = c.appliedOrder := by
  rw [← ht.ids_snapshot]
  refine List.map_congr_left fun op hop => ?_
  refine (ht.trimmed op.id (AList.lookup_isSome.mp ?_)).1
  rw [ht.mem_snapshot.mp hop]
  rfl

/-- **Restoring a snapshot.** Any control plane, on whatever memory, can
be filled with the snapshot of one in order, and then agrees with it. -/
theorem applyState_snapshotState {Valid : H' → ρ' → Prop} (L : Lawful S' Valid) (hl : Layout c)
    (ht : Table c) (c₀ : ControlPlane H' ρ') :
    ∃ c', c₀.applyState S' (c.snapshotState S) = (c', none) ∧ Agree S' c' S c ∧
      c'.draining = c.draining ∧ c'.nodeID = c₀.nodeID ∧ c'.clusterID = c₀.clusterID ∧
      (c'.heap, c'.shards) = (c.snapshotState S).shards.foldl (addShard S') (c₀.heap, ∅) := by
  have hview : ∀ id, (c₀.restored S' (c.snapshotState S)).view S' id = c.view S id := by
    intro id
    have hnone : AllValid Valid (c₀.heap, (∅ : Shards ρ')) := by
      intro id shard hs
      rw [AList.lookup_empty] at hs
      cases hs
    have hv := L.view_foldl_addShard hnone ((ids_snapshotState (S := S) hl).symm ▸ hl.nodup) id
    rw [find_snapshotState hl, AList.lookup_empty, Option.map_none, Option.or_none] at hv
    exact hv
  have hroutes : (c₀.restored S' (c.snapshotState S)).rebuildRoutes =
      .ok { c₀.restored S' (c.snapshotState S) with routes := c.routes } := by
    rw [ControlPlane.rebuildRoutes, buildShardRoutes_view hview,
      show (c₀.restored S' (c.snapshotState S)).order = c.order from rfl, hl.routes]
    rfl
  refine ⟨{ c₀.restored S' (c.snapshotState S) with routes := c.routes }, ?_, ?_, rfl, rfl, rfl, rfl⟩
  · rw [ControlPlane.applyState, hroutes]
  refine ⟨rfl, rfl, hview, rfl, fun id => ?_, trimmed_snapshot ht, rfl, rfl⟩
  -- the table of operations, record by record
  show ((c.appliedOpsSnapshot).foldl addOperation ∅).lookup id = c.appliedOps.lookup id
  by_cases hid : id ∈ c.appliedOrder
  · obtain ⟨op, hop⟩ := ht.exists_of_mem hid
    have hname := ht.named id op hop
    have htrim : trimSpace op.id = id := hname ▸ (ht.trimmed _ ((ht.mem_order id).mp hid)).1
    have hmem : op ∈ c.appliedOpsSnapshot := ht.mem_snapshot.mpr (hname ▸ hop)
    have hl := lookup_foldl_addOperation_of_mem ∅
      ((trimmed_snapshot ht).symm ▸ ht.nodup) hmem
    rw [htrim] at hl
    rw [hl, hop, ← hname]
  · rw [lookup_foldl_addOperation_of_not_mem (by rw [trimmed_snapshot ht]; exact hid),
      AList.lookup_empty, eq_comm, AList.lookup_eq_none]
    exact fun hc => hid ((ht.mem_order id).mpr hc)

/-! ## What the validator accepts -/

/-- Shards with ids that are there once make a map of the shards. -/
theorem checkShards_eq_ok {shards : List (ShardStatus (List ReplicaStatus))}
    (seen : Shards (List ReplicaStatus)) (hname : ∀ shard ∈ shards, trimSpace shard.id ≠ "")
    (hnodup : (shards.map ShardStatus.id).Nodup) (hseen : ∀ shard ∈ shards, shard.id ∉ seen) :
    ∃ all, checkShards shards seen = .ok all ∧
      ∀ id, all.lookup id = (shards.find? fun shard => shard.id = id).or (seen.lookup id) := by
  induction shards generalizing seen with
  | nil => exact ⟨seen, rfl, fun id => rfl⟩
  | cons shard shards ih =>
    rw [List.map_cons, List.nodup_cons] at hnodup
    have hother : ∀ shard' ∈ shards, shard'.id ≠ shard.id := fun shard' hmem heq =>
      hnodup.1 (List.mem_map.mpr ⟨shard', hmem, heq⟩)
    obtain ⟨all, hall, hlookup⟩ := ih (seen.insert shard.id shard)
      (fun shard' hmem => hname shard' (List.mem_cons_of_mem _ hmem)) hnodup.2
      (fun shard' hmem hc => ((AList.mem_insert seen).mp hc).elim (hother shard' hmem)
        (hseen shard' (List.mem_cons_of_mem _ hmem)))
    refine ⟨all, ?_, fun id => ?_⟩
    · rw [checkShards, if_neg (hname shard List.mem_cons_self),
        if_neg (hseen shard List.mem_cons_self), hall]
    · rw [hlookup, List.find?_cons]
      by_cases hid : shard.id = id
      · have hnone : shards.find? (fun shard => shard.id = id) = none := by
          rw [List.find?_eq_none]
          exact fun shard' hmem heq => hother shard' hmem ((of_decide_eq_true heq).trans hid.symm)
        subst hid
        simp [hnone]
      · simp [hid, AList.lookup_insert_ne (Ne.symm hid)]

theorem checkOperations_eq_ok {ops : List AppliedOperation} {seen : List String}
    (hname : ∀ op ∈ ops, trimSpace op.id ≠ "") (hnodup : (ops.map fun op => trimSpace op.id).Nodup)
    (hseen : ∀ op ∈ ops, trimSpace op.id ∉ seen)
    (hprint : ∀ op ∈ ops, trimSpace op.fingerprint ≠ "") : checkOperations ops seen = .ok () := by
  induction ops generalizing seen with
  | nil => rfl
  | cons op ops ih =>
    rw [List.map_cons, List.nodup_cons] at hnodup
    rw [checkOperations, if_neg (hname op List.mem_cons_self),
      if_neg (hseen op List.mem_cons_self), if_neg (hprint op List.mem_cons_self)]
    refine ih (fun op' hmem => hname op' (List.mem_cons_of_mem _ hmem)) hnodup.2 (fun op' hmem hc => ?_)
      fun op' hmem => hprint op' (List.mem_cons_of_mem _ hmem)
    rcases List.mem_cons.mp hc with heq | hc
    · exact hnodup.1 (List.mem_map.mpr ⟨op', hmem, heq⟩)
    · exact hseen op' (List.mem_cons_of_mem _ hmem) hc

/-- **A snapshot of a control plane in order is valid.** -/
theorem validate_snapshotState (hl : Layout c) (ht : Table c) :
    validateControlPlaneState (c.snapshotState S) = .ok () := by
  have horder : c.order ≠ [] := by
    intro hnil
    have := hl.routes
    rw [hnil] at this
    cases this
  have hshards : (c.snapshotState S).shards ≠ [] := fun hc => horder (List.map_eq_nil_iff.mp hc)
  have hname : ∀ shard ∈ (c.snapshotState S).shards, shard.id ∈ c.order := fun shard hmem => by
    rw [← ids_snapshotState (S := S) hl]
    exact List.mem_map.mpr ⟨shard, hmem, rfl⟩
  -- the shards and their routes
  obtain ⟨all, hall, hlookup⟩ := checkShards_eq_ok ∅
    (fun shard hmem => by
      rw [hl.trimmed _ (hname shard hmem)]
      exact hl.name_ne (hname shard hmem))
    ((ids_snapshotState (S := S) hl).symm ▸ hl.nodup) (fun shard _ => AList.notMem_empty _)
  have hview : ∀ id, all.lookup id = c.view S id := fun id => by
    rw [hlookup, find_snapshotState hl, AList.lookup_empty, Option.or_none]
  have hbuild : buildShardRoutes c.order all = .ok c.routes := by
    rw [← hl.routes]
    refine buildShardRoutes_congr (fun id => ?_) (length_keys_eq fun id => ?_) c.order
    · rw [hview, bounds_view]
    · rw [← AList.lookup_isSome, hview, isSome_view]
  -- the operations
  have hlen : c.appliedOpsSnapshot.length = c.appliedOrder.length := by
    rw [← ht.ids_snapshot, List.length_map]
  have hmem : ∀ op ∈ c.appliedOpsSnapshot, op.id ∈ c.appliedOps := fun op hop => by
    rw [← AList.lookup_isSome, ht.mem_snapshot.mp hop]
    rfl
  have hops : checkOperations c.appliedOpsSnapshot [] = .ok () := by
    refine checkOperations_eq_ok (fun op hop => ?_) ((trimmed_snapshot ht).symm ▸ ht.nodup)
      (fun _ _ => List.not_mem_nil) fun op hop => ht.fingerprint _ _ (ht.mem_snapshot.mp hop)
    rw [(ht.trimmed _ (hmem op hop)).1]
    exact (ht.trimmed _ (hmem op hop)).2
  have horder' : (c.snapshotState S).order ≠ [] := horder
  rw [validateControlPlaneState, if_neg horder', if_neg hshards, hall]
  have hbound : ¬maxAppliedControlOps < c.appliedOpsSnapshot.length := by
    rw [hlen]
    exact not_lt.mpr ht.bounded
  show (buildShardRoutes c.order all >>= fun _ =>
    if maxAppliedControlOps < c.appliedOpsSnapshot.length then
      Except.error (ControlErr.tooManyOperations c.appliedOpsSnapshot.length)
    else checkOperations c.appliedOpsSnapshot []) = .ok ()
  rw [hbuild, if_neg hbound, hops]
  rfl

/-- **A snapshot is loaded** on the node it was taken on, if a new control
plane can be filled with it. -/
theorem load_snapshotState (hl : Layout c) (ht : Table c) {loaded : ControlPlane H ρ}
    (h : (ControlPlane.new S c.nodeID c.clusterID).applyState S (c.snapshotState S) =
      (loaded, none)) :
    ControlPlane.load S c.nodeID c.clusterID (c.snapshotState S) = .ok loaded := by
  rw [ControlPlane.load, validate_snapshotState hl ht]
  show (if c.nodeID ≠ c.nodeID ∨ c.clusterID ≠ c.clusterID then _ else _) = _
  rw [if_neg (by simp), h]

end LSMEngine.Control
