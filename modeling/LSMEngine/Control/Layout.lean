import LSMEngine.Control.Operations
/-!
# Control plane — the shards cover the same keys for ever

A transfer and a drain leave the ids and ranges of the shards as they
are. A split puts two shards in the place of one, whose ranges are the
range of the one, cut at the key; it is accepted only if the routes can
be built anew. So every reached control plane is in order, and covers the
keys it covered at the start (`shardLayout_run`).

The table of operations stays in order as well, so that every reached
state can be saved and loaded (`checkpoint_run`).
-/

namespace LSMEngine.Control

variable {shardMap : List ShardConfig} {nodeID clusterID : String}

open CommitLog (Commit ControlEntry)

variable {H ρ : Type} {S : ReplicaStore H ρ} {c c' : ControlPlane H ρ} {m : ControlMutation}
  {id : String} {key : Bytes} {shard : ShardStatus ρ}

/-! ## What a layout depends on -/

/-- What the layout knows of a shard. -/
def ShardStatus.place (shard : ShardStatus ρ) : String × Bytes × Bytes :=
  (shard.id, shard.startKey, shard.endKey)

/-- Shards in the same places. -/
def SamePlaces (c c' : ControlPlane H ρ) : Prop :=
  ∀ id, (c'.shards.lookup id).map ShardStatus.place = (c.shards.lookup id).map ShardStatus.place

theorem SamePlaces.trans {c'' : ControlPlane H ρ} (h : SamePlaces c c') (h' : SamePlaces c' c'') :
    SamePlaces c c'' := fun id => (h' id).trans (h id)

theorem SamePlaces.exists_shard (h : SamePlaces c c') (hs : c'.shards.lookup id = some shard) :
    ∃ shard₀, c.shards.lookup id = some shard₀ ∧ shard.place = shard₀.place := by
  have hid := h id
  rw [hs, Option.map_some, eq_comm, Option.map_eq_some_iff] at hid
  obtain ⟨shard₀, hs₀, heq⟩ := hid
  exact ⟨shard₀, hs₀, heq.symm⟩

theorem SamePlaces.symm (h : SamePlaces c c') : SamePlaces c' c := fun id => (h id).symm

theorem SamePlaces.mem_iff (h : SamePlaces c c') (id : String) : id ∈ c'.shards ↔ id ∈ c.shards := by
  rw [← AList.lookup_isSome, ← AList.lookup_isSome]
  have := congrArg Option.isSome (h id)
  rw [Option.isSome_map, Option.isSome_map] at this
  rw [this]

/-- A layout stays if the shards stay in their places. -/
theorem Layout.of_samePlaces (h : Layout c) (horder : c'.order = c.order)
    (hroutes : c'.routes = c.routes) (hp : SamePlaces c c') : Layout c' := by
  refine ⟨?_, fun id shard hs => ?_, fun id hid => h.trimmed id (horder ▸ hid)⟩
  · rw [horder, hroutes, ← h.routes]
    refine buildShardRoutes_congr (fun id => ?_) (length_keys_eq hp.mem_iff) c.order
    have := congrArg (Option.map Prod.snd) (hp id)
    rw [Option.map_map, Option.map_map] at this
    exact this
  · obtain ⟨shard₀, hs₀, hplace⟩ := hp.exists_shard hs
    rw [(Prod.mk.inj hplace).1]
    exact h.named id shard₀ hs₀

theorem Layout.of_sameShards (h : Layout c) (hs : SameShards c c') : Layout c' :=
  h.of_samePlaces hs.order hs.routes fun id => by rw [hs.shards]

/-! ## The keys covered -/

/-- A shard holds the key. -/
def ControlPlane.Covers (c : ControlPlane H ρ) (key : Bytes) : Prop :=
  ∃ id shard, c.shards.lookup id = some shard ∧
    keyInRange key shard.startKey shard.endKey = true

theorem SamePlaces.covers_iff (h : SamePlaces c c') (key : Bytes) :
    c'.Covers key ↔ c.Covers key := by
  have half : ∀ {c c' : ControlPlane H ρ}, SamePlaces c c' → c'.Covers key → c.Covers key := by
    rintro c c' h ⟨id, shard, hs, hkey⟩
    obtain ⟨shard₀, hs₀, hplace⟩ := h.exists_shard hs
    obtain ⟨-, hbounds⟩ := Prod.mk.inj hplace
    obtain ⟨hstart, hstop⟩ := Prod.mk.inj hbounds
    exact ⟨id, shard₀, hs₀, by rw [← hstart, ← hstop]; exact hkey⟩
  exact ⟨half h, half h.symm⟩

/-! ## Transfers and drains -/

/-- A shard put in the place of one leaves all in their places. -/
theorem samePlaces_insert {shard' : ShardStatus ρ} (hs : c.shards.lookup id = some shard)
    (hplace : shard'.place = shard.place) (hc' : c'.shards = c.shards.insert id shard') :
    SamePlaces c c' := by
  intro id'
  rw [hc']
  by_cases hid : id' = id
  · rw [hid, AList.lookup_insert, hs, Option.map_some, Option.map_some, hplace]
  · rw [AList.lookup_insert_ne hid]

theorem place_addReplica (h : H) (shard : ShardStatus ρ) (target : String) :
    (ControlPlane.addReplica S h shard target).2.place = shard.place := by
  rw [ControlPlane.addReplica]
  split <;> rfl

theorem place_setLeader (h : H) (shard : ShardStatus ρ) (target : String) :
    (ControlPlane.setLeader S h shard target).2.place = shard.place := rfl

theorem samePlaces_of_transfer (h : c.applyTransferLeaderPayload S m = .ok c') :
    SamePlaces c c' ∧ c'.order = c.order ∧ c'.routes = c.routes := by
  rw [ControlPlane.applyTransferLeaderPayload] at h
  split at h
  · cases h
  next shard hs =>
  rw [← Except.ok.inj h]
  have hplace := (place_setLeader (S := S) (ControlPlane.addReplica S c.heap shard m.target).1
    (ControlPlane.addReplica S c.heap shard m.target).2 m.target).trans
    (place_addReplica c.heap shard m.target)
  exact ⟨samePlaces_insert hs hplace rfl, rfl, rfl⟩

theorem samePlaces_drainShard (targets : AList fun _ : String => String) (c : ControlPlane H ρ)
    (id : String) : SamePlaces c (ControlPlane.drainShard S targets c id) ∧
      (ControlPlane.drainShard S targets c id).order = c.order ∧
      (ControlPlane.drainShard S targets c id).routes = c.routes := by
  rw [ControlPlane.drainShard]
  split
  · next target shard _ hs =>
    exact ⟨samePlaces_insert hs (place_setLeader (S := S) c.heap shard target) rfl, rfl, rfl⟩
  · exact ⟨fun _ => rfl, rfl, rfl⟩

theorem samePlaces_foldl_drainShard (targets : AList fun _ : String => String)
    (ids : List String) : ∀ c : ControlPlane H ρ,
      SamePlaces c (ids.foldl (ControlPlane.drainShard S targets) c) ∧
      (ids.foldl (ControlPlane.drainShard S targets) c).order = c.order ∧
      (ids.foldl (ControlPlane.drainShard S targets) c).routes = c.routes := by
  induction ids with
  | nil => exact fun c => ⟨fun _ => rfl, rfl, rfl⟩
  | cons id ids ih =>
    intro c
    obtain ⟨hp, ho, hr⟩ := samePlaces_drainShard (S := S) targets c id
    obtain ⟨hp', ho', hr'⟩ := ih (ControlPlane.drainShard S targets c id)
    exact ⟨hp.trans hp', ho'.trans ho, hr'.trans hr⟩

theorem samePlaces_of_drain (h : c.applyDrainPayload S m = .ok c') :
    SamePlaces c c' ∧ c'.order = c.order ∧ c'.routes = c.routes := by
  obtain ⟨targets, -, rfl⟩ := map_eq_ok h
  have hd := samePlaces_foldl_drainShard (S := S) targets c.order c
  split
  · exact ⟨hd.1, hd.2.1, hd.2.2⟩
  · exact hd

/-! ## Splits -/

/-- **What an accepted split does.** The shard has its key strictly
inside; two new shards with its leader and its replicas take its place,
and the routes are built anew. -/
structure Split (c : ControlPlane H ρ) (m : ControlMutation) (c' : ControlPlane H ρ)
    (parent left right : ShardStatus ρ) : Prop where
  lookup : c.shards.lookup m.shardID = some parent
  inside : m.split ∈ parent.range
  left_eq : left = { parent with
    id := ControlPlane.uniqueShardID c.shards (m.shardID ++ "-a"), endKey := m.split }
  right_eq : right = { parent with
    id := ControlPlane.uniqueShardID c.shards (m.shardID ++ "-b"), startKey := m.split }
  shards : c'.shards = ((c.shards.erase m.shardID).insert left.id left).insert right.id right
  order : c'.order = ControlPlane.splitOrder c.order m.shardID left.id right.id
  routes : buildShardRoutes c'.order c'.shards = .ok c'.routes
  heap : c'.heap = c.heap

theorem exists_split (h : c.applySplitPayload m = .ok c') :
    ∃ parent left right, Split c m c' parent left right := by
  rw [ControlPlane.applySplitPayload] at h
  split at h
  · cases h
  next parent hs =>
  split at h
  · cases h
  next hnone =>
  obtain ⟨routes, hroutes, rfl⟩ := map_eq_ok h
  refine ⟨parent, _, _, hs, ?_, rfl, rfl, rfl, rfl, hroutes, rfl⟩
  rw [ControlPlane.splitErr] at hnone
  split at hnone
  · cases hnone
  next hrange => exact keyInRange_eq_true.mp (by simpa using hrange)

namespace Split

variable {parent left right : ShardStatus ρ} (h : Split c m c' parent left right)
include h

theorem left_id : left.id = ControlPlane.uniqueShardID c.shards (m.shardID ++ "-a") := by
  rw [h.left_eq]

theorem right_id : right.id = ControlPlane.uniqueShardID c.shards (m.shardID ++ "-b") := by
  rw [h.right_eq]

theorem left_new : left.id ∉ c.shards := h.left_id ▸ ControlPlane.uniqueShardID_not_mem _ _

theorem right_new : right.id ∉ c.shards := h.right_id ▸ ControlPlane.uniqueShardID_not_mem _ _

theorem left_ne_right : left.id ≠ right.id := by
  rw [h.left_id, h.right_id]
  exact ControlPlane.uniqueShardID_ne _ _

theorem parent_mem : m.shardID ∈ c.shards := AList.lookup_isSome.mp (by rw [h.lookup]; rfl)

/-- The shards after the split. -/
theorem lookup_iff : c'.shards.lookup id = some shard ↔
    (id = left.id ∧ shard = left) ∨ (id = right.id ∧ shard = right) ∨
      (id ≠ m.shardID ∧ c.shards.lookup id = some shard) := by
  have hnew : ∀ {id' : String}, id' ∉ c.shards → c.shards.lookup id' ≠ some shard := by
    intro id' hnot hc
    exact hnot (AList.lookup_isSome.mp (by rw [hc]; rfl))
  rw [h.shards]
  by_cases hr : id = right.id
  · rw [hr, AList.lookup_insert, Option.some.injEq, eq_comm]
    have := hnew h.right_new
    have := h.left_ne_right.symm
    tauto
  rw [AList.lookup_insert_ne hr]
  by_cases hl : id = left.id
  · rw [hl, AList.lookup_insert, Option.some.injEq, eq_comm]
    have := hnew h.left_new
    have := h.left_ne_right
    tauto
  rw [AList.lookup_insert_ne hl]
  by_cases hp : id = m.shardID
  · rw [hp, AList.lookup_erase]
    have hl' : m.shardID ≠ left.id := hp ▸ hl
    have hr' : m.shardID ≠ right.id := hp ▸ hr
    simp [hl', hr']
  · rw [AList.lookup_erase_ne hp]
    tauto

theorem lookup_left : c'.shards.lookup left.id = some left := h.lookup_iff.mpr (Or.inl ⟨rfl, rfl⟩)

theorem lookup_right : c'.shards.lookup right.id = some right :=
  h.lookup_iff.mpr (Or.inr (Or.inl ⟨rfl, rfl⟩))

/-- **A split keeps the layout.** -/
theorem layout (hl : Layout c) : Layout c' := by
  have hmem := hl.mem_order.mpr h.parent_mem
  have htrim := hl.trimmed _ hmem
  have hne := hl.name_ne hmem
  refine ⟨h.routes, fun id shard hs => ?_, fun id hid => ?_⟩
  · rcases h.lookup_iff.mp hs with ⟨rfl, rfl⟩ | ⟨rfl, rfl⟩ | ⟨-, hs⟩
    · rfl
    · rfl
    · exact hl.named id shard hs
  · rw [h.order, ControlPlane.splitOrder, List.mem_flatMap] at hid
    obtain ⟨id', hid', hid⟩ := hid
    split at hid
    · rcases List.mem_cons.mp hid with rfl | hid
      · rw [h.left_id]
        exact ControlPlane.trimSpace_half (c := 'a') htrim hne rfl (by decide)
      · rw [List.mem_singleton.mp hid, h.right_id]
        exact ControlPlane.trimSpace_half (c := 'b') htrim hne rfl (by decide)
    · rw [List.mem_singleton.mp hid]
      exact hl.trimmed id' hid'

/-- A split at the empty key would leave the first half open and the
second one behind it. -/
theorem split_ne_nil (hl : Layout c) : m.split ≠ [] := by
  intro hnil
  have hl' := h.layout hl
  have hleft : m.split ∈ left.range := by
    rw [ShardStatus.range, h.left_eq, KeyRange.mem_def, lt_stop_iff]
    exact ⟨h.inside.1, Or.inl hnil⟩
  have hright : m.split ∈ right.range := by
    have := (hl'.shard_nonempty h.lookup_right).start_mem
    rw [h.right_eq] at this ⊢
    exact this
  exact h.left_ne_right (hl'.shard_unique h.lookup_left hleft h.lookup_right hright)

/-- **The keys of the parent below the cut are those of the first half**,
and the others those of the second. -/
theorem mem_left (hl : Layout c) : key ∈ left.range ↔ key ∈ parent.range ∧ key < m.split := by
  rw [← KeyRange.mem_left_iff h.inside, h.left_eq, ShardStatus.range, keyRange,
    if_neg (h.split_ne_nil hl)]
  rfl

theorem mem_right : key ∈ right.range ↔ key ∈ parent.range ∧ ¬key < m.split := by
  rw [← KeyRange.mem_right_iff h.inside, h.right_eq]
  rfl

theorem covers_iff (hl : Layout c) (key : Bytes) : c'.Covers key ↔ c.Covers key := by
  constructor
  · rintro ⟨id, shard, hs, hkey⟩
    rcases h.lookup_iff.mp hs with ⟨rfl, rfl⟩ | ⟨rfl, rfl⟩ | ⟨-, hs⟩
    · have := ((h.mem_left hl).mp (keyInRange_eq_true.mp hkey)).1
      exact ⟨m.shardID, parent, h.lookup, keyInRange_eq_true.mpr this⟩
    · have := (h.mem_right.mp (keyInRange_eq_true.mp hkey)).1
      exact ⟨m.shardID, parent, h.lookup, keyInRange_eq_true.mpr this⟩
    · exact ⟨id, shard, hs, hkey⟩
  · rintro ⟨id, shard, hs, hkey⟩
    by_cases hid : id = m.shardID
    · obtain rfl : shard = parent := Option.some.inj (hs.symm.trans (hid ▸ h.lookup))
      have hkey' := keyInRange_eq_true.mp hkey
      by_cases hlt : key < m.split
      · exact ⟨_, left, h.lookup_left, keyInRange_eq_true.mpr ((h.mem_left hl).mpr ⟨hkey', hlt⟩)⟩
      · exact ⟨_, right, h.lookup_right, keyInRange_eq_true.mpr (h.mem_right.mpr ⟨hkey', hlt⟩)⟩
    · exact ⟨id, shard, h.lookup_iff.mpr (Or.inr (Or.inr ⟨hid, hs⟩)), hkey⟩

/-- **Where the keys go.** -/
theorem shardForKey_of_parent (hl : Layout c) (hkey : c.shardForKey key = some parent) :
    c'.shardForKey key = some (if key < m.split then left else right) := by
  have hin := (hl.shardForKey_eq_some.mp hkey).2
  have hl' := h.layout hl
  split
  · next hlt => exact hl'.shardForKey_eq_some.mpr ⟨h.lookup_left, (h.mem_left hl).mpr ⟨hin, hlt⟩⟩
  · next hlt => exact hl'.shardForKey_eq_some.mpr ⟨h.lookup_right, h.mem_right.mpr ⟨hin, hlt⟩⟩

theorem shardForKey_of_ne (hl : Layout c) (hkey : c.shardForKey key ≠ some parent) :
    c'.shardForKey key = c.shardForKey key := by
  have hl' := h.layout hl
  have hout : key ∉ parent.range := by
    refine fun hin => hkey (hl.shardForKey_eq_some.mpr ⟨?_, hin⟩)
    rw [hl.named _ _ h.lookup]
    exact h.lookup
  refine Option.ext fun shard => ?_
  rw [hl'.shardForKey_eq_some, hl.shardForKey_eq_some, h.lookup_iff]
  constructor
  · rintro ⟨⟨-, rfl⟩ | ⟨-, rfl⟩ | ⟨-, hs⟩, hin⟩
    · exact absurd ((h.mem_left hl).mp hin).1 hout
    · exact absurd (h.mem_right.mp hin).1 hout
    · exact ⟨hs, hin⟩
  · rintro ⟨hs, hin⟩
    refine ⟨Or.inr (Or.inr ⟨fun hid => hout ?_, hs⟩), hin⟩
    rw [hid, h.lookup] at hs
    rw [Option.some.inj hs]
    exact hin

end Split

/-! ## Mutations -/

theorem layout_of_payload (hl : Layout c) (h : c.applyControlPayload S m = .ok c') :
    Layout c' ∧ ∀ key, c'.Covers key ↔ c.Covers key := by
  rw [ControlPlane.applyControlPayload] at h
  split at h
  · obtain ⟨hp, ho, hr⟩ := samePlaces_of_transfer h
    exact ⟨hl.of_samePlaces ho hr hp, hp.covers_iff⟩
  · obtain ⟨parent, left, right, hsplit⟩ := exists_split h
    exact ⟨hsplit.layout hl, hsplit.covers_iff hl⟩
  · obtain ⟨hp, ho, hr⟩ := samePlaces_of_drain h
    exact ⟨hl.of_samePlaces ho hr hp, hp.covers_iff⟩
  · cases h

theorem SameShards.samePlaces (h : SameShards c c') : SamePlaces c c' := fun id => by rw [h.shards]

/-- **A mutation that is carried out** keeps the layout and the keys. -/
theorem Mutates.layout (h : Mutates S c m c') (hl : Layout c) :
    Layout c' ∧ ∀ key, c'.Covers key ↔ c.Covers key := by
  obtain ⟨fingerprint, c₁, -, -, hpayload, rfl⟩ := h
  obtain ⟨hl₁, hc₁⟩ := layout_of_payload hl hpayload
  have hs := sameShards_noteOperationApplied c₁ m.options fingerprint m
  exact ⟨hl₁.of_sameShards hs, fun key => (hs.samePlaces.covers_iff key).trans (hc₁ key)⟩

/-- What is in view decides which keys are covered. -/
theorem Agree.covers_iff (h : Agree S c' S c) (key : Bytes) : c'.Covers key ↔ c.Covers key := by
  have hp : SamePlaces c c' := by
    intro id
    have hplace : ∀ c : ControlPlane H ρ, (c.shards.lookup id).map ShardStatus.place =
        (c.view S id).map ShardStatus.place := fun c => by
      rw [ControlPlane.view, Option.map_map]
      rfl
    rw [hplace, hplace, h.shards id]
  exact hp.covers_iff key

/-- The control plane is in order and covers these keys. -/
structure InOrder (K : Bytes → Prop) (c : ControlPlane H ρ) : Prop where
  layout : Layout c
  table : Table c
  covers : ∀ key, c.Covers key ↔ K key

/-- **The order of the control plane is an invariant.** -/
theorem inOrder_invariant (S : ReplicaStore H ρ) (K : Bytes → Prop) :
    Invariant S (InOrder K) fun _ _ => True where
  layout h := h.layout
  table h := h.table
  restored h hr := by
    obtain ⟨c₀, -, hagree, -⟩ := hr
    exact ⟨hagree.symm.layout h.layout, hagree.symm.table h.table,
      fun key => (hagree.covers_iff key).trans (h.covers key)⟩
  observe {c} h index :=
    have hs := sameShards_observe c index
    ⟨h.layout.of_sameShards hs, table_observe h.table index,
      fun key => (hs.samePlaces.covers_iff key).trans (h.covers key)⟩
  mutates h _ hm :=
    ⟨(hm.layout h.layout).1, hm.table h.table,
      fun key => ((hm.layout h.layout).2 key).trans (h.covers key)⟩

/-! ## The start -/

/-- A control plane that is being filled: its shards are kept under their
ids, these are trimmed, and no mutation has been applied. -/
structure Unused (c : ControlPlane H ρ) : Prop where
  named : ∀ id shard, c.shards.lookup id = some shard → shard.id = id
  trimmed : ∀ id ∈ c.order, trimSpace id = id
  appliedOps : c.appliedOps = ∅
  appliedOrder : c.appliedOrder = []
  past : c.past = []

theorem unused_new (S : ReplicaStore H ρ) (nodeID clusterID : String) :
    Unused (ControlPlane.new S nodeID clusterID) := by
  refine ⟨fun id shard hs => ?_, fun id hid => absurd hid List.not_mem_nil, rfl, rfl, rfl⟩
  rw [ControlPlane.new, AList.lookup_empty] at hs
  cases hs

theorem Unused.table (h : Unused c) : Table c := by
  refine ⟨⟨?_, fun id => ?_, fun id op hop => ?_, fun id hid => ?_, fun id op hop => ?_⟩, ?_⟩
  · rw [h.appliedOrder]
    exact List.nodup_nil
  · rw [h.appliedOrder, h.appliedOps]
    exact iff_of_false List.not_mem_nil (AList.notMem_empty id)
  · rw [h.appliedOps, AList.lookup_empty] at hop
    cases hop
  · rw [h.appliedOps] at hid
    exact absurd hid (AList.notMem_empty id)
  · rw [h.appliedOps, AList.lookup_empty] at hop
    cases hop
  · rw [h.appliedOrder]
    exact Nat.zero_le _

theorem Unused.addConfig (h : Unused c) (cfg : ShardConfig) :
    Unused (ControlPlane.addConfig S c cfg) := by
  refine ⟨fun id shard hs => ?_, fun id hid => ?_, h.appliedOps, h.appliedOrder, h.past⟩
  · by_cases hid : id = trimSpace cfg.id
    · rw [hid, ControlPlane.addConfig, AList.lookup_insert] at hs
      rw [← Option.some.inj hs, hid]
    · rw [ControlPlane.addConfig, AList.lookup_insert_ne hid] at hs
      exact h.named id shard hs
  · rcases List.mem_append.mp hid with hid | hid
    · exact h.trimmed id hid
    · rw [List.mem_singleton.mp hid]
      exact trimSpace_trimSpace cfg.id

theorem Unused.addConfigs (h : Unused c) (hadd : ControlPlane.addConfigs S c shardMap = .ok c') :
    Unused c' := by
  induction shardMap generalizing c with
  | nil =>
    rw [← Except.ok.inj hadd]
    exact h
  | cons cfg shardMap ih =>
    rw [ControlPlane.addConfigs] at hadd
    split at hadd
    · cases hadd
    split at hadd
    · cases hadd
    exact ih (h.addConfig cfg) hadd

theorem Unused.addDefault (nodeID clusterID : String) :
    Unused (ControlPlane.addDefault S (ControlPlane.new S nodeID clusterID)) := by
  refine ⟨fun id shard hs => ?_, fun id hid => ?_, rfl, rfl, rfl⟩
  · by_cases hid : id = "default"
    · rw [hid, ControlPlane.addDefault, AList.lookup_insert] at hs
      rw [← Option.some.inj hs, hid]
    · rw [ControlPlane.addDefault, AList.lookup_insert_ne hid] at hs
      exact (unused_new S nodeID clusterID).named id shard hs
  · rw [List.mem_singleton.mp hid]
    decide +kernel

theorem Unused.rebuildRoutes (h : Unused c) (hr : c.rebuildRoutes = .ok c') :
    Layout c' ∧ Unused c' := by
  obtain ⟨routes, hroutes, rfl⟩ := map_eq_ok hr
  exact ⟨⟨hroutes, h.named, h.trimmed⟩, h.named, h.trimmed, h.appliedOps, h.appliedOrder, h.past⟩

/-- **A control plane at its start is in order.** -/
theorem bootstrap_inOrder (h : ControlPlane.bootstrap S nodeID clusterID shardMap = .ok c) :
    Layout c ∧ Unused c := by
  rw [ControlPlane.bootstrap] at h
  split at h
  · exact (Unused.addDefault nodeID clusterID).rebuildRoutes h
  · rcases hadd : ControlPlane.addConfigs S (ControlPlane.new S nodeID clusterID) shardMap with
      err | c₁
    · rw [hadd] at h
      cases h
    · rw [hadd] at h
      exact ((unused_new S nodeID clusterID).addConfigs hadd).rebuildRoutes h

theorem exists_bootstrap {n : Node H ρ} (h : Node.start S nodeID clusterID shardMap = some n) :
    ControlPlane.bootstrap S nodeID clusterID shardMap = .ok n.plane ∧
      n = ⟨n.plane, some (n.plane.snapshotState S), none, []⟩ := by
  rw [Node.start] at h
  split at h
  · cases h
  next c hboot =>
  obtain rfl := Option.some.inj h
  exact ⟨hboot, rfl⟩

/-- A property of the control plane at the start holds of the node. -/
theorem holds_start {P : ControlPlane H ρ → Prop} {n : Node H ρ}
    (h : Node.start S nodeID clusterID shardMap = some n) (hP : P n.plane) : Holds S P n := by
  obtain ⟨-, heq⟩ := exists_bootstrap h
  refine ⟨hP, n.plane, ?_, hP, rfl, rfl⟩
  rw [heq]

/-! ## Every reached layout -/

/-- **What holds of the shards.** The routes are those of the shards, the
order lists each of them once, and the ranges are not empty, follow one
another and are disjoint. -/
structure ShardLayout (c : ControlPlane H ρ) : Prop where
  routes : buildShardRoutes c.order c.shards = .ok c.routes
  nodup : c.order.Nodup
  mem_order : ∀ id, id ∈ c.order ↔ id ∈ c.shards
  named : ∀ id shard, c.shards.lookup id = some shard → shard.id = id
  nonempty : ∀ id shard, c.shards.lookup id = some shard →
    ∃ key, keyInRange key shard.startKey shard.endKey = true
  sorted : c.routes.Pairwise fun r r' => r.stop ≠ [] ∧ r.stop ≤ r'.start
  disjoint : ∀ id id' shard shard' key, c.shards.lookup id = some shard →
    c.shards.lookup id' = some shard' → keyInRange key shard.startKey shard.endKey = true →
    keyInRange key shard'.startKey shard'.endKey = true → id = id'

theorem Layout.shardLayout (h : Layout c) : ShardLayout c := by
  refine ⟨h.routes, h.nodup, fun id => h.mem_order, h.named, fun id shard hs => ?_, ?_,
    fun id id' shard shard' key hs hs' hkey hkey' => ?_⟩
  · exact ⟨shard.startKey, keyInRange_eq_true.mpr (h.shard_nonempty hs).start_mem⟩
  · refine (List.pairwise_map.mp h.laidOut.pairwise).imp fun {r r'} hb => ?_
    rw [KeyRange.Before, ShardRoute.range, keyRange] at hb
    by_cases hnil : r.stop = []
    · rw [if_pos hnil, top_le_iff] at hb
      exact absurd hb (WithTop.coe_ne_top)
    · rw [if_neg hnil] at hb
      exact ⟨hnil, WithTop.coe_le_coe.mp hb⟩
  · exact h.shard_unique hs (keyInRange_eq_true.mp hkey) hs' (keyInRange_eq_true.mp hkey')

/-- **What a split does to the routing.** The keys of the shard below the
split key go to one new shard and the others to the other, both under the
leader of the shard, and no other key moves. -/
def SplitRouting (c : ControlPlane H ρ) (m : ControlMutation) (c' : ControlPlane H ρ) : Prop :=
  ∃ parent left right : ShardStatus ρ,
    c.shards.lookup m.shardID = some parent ∧
    left.id ∉ c.shards ∧ right.id ∉ c.shards ∧ left.id ≠ right.id ∧
    left.leader = parent.leader ∧ right.leader = parent.leader ∧
    ∀ key,
      (c.shardForKey key = some parent →
        c'.shardForKey key = some (if key < m.split then left else right)) ∧
      (c.shardForKey key ≠ some parent → c'.shardForKey key = c.shardForKey key)

theorem shardForKey_congr (h : SameShards c c') (key : Bytes) :
    c'.shardForKey key = c.shardForKey key := by
  rw [ControlPlane.shardForKey, ControlPlane.shardForKey, h.routes, h.shards]

theorem splitRouting_of_applied {n n' : Node H ρ} {entry : ControlEntry ControlMutation}
    {opts : ControlWriteOptions} {fingerprint : String} {save : SaveResult} (hl : Layout n.plane)
    (h : n.applyCommittedControlMutation S entry opts fingerprint save = (.applied, n'))
    (hkind : entry.mutation.kind = .split) : SplitRouting n.plane entry.mutation n'.plane := by
  obtain ⟨c₁, -, hpayload, -, hplane, -⟩ := exists_of_applied h
  have hs : SameShards c₁ n'.plane := by
    rw [hplane]
    exact (sameShards_noteOperationApplied c₁ opts fingerprint entry.mutation).trans
      (sameShards_observe _ _)
  rw [ControlPlane.applyControlPayload, hkind] at hpayload
  obtain ⟨parent, left, right, hsplit⟩ := exists_split hpayload
  refine ⟨parent, left, right, hsplit.lookup, hsplit.left_new, hsplit.right_new,
    hsplit.left_ne_right, by rw [hsplit.left_eq], by rw [hsplit.right_eq], fun key => ?_⟩
  rw [shardForKey_congr hs]
  exact ⟨hsplit.shardForKey_of_parent hl, hsplit.shardForKey_of_ne hl⟩

variable {grow : ℕ → ℕ → ℕ} {ops : List Op} {n₀ n : Node (Arrays ReplicaStatus) SliceRef}

/-- Every reached node is in order. -/
theorem inOrder_run (hstart : Node.start (slices grow) nodeID clusterID shardMap = some n₀)
    (hrun : runs (Node.act (slices grow)) n₀ ops = some n) :
    Holds (slices grow) (InOrder n₀.plane.Covers) n := by
  obtain ⟨hl, hu⟩ := bootstrap_inOrder (exists_bootstrap hstart).1
  have h₀ : Holds (slices grow) (InOrder n₀.plane.Covers) n₀ :=
    holds_start hstart ⟨hl, hu.table, fun _ => Iff.rfl⟩
  exact h₀.runs (inOrder_invariant _ _) (lawful_slices grow) (fun _ _ _ _ _ _ _ _ => trivial) hrun

/-- A run that has been computed is one. -/
theorem exists_run {α : Type} {f : Node H ρ → α} {a : α}
    (h : ((Node.start S nodeID clusterID shardMap).bind fun n₀ =>
      runs (Node.act S) n₀ ops).map f = some a) :
    ∃ n₀ n, Node.start S nodeID clusterID shardMap = some n₀ ∧
      runs (Node.act S) n₀ ops = some n ∧ f n = a := by
  obtain ⟨n, hbind, hf⟩ := Option.map_eq_some_iff.mp h
  obtain ⟨n₀, hstart, hrun⟩ := Option.bind_eq_some_iff.mp hbind
  exact ⟨n₀, n, hstart, hrun, hf⟩

/-- A node splits its shard, starts again and transfers one half. -/
def splitAndTransfer : List Op :=
  [.commit ⟨⟨1, 1⟩, ⟨.split, "default", "", [5], "", "op", none⟩⟩ .ok, .restart,
    .commit ⟨⟨2, 1⟩, ⟨.transferLeader, "default-a", "n2", [], "", "", none⟩⟩ .ok]

/-- **The layout of the shards.** In every reached state it is sound and
covers the keys it covered at the start, and every split that is applied
there moves only the keys of the shard it splits. -/
theorem shardLayout_run (hstart : Node.start (slices grow) nodeID clusterID shardMap = some n₀)
    (hrun : runs (Node.act (slices grow)) n₀ ops = some n) :
    ShardLayout n.plane ∧ (∀ key, n.plane.Covers key ↔ n₀.plane.Covers key) ∧
      ∀ entry opts fingerprint save n',
        n.applyCommittedControlMutation (slices grow) entry opts fingerprint save =
          (.applied, n') →
        entry.mutation.kind = .split → SplitRouting n.plane entry.mutation n'.plane := by
  have h := inOrder_run hstart hrun
  exact ⟨h.plane.layout.shardLayout, h.plane.covers, fun entry opts fingerprint save n' happly hkind =>
    splitRouting_of_applied h.plane.layout happly hkind⟩

theorem shardLayout_splitAndTransfer :
    ∃ n₀ n, Node.start (slices fun _ _ => 0) "n1" "c" [] = some n₀ ∧
      runs (Node.act (slices fun _ _ => 0)) n₀ splitAndTransfer = some n ∧
      n.plane.order = ["default-a", "default-b"] ∧ ShardLayout n.plane := by
  have h : ((Node.start (slices fun _ _ => 0) "n1" "c" []).bind fun n₀ =>
      runs (Node.act (slices fun _ _ => 0)) n₀ splitAndTransfer).map (fun n => n.plane.order) =
        some ["default-a", "default-b"] := by decide +kernel
  obtain ⟨n₀, n, hstart, hrun, horder⟩ := exists_run h
  exact ⟨n₀, n, hstart, hrun, horder, (shardLayout_run hstart hrun).1⟩

/-- **Every saved state can be loaded and means the same.** In every
reached state the snapshot is valid, a new control plane filled with it
agrees with the state, and the node can start again from its file. -/
theorem checkpoint_run (hstart : Node.start (slices grow) nodeID clusterID shardMap = some n₀)
    (hrun : runs (Node.act (slices grow)) n₀ ops = some n) :
    validateControlPlaneState (n.plane.snapshotState (slices grow)) = .ok () ∧
      (∀ nodeID clusterID, ∃ c',
        (ControlPlane.new (slices grow) nodeID clusterID).applyState (slices grow)
            (n.plane.snapshotState (slices grow)) = (c', none) ∧
          Agree (slices grow) c' (slices grow) n.plane ∧ c'.draining = n.plane.draining) ∧
      (n.restart (slices grow)).isSome := by
  have h := inOrder_run hstart hrun
  refine ⟨validate_snapshotState h.plane.layout h.plane.table, fun nodeID clusterID => ?_, ?_⟩
  · obtain ⟨c', happly, hagree, hdrain, -⟩ := applyState_snapshotState (S := slices grow)
      (lawful_slices grow) h.plane.layout h.plane.table
      (ControlPlane.new (slices grow) nodeID clusterID)
    exact ⟨c', happly, hagree, hdrain⟩
  · obtain ⟨n', hrestart, -⟩ := h.restart (inOrder_invariant _ _).toStable (lawful_slices grow)
    rw [hrestart]
    rfl

theorem checkpoint_splitAndTransfer :
    ∃ n₀ n, Node.start (slices fun _ _ => 0) "n1" "c" [] = some n₀ ∧
      runs (Node.act (slices fun _ _ => 0)) n₀ splitAndTransfer = some n ∧
      n.reports = [.applied, .applied] ∧
      validateControlPlaneState (n.plane.snapshotState (slices fun _ _ => 0)) = .ok () := by
  have h : ((Node.start (slices fun _ _ => 0) "n1" "c" []).bind fun n₀ =>
      runs (Node.act (slices fun _ _ => 0)) n₀ splitAndTransfer).map (fun n => n.reports) =
        some [.applied, .applied] := by decide +kernel
  obtain ⟨n₀, n, hstart, hrun, hreports⟩ := exists_run h
  exact ⟨n₀, n, hstart, hrun, hreports, (checkpoint_run hstart hrun).1⟩

end LSMEngine.Control
