import LSMEngine.Common.Bytes
import LSMEngine.Common.Search
import LSMEngine.Control.Model.Replicas
import Mathlib.Data.List.AList
import Mathlib.Data.List.DropRight
/-!
# Control plane — its state, its checkpoint and its start

`controlPlane` keeps the shards of the cluster: their ranges, leaders and
replicas under their ids, the order of the ids, and the table of routes
that `buildShardRoutes` makes of the two and by which keys find their
shard. `snapshotState` copies the state into a `ControlPlaneState`, the
form in which it is saved, and `applyState` copies one back.

The storage mode and the raft options, which nothing here reads, are left
out, and a checkpoint is the state it encodes. Strings are valid Unicode.
-/

namespace LSMEngine.Control

variable {H ρ : Type}

/-! ## Strings -/

/-- `unicode.IsSpace`. -/
def isSpace (c : Char) : Bool :=
  let n := c.toNat
  (9 ≤ n && n ≤ 13) || n = 32 || n = 133 || n = 160 || n = 5760 || (8192 ≤ n && n ≤ 8202) ||
    n = 8232 || n = 8233 || n = 8239 || n = 8287 || n = 12288

/-- `strings.TrimSpace`. -/
def trimSpace (s : String) : String :=
  String.ofList ((s.toList.dropWhile isSpace).rdropWhile isSpace)

/-! ## Shards -/

/-- `ShardConfig`. -/
structure ShardConfig where
  id : String
  startKey : Bytes
  endKey : Bytes
  replicas : List String
  leader : String
  deriving DecidableEq, Repr

/-- `ShardStatus`, without the override of its leader that only
`shardsSnapshot` fills. -/
structure ShardStatus (ρ : Type) where
  id : String
  startKey : Bytes
  endKey : Bytes
  leader : String
  replicas : ρ
  deriving DecidableEq, Repr

/-- The shard with its replicas as they are in memory. -/
def ShardStatus.read (S : ReplicaStore H ρ) (h : H) (shard : ShardStatus ρ) :
    ShardStatus (List ReplicaStatus) :=
  ⟨shard.id, shard.startKey, shard.endKey, shard.leader, S.read h shard.replicas⟩

/-- The shards under their ids. -/
abbrev Shards (ρ : Type) := AList fun _ : String => ShardStatus ρ

/-- `appliedOperationState`. -/
structure AppliedOperation where
  id : String
  fingerprint : String
  revision : UInt64
  deriving DecidableEq, Repr

/-- `shardRoute`. -/
structure ShardRoute where
  id : String
  start : Bytes
  stop : Bytes
  deriving DecidableEq, Repr

/-- The errors of the control plane. -/
inductive ControlErr
  /-- "shard order is required" -/
  | orderRequired
  /-- "at least one shard is required" -/
  | shardRequired
  /-- "shard order count %d does not match shard map count %d" -/
  | orderCount (order shards : ℕ)
  /-- "shard order contains empty id" -/
  | orderEmptyID
  /-- "shard order contains duplicate shard %q" -/
  | orderDuplicate (id : String)
  /-- "state order references unknown shard %q" -/
  | orderUnknown (id : String)
  /-- "invalid shard range %q: start key must be < end key" -/
  | invalidRange (id : String)
  /-- "open-ended shard %q must be last" -/
  | openEnded (id : String)
  /-- "shard %q has empty start key after first shard" -/
  | emptyStart (id : String)
  /-- "overlapping shard ranges between %q and %q" -/
  | overlapping (prev id : String)
  /-- "state order is required" -/
  | stateOrderRequired
  /-- "state contains no shards" -/
  | stateShardRequired
  /-- "state has shard with empty id" -/
  | stateEmptyID
  /-- "state has duplicate shard id %q" -/
  | stateDuplicate (id : String)
  /-- "state contains too many applied operations: %d" -/
  | tooManyOperations (n : ℕ)
  /-- "state has applied operation with empty id" -/
  | operationEmptyID
  /-- "state has duplicate applied operation id %q" -/
  | operationDuplicate (id : String)
  /-- "state has applied operation %q without fingerprint" -/
  | operationNoFingerprint (id : String)
  /-- "control state identity mismatch: file=%s/%s current=%s/%s" -/
  | identity (fileCluster fileNode cluster node : String)
  /-- "load control state: %w" -/
  | loadState (err : ControlErr)
  /-- "apply control state: %w" -/
  | applyState (err : ControlErr)
  /-- "shard id is required" -/
  | shardIDRequired
  /-- "duplicate shard id %q" -/
  | duplicateShardID (id : String)
  /-- `errs.ErrShardNotFound` -/
  | shardNotFound
  /-- "split key outside shard range" -/
  | splitOutside
  /-- "split key must be inside range" -/
  | splitInside
  /-- "cannot drain: shard %q has no alternate healthy replica" -/
  | cannotDrain (id : String)
  /-- "unknown committed control mutation %q" -/
  | unknownMutation (kind : String)
  /-- "invalid committed control entry" -/
  | invalidEntry
  /-- `errs.ErrControlOperationConflict` -/
  | operationConflict
  /-- `errs.ErrControlRevisionConflict` -/
  | revisionConflict
  /-- An error of the file system while saving. -/
  | save
  /-- "save control state: %w; rollback control state: %v" -/
  | rollback (err : ControlErr)
  /-- "commit log consensus unavailable" -/
  | consensusUnavailable
  /-- `commitLogNotLeader` -/
  | notLeader
  /-- An error of `admitProposal`, `beforeProposal` or `CommitControl`. -/
  | proposal (cause : String)
  deriving DecidableEq, Repr

/-! ## Routes -/

/-- What `buildShardRoutes` checks between a shard and the one before. -/
def boundaryErr (prev : Option ShardRoute) (id : String) (start : Bytes) : Option ControlErr :=
  match prev with
  | none => none
  | some prev =>
    if prev.stop = [] then some (.openEnded prev.id)
    else if start = [] then some (.emptyStart id)
    else if start < prev.stop then some (.overlapping prev.id id)
    else none

/-- The loop of `buildShardRoutes`. -/
def buildShardRoutesLoop (shards : Shards ρ) :
    Option ShardRoute → List String → List String → Except ControlErr (List ShardRoute)
  | _, _, [] => .ok []
  | prev, seen, id :: order =>
    let id := trimSpace id
    if id = "" then .error .orderEmptyID
    else if id ∈ seen then .error (.orderDuplicate id)
    else
      match shards.lookup id with
      | none => .error (.orderUnknown id)
      | some shard =>
        if shard.endKey ≠ [] ∧ ¬shard.startKey < shard.endKey then .error (.invalidRange id)
        else
          match boundaryErr prev id shard.startKey with
          | some err => .error err
          | none =>
            let route : ShardRoute := ⟨id, shard.startKey, shard.endKey⟩
            (buildShardRoutesLoop shards (some route) (id :: seen) order).map (route :: ·)

/-- `buildShardRoutes`. -/
def buildShardRoutes (order : List String) (shards : Shards ρ) :
    Except ControlErr (List ShardRoute) :=
  if order = [] then .error .orderRequired
  else if shards.keys = [] then .error .shardRequired
  else if order.length ≠ shards.keys.length then
    .error (.orderCount order.length shards.keys.length)
  else buildShardRoutesLoop shards none [] order

/-- `keyInRange`. -/
def keyInRange (key start stop : Bytes) : Bool :=
  if start ≠ [] ∧ key < start then false
  else if stop ≠ [] ∧ ¬key < stop then false
  else true

/-! ## The control plane -/

/-- The kind of a mutation. -/
inductive MutationKind
  | transferLeader
  | split
  | prepareDrain
  | other (name : String)
  deriving DecidableEq, Repr

/-- `controlMutation`. -/
structure ControlMutation where
  kind : MutationKind
  shardID : String
  target : String
  split : Bytes
  nodeID : String
  operationID : String
  expectedRevision : Option UInt64
  deriving DecidableEq, Repr

/-- `controlPlane`, over a memory for the replicas. `past` is not in the
source: the mutations that the state is the result of. -/
structure ControlPlane (H ρ : Type) where
  nodeID : String
  clusterID : String
  heap : H
  commitLogAppliedIndex : ℕ
  draining : Bool
  revision : UInt64
  order : List String
  shards : Shards ρ
  routes : List ShardRoute
  appliedOps : AList fun _ : String => AppliedOperation
  appliedOrder : List String
  past : List ControlMutation

/-- `controlPlaneState`. -/
structure ControlPlaneState where
  commitLogAppliedIndex : ℕ
  nodeID : String
  clusterID : String
  draining : Bool
  revision : UInt64
  order : List String
  shards : List (ShardStatus (List ReplicaStatus))
  appliedOps : List AppliedOperation
  past : List ControlMutation
  deriving DecidableEq, Repr

/-- `maxAppliedControlOps`. -/
def maxAppliedControlOps : ℕ := 256

namespace ControlPlane

variable (S : ReplicaStore H ρ) (c : ControlPlane H ρ)

/-- A control plane that has not been filled. -/
def new (nodeID clusterID : String) : ControlPlane H ρ :=
  ⟨nodeID, clusterID, S.empty, 0, false, 0, [], ∅, [], ∅, [], []⟩

/-- `rebuildRoutesLocked`. -/
def rebuildRoutes : Except ControlErr (ControlPlane H ρ) :=
  (buildShardRoutes c.order c.shards).map fun routes => { c with routes }

/-- `shardForKeyLocked`. -/
def shardForKey (key : Bytes) : Option (ShardStatus ρ) :=
  let idx := search c.routes.length fun i =>
    c.routes[i]?.any fun route => route.stop = [] || decide (key < route.stop)
  match c.routes[idx]? with
  | none => none
  | some route =>
    if route.start ≠ [] ∧ key < route.start then none else c.shards.lookup route.id

/-- The shard under an id; the zero value if there is none. -/
def shardSnapshot (id : String) : ShardStatus (List ReplicaStatus) :=
  match c.shards.lookup id with
  | some shard => shard.read S c.heap
  | none => ⟨"", [], [], "", []⟩

/-- `appliedOpsSnapshotLocked`. -/
def appliedOpsSnapshot : List AppliedOperation :=
  c.appliedOrder.filterMap fun id => c.appliedOps.lookup id

/-- `snapshotStateLocked`. -/
def snapshotState : ControlPlaneState where
  commitLogAppliedIndex := c.commitLogAppliedIndex
  nodeID := c.nodeID
  clusterID := c.clusterID
  draining := c.draining
  revision := c.revision
  order := c.order
  shards := c.order.map (c.shardSnapshot S)
  appliedOps := c.appliedOpsSnapshot
  past := c.past

/-- The copy of one shard into the control plane. -/
def addShard (acc : H × Shards ρ) (shard : ShardStatus (List ReplicaStatus)) : H × Shards ρ :=
  let copied := S.copy acc.1 shard.replicas
  (copied.1, acc.2.insert shard.id
    ⟨shard.id, shard.startKey, shard.endKey, shard.leader, copied.2⟩)

/-- The record of one operation in the table. -/
def addOperation (ops : AList fun _ : String => AppliedOperation) (op : AppliedOperation) :
    AList fun _ : String => AppliedOperation :=
  ops.insert (trimSpace op.id) { op with id := trimSpace op.id }

/-- `applyState` up to its routes. -/
def restored (state : ControlPlaneState) : ControlPlane H ρ :=
  let copied := state.shards.foldl (addShard S) (c.heap, ∅)
  { c with
    commitLogAppliedIndex := state.commitLogAppliedIndex
    draining := state.draining
    revision := state.revision
    order := state.order
    heap := copied.1
    shards := copied.2
    appliedOps := state.appliedOps.foldl addOperation ∅
    appliedOrder := state.appliedOps.map fun op => trimSpace op.id
    past := state.past }

/-- `applyState`: if the routes cannot be built, the old ones stay. -/
def applyState (state : ControlPlaneState) : ControlPlane H ρ × Option ControlErr :=
  match (c.restored S state).rebuildRoutes with
  | .ok c' => (c', none)
  | .error err => (c.restored S state, some err)

end ControlPlane

/-! ## Checkpoints -/

/-- The shards of a checkpoint under their ids. -/
def checkShards :
    List (ShardStatus (List ReplicaStatus)) → Shards (List ReplicaStatus) →
      Except ControlErr (Shards (List ReplicaStatus))
  | [], seen => .ok seen
  | shard :: shards, seen =>
    if trimSpace shard.id = "" then .error .stateEmptyID
    else if shard.id ∈ seen then .error (.stateDuplicate shard.id)
    else checkShards shards (seen.insert shard.id shard)

/-- The operations of a checkpoint. -/
def checkOperations : List AppliedOperation → List String → Except ControlErr Unit
  | [], _ => .ok ()
  | op :: ops, seen =>
    let id := trimSpace op.id
    if id = "" then .error .operationEmptyID
    else if id ∈ seen then .error (.operationDuplicate id)
    else if trimSpace op.fingerprint = "" then .error (.operationNoFingerprint id)
    else checkOperations ops (id :: seen)

/-- `validateControlPlaneState`. -/
def validateControlPlaneState (state : ControlPlaneState) : Except ControlErr Unit :=
  if state.order = [] then .error .stateOrderRequired
  else if state.shards = [] then .error .stateShardRequired
  else do
    let shards ← checkShards state.shards ∅
    let _ ← buildShardRoutes state.order shards
    if maxAppliedControlOps < state.appliedOps.length then
      .error (.tooManyOperations state.appliedOps.length)
    else checkOperations state.appliedOps []

/-! ## Start -/

/-- The nodes of a configured shard with their leader, which is added if
it is not one of them. Without nodes the shard has the local one. -/
def ShardConfig.nodes (cfg : ShardConfig) (nodeID : String) : String × List String :=
  let replicas := if cfg.replicas = [] then [nodeID] else cfg.replicas
  let leader := if trimSpace cfg.leader = "" then replicas.headD "" else trimSpace cfg.leader
  (leader, if leader ∈ replicas then replicas else replicas ++ [leader])

/-- The replicas that the nodes of a new shard become. -/
def newReplicas (leader : String) (nodes : List String) : List ReplicaStatus :=
  nodes.map fun node => ⟨node, if node = leader then .leader else .follower, true⟩

namespace ControlPlane

variable (S : ReplicaStore H ρ)

/-- A configured shard becomes one of the control plane. -/
def addConfig (c : ControlPlane H ρ) (cfg : ShardConfig) : ControlPlane H ρ :=
  let id := trimSpace cfg.id
  let nodes := cfg.nodes c.nodeID
  let made := S.make c.heap (newReplicas nodes.1 nodes.2)
  { c with
    heap := made.1
    order := c.order ++ [id]
    shards := c.shards.insert id ⟨id, cfg.startKey, cfg.endKey, nodes.1, made.2⟩ }

/-- The loop of `loadOrBootstrap` over the shard map. -/
def addConfigs (c : ControlPlane H ρ) : List ShardConfig → Except ControlErr (ControlPlane H ρ)
  | [] => .ok c
  | cfg :: shardMap =>
    if trimSpace cfg.id = "" then .error .shardIDRequired
    else if trimSpace cfg.id ∈ c.shards then .error (.duplicateShardID (trimSpace cfg.id))
    else addConfigs (addConfig S c cfg) shardMap

/-- The one shard of a node without a shard map. -/
def addDefault (c : ControlPlane H ρ) : ControlPlane H ρ :=
  let made := S.make c.heap [⟨c.nodeID, .leader, true⟩]
  { c with
    heap := made.1
    order := ["default"]
    shards := c.shards.insert "default" ⟨"default", [], [], c.nodeID, made.2⟩ }

/-- `loadOrBootstrap` without a saved state, up to its save. -/
def bootstrap (nodeID clusterID : String) (shardMap : List ShardConfig) :
    Except ControlErr (ControlPlane H ρ) :=
  if shardMap = [] then (addDefault S (new S nodeID clusterID)).rebuildRoutes
  else (addConfigs S (new S nodeID clusterID) shardMap).bind rebuildRoutes

/-- `loadOrBootstrap` with a saved state. -/
def load (nodeID clusterID : String) (state : ControlPlaneState) :
    Except ControlErr (ControlPlane H ρ) :=
  match validateControlPlaneState state with
  | .error err => .error (.loadState err)
  | .ok _ =>
    if state.nodeID ≠ nodeID ∨ state.clusterID ≠ clusterID then
      .error (.identity state.clusterID state.nodeID clusterID nodeID)
    else
      match (new S nodeID clusterID).applyState S state with
      | (c, none) => .ok c
      | (_, some err) => .error (.applyState err)

end ControlPlane

end LSMEngine.Control
