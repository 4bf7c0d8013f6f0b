import LSMEngine.Control.Model.State
/-!
# Control plane — who looks up the shard of a key

Beside `shardForKey`, which searches the routes, there are two scans: the
server scans the shards as `Shards` lists them (`findRouteShardByKey`), and
a gateway scans the table that a server has sent it (`lookupLeader`) and
takes the leader of the shard it finds. JSON and base64 are left out: the
table arrives as it was sent.
-/

namespace LSMEngine.Control

variable {H ρ : Type}

/-- A shard as `Shards` lists it. With raft, `writeLeader` overrides its
leader. -/
structure ListedShard where
  shard : ShardStatus (List ReplicaStatus)
  writeLeader : Option String
  deriving DecidableEq, Repr

/-- `shardsSnapshot`, given the leader of the raft group if there is
one. -/
def ControlPlane.shardsSnapshot (S : ReplicaStore H ρ) (c : ControlPlane H ρ)
    (raftLeader : Option String) : List ListedShard :=
  c.order.map fun id => ⟨c.shardSnapshot S id, raftLeader⟩

/-- `effectiveWriteLeader`. -/
def ListedShard.effectiveWriteLeader (s : ListedShard) : String := s.writeLeader.getD s.shard.leader

/-- `findRouteShardByKey`. -/
def findRouteShardByKey (key : Bytes) : List ListedShard → Option ListedShard
  | [] => none
  | s :: shards =>
    if s.shard.startKey ≠ [] ∧ key < s.shard.startKey then findRouteShardByKey key shards
    else if s.shard.endKey ≠ [] ∧ ¬key < s.shard.endKey then findRouteShardByKey key shards
    else some s

/-- `cachedRouteShard`. -/
structure CachedRouteShard where
  id : String
  start : Bytes
  stop : Bytes
  leader : String
  deriving DecidableEq, Repr

/-- What `handleRoutes` sends of a shard and `fetchRoutes` caches. -/
def ListedShard.cached (s : ListedShard) : CachedRouteShard :=
  ⟨s.shard.id, s.shard.startKey, s.shard.endKey, s.effectiveWriteLeader⟩

/-- `lookupLeader`. -/
def lookupLeader (key : Bytes) : List CachedRouteShard → Option String
  | [] => none
  | s :: shards =>
    if s.start ≠ [] ∧ key < s.start then lookupLeader key shards
    else if s.stop ≠ [] ∧ ¬key < s.stop then lookupLeader key shards
    else if s.leader = "" then none
    else some s.leader

end LSMEngine.Control
