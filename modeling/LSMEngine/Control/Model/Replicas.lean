import LSMEngine.Common.Arrays
/-!
# Control plane — the replicas of a shard

A shard keeps its replicas in a Go slice. A split gives both halves the
slice of the parent, a transfer appends to it and rewrites its roles in
place, and a snapshot or a load copies it. The control plane is written
over a `ReplicaStore`, the operations it performs on these slices:

* in `slices`, as the code has them: references to arrays that shards may
  share;
* in `values`, as if every shard had a list of its own.
-/

namespace LSMEngine.Control

/-- `ReplicaStatus.Role`. -/
inductive Role
  | leader
  | follower
  deriving DecidableEq, Repr

/-- `ReplicaStatus`. -/
structure ReplicaStatus where
  nodeID : String
  role : Role
  healthy : Bool
  deriving DecidableEq, Repr

/-- `hasReplica`. -/
def hasReplica (replicas : List ReplicaStatus) (nodeID : String) : Bool :=
  replicas.any fun replica => replica.nodeID = nodeID

/-- The role a replica gets when `target` becomes the leader. -/
def ReplicaStatus.setRole (target : String) (replica : ReplicaStatus) : ReplicaStatus :=
  if replica.nodeID = target then { replica with role := .leader }
  else { replica with role := .follower }

/-- What the control plane does with the replicas of its shards, over a
memory `H` and references `ρ` into it. -/
structure ReplicaStore (H ρ : Type) where
  /-- The memory of a new process. -/
  empty : H
  read : H → ρ → List ReplicaStatus
  /-- `make` with the capacity of what is then appended. -/
  make : H → List ReplicaStatus → H × ρ
  /-- `append` to a nil slice. -/
  copy : H → List ReplicaStatus → H × ρ
  append : H → ρ → ReplicaStatus → H × ρ
  /-- A loop that rewrites each replica in place. -/
  update : (ReplicaStatus → ReplicaStatus) → H → ρ → H × ρ

/-- Every shard has a list of its own. -/
def values : ReplicaStore Unit (List ReplicaStatus) where
  empty := ()
  read _ replicas := replicas
  make _ replicas := ((), replicas)
  copy _ replicas := ((), replicas)
  append _ replicas replica := ((), replicas ++ [replica])
  update f _ replicas := ((), replicas.map f)

/-- The elements of an array that no slice has written. -/
def unwritten (n : ℕ) : List ReplicaStatus := List.replicate n ⟨"", .follower, false⟩

/-- Go slices. `grow` is how much longer than needed the runtime makes
the new array of an `append`, given the old capacity and the new
length. -/
def slices (grow : ℕ → ℕ → ℕ) : ReplicaStore (Arrays ReplicaStatus) SliceRef where
  empty := []
  read := Arrays.read
  make arrays replicas := arrays.alloc replicas []
  copy arrays replicas := arrays.alloc replicas (unwritten (grow 0 replicas.length))
  append := Arrays.push fun cap len => unwritten (grow cap len)
  update f arrays replicas := (arrays.update f replicas, replicas)

end LSMEngine.Control
