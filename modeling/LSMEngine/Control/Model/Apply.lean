import LSMEngine.CommitLog.Model.Apply
import LSMEngine.Control.Model.State
/-!
# Control plane — applying committed mutations

A mutation transfers the leadership of a shard, splits a shard or drains
a node. It is applied once it is committed, by `applyCommittedControl`:
if it meets its preconditions, its payload changes the shards, the
operation is noted, and the state is saved. A payload that fails and a
save that fails both put back the snapshot taken before. A mutation that
is refused after it was committed still moves the applied index on, which
is saved with it.

A node (`Node`) is a control plane with its checkpoint file. It applies
entries of the commit log (`commit`), takes submissions of its own where
the commit log is the local one (`submit`), and starts again from its
file (`restart`).
-/

namespace LSMEngine.Control

open CommitLog (Commit ControlEntry)

variable {H ρ : Type}

/-! ## Payloads -/

namespace ControlPlane

/-- A shard id with a number. -/
def candidate (base : String) (i : ℕ) : String := base ++ "-" ++ toString i

/-- The loop of `uniqueShardID`, which ends before it has tried more ids
than there are shards. -/
def uniqueShardIDLoop (shards : Shards ρ) (base : String) : ℕ → ℕ → String
  | 0, i => candidate base i
  | fuel + 1, i =>
    if candidate base i ∈ shards then uniqueShardIDLoop shards base fuel (i + 1)
    else candidate base i

/-- `uniqueShardID`. -/
def uniqueShardID (shards : Shards ρ) (base : String) : String :=
  if base ∈ shards then uniqueShardIDLoop shards base shards.keys.length 2 else base

variable (S : ReplicaStore H ρ) (c : ControlPlane H ρ) (m : ControlMutation)

/-- The shard gets a leader, and its replicas their roles. -/
def setLeader (h : H) (shard : ShardStatus ρ) (target : String) : H × ShardStatus ρ :=
  let updated := S.update (ReplicaStatus.setRole target) h shard.replicas
  (updated.1, { shard with leader := target, replicas := updated.2 })

/-- The shard gets the replica, if it has none on the node. -/
def addReplica (h : H) (shard : ShardStatus ρ) (target : String) : H × ShardStatus ρ :=
  if hasReplica (S.read h shard.replicas) target then (h, shard)
  else
    let appended := S.append h shard.replicas ⟨target, .follower, true⟩
    (appended.1, { shard with replicas := appended.2 })

/-- `applyTransferLeaderPayloadLocked`. -/
def applyTransferLeaderPayload : Except ControlErr (ControlPlane H ρ) :=
  match c.shards.lookup m.shardID with
  | none => .error .shardNotFound
  | some shard =>
    let added := addReplica S c.heap shard m.target
    let led := setLeader S added.1 added.2 m.target
    .ok { c with heap := led.1, shards := c.shards.insert m.shardID led.2 }

/-- The order in which two ids stand for one. -/
def splitOrder (order : List String) (shardID left right : String) : List String :=
  order.flatMap fun id => if id = shardID then [left, right] else [id]

/-- Why a range is not split at a key. -/
def splitErr (start stop split : Bytes) : Option ControlErr :=
  if keyInRange split start stop = false then some .splitOutside
  else if (start ≠ [] ∧ split = start) ∨ (stop ≠ [] ∧ split = stop) then some .splitInside
  else none

/-- The first half of a shard. -/
def leftHalf (shard : ShardStatus ρ) : ShardStatus ρ :=
  { shard with id := uniqueShardID c.shards (m.shardID ++ "-a"), endKey := m.split }

/-- The second half. -/
def rightHalf (shard : ShardStatus ρ) : ShardStatus ρ :=
  { shard with id := uniqueShardID c.shards (m.shardID ++ "-b"), startKey := m.split }

/-- Two halves take the place of a shard. Both have its slice of
replicas. -/
def splitShard (shard : ShardStatus ρ) : ControlPlane H ρ :=
  let left := c.leftHalf m shard
  let right := c.rightHalf m shard
  { c with
    shards := ((c.shards.erase m.shardID).insert left.id left).insert right.id right
    order := splitOrder c.order m.shardID left.id right.id }

/-- `applySplitPayloadLocked`. -/
def applySplitPayload : Except ControlErr (ControlPlane H ρ) :=
  match c.shards.lookup m.shardID with
  | none => .error .shardNotFound
  | some shard =>
    match splitErr shard.startKey shard.endKey m.split with
    | some err => .error err
    | none => (c.splitShard m shard).rebuildRoutes

/-- The node that takes a shard over when its leader is drained; the
empty name if there is none. -/
def drainTarget (replicas : List ReplicaStatus) (nodeID : String) : String :=
  match replicas.find? fun replica => replica.nodeID ≠ nodeID && replica.healthy with
  | none => ""
  | some replica => replica.nodeID

/-- The first loop of `applyDrainPayloadLocked`: what takes over each
shard that the node leads. -/
def drainTargets (nodeID : String) :
    List String → Except ControlErr (AList fun _ : String => String)
  | [] => .ok ∅
  | id :: order =>
    match c.shards.lookup id with
    | none => drainTargets nodeID order
    | some shard =>
      if shard.leader ≠ nodeID then drainTargets nodeID order
      else
        let target := drainTarget (S.read c.heap shard.replicas) nodeID
        if target = "" then .error (.cannotDrain id)
        else (drainTargets nodeID order).map (AList.insert id target)

/-- One turn of the second loop. -/
def drainShard (targets : AList fun _ : String => String) (c : ControlPlane H ρ) (id : String) :
    ControlPlane H ρ :=
  match targets.lookup id, c.shards.lookup id with
  | some target, some shard =>
    let led := setLeader S c.heap shard target
    { c with heap := led.1, shards := c.shards.insert id led.2 }
  | _, _ => c

/-- `applyDrainPayloadLocked`. -/
def applyDrainPayload : Except ControlErr (ControlPlane H ρ) :=
  (c.drainTargets S m.nodeID c.order).map fun targets =>
    let drained := c.order.foldl (drainShard S targets) c
    if m.nodeID = c.nodeID then { drained with draining := true } else drained

/-- `applyControlPayloadLocked`. -/
def applyControlPayload : Except ControlErr (ControlPlane H ρ) :=
  match m.kind with
  | .transferLeader => c.applyTransferLeaderPayload S m
  | .split => c.applySplitPayload m
  | .prepareDrain => c.applyDrainPayload S m
  | .other name => .error (.unknownMutation name)

end ControlPlane

/-! ## Operations -/

/-- `ControlWriteOptions`. -/
structure ControlWriteOptions where
  operationID : String
  expectedRevision : Option UInt64
  deriving DecidableEq, Repr

/-- A digit of `%x`. -/
def hexDigit (n : ℕ) : Char := "0123456789abcdef".toList[n]?.getD '0'

/-- `%x`. -/
def hex (bytes : Bytes) : String :=
  String.ofList (bytes.flatMap fun b => [hexDigit (b.toNat / 16), hexDigit (b.toNat % 16)])

/-- The fingerprint of a mutation: `transferLeaderFingerprint`,
`splitFingerprint`, `prepareDrainFingerprint`. -/
def ControlMutation.fingerprint (m : ControlMutation) : Except ControlErr String :=
  match m.kind with
  | .transferLeader => .ok ("transfer:" ++ m.shardID ++ ":" ++ m.target)
  | .split => .ok ("split:" ++ m.shardID ++ ":" ++ hex m.split)
  | .prepareDrain => .ok ("drain:" ++ m.nodeID)
  | .other name => .error (.unknownMutation name)

/-- The options a mutation carries. -/
def ControlMutation.options (m : ControlMutation) : ControlWriteOptions :=
  ⟨m.operationID, m.expectedRevision⟩

namespace ControlPlane

variable (c : ControlPlane H ρ) (opts : ControlWriteOptions) (fingerprint : String)

/-- The record of an operation; there is none of the empty id. -/
def appliedOperation (id : String) : Option AppliedOperation :=
  if id = "" then none else c.appliedOps.lookup id

/-- The preconditions of an operation by its id and the revision it
expects. -/
def checkOperation (id : String) (expectedRevision : Option UInt64) : Except ControlErr Bool :=
  match c.appliedOperation id with
  | some applied =>
    if applied.fingerprint ≠ fingerprint then .error .operationConflict else .ok true
  | none =>
    if expectedRevision.any (· ≠ c.revision) then .error .revisionConflict else .ok false

/-- `checkOperationPreconditionsLocked`: whether the operation is applied
already. -/
def checkOperationPreconditions : Except ControlErr Bool :=
  c.checkOperation fingerprint (trimSpace opts.operationID) opts.expectedRevision

/-- How many operations there are too many. -/
def overflow : ℕ := c.appliedOrder.length - maxAppliedControlOps

/-- The oldest operations go when there are too many. -/
def evict : ControlPlane H ρ :=
  if c.appliedOrder.length ≤ maxAppliedControlOps then c
  else
    { c with
      appliedOps := (c.appliedOrder.take c.overflow).foldl (fun ops id => ops.erase id) c.appliedOps
      appliedOrder := c.appliedOrder.drop c.overflow }

/-- The record of an operation by its id. -/
def noteOperation (id : String) : ControlPlane H ρ :=
  if id = "" then c
  else
    evict { c with
      appliedOrder := if id ∈ c.appliedOps then c.appliedOrder else c.appliedOrder ++ [id]
      appliedOps := c.appliedOps.insert id ⟨id, fingerprint, c.revision⟩ }

/-- `noteOperationAppliedLocked`, of a mutation that has been applied. -/
def noteOperationApplied (m : ControlMutation) : ControlPlane H ρ :=
  noteOperation { c with revision := c.revision + 1, past := c.past ++ [m] } fingerprint
    (trimSpace opts.operationID)

/-- The applied index moves on to the index of an entry. -/
def observe (index : ℕ) : ControlPlane H ρ :=
  if c.commitLogAppliedIndex < index then { c with commitLogAppliedIndex := index } else c

end ControlPlane

/-! ## Nodes -/

/-- What becomes of a save: the file is replaced, or there is an error
before it is, or after. -/
inductive SaveResult
  | ok
  | failed
  | failedLate
  deriving DecidableEq, Repr

/-- What becomes of a committed mutation: it is applied; it had been
applied, `errControlNoop`; it is refused for a cause,
`persistedControlRejection`; or there is another error. -/
inductive Outcome
  | applied
  | noop
  | rejected (cause : ControlErr)
  | failed (err : ControlErr)
  deriving DecidableEq, Repr

/-- A control plane with its checkpoint file. `reports` is what became of
the entries of the commit log. -/
structure Node (H ρ : Type) where
  plane : ControlPlane H ρ
  file : Option ControlPlaneState
  commitErr : Option ControlErr
  reports : List Outcome

namespace Node

variable (S : ReplicaStore H ρ) (n : Node H ρ)

/-- The file after `saveLocked`. -/
def fileAfter (c : ControlPlane H ρ) (save : SaveResult) : Option ControlPlaneState :=
  if save = .failed then n.file else some (c.snapshotState S)

/-- `saveLockedWithRollback` of a state, which answers as told if the
save succeeds. -/
def saveWithRollback (c : ControlPlane H ρ) (previous : ControlPlaneState) (save : SaveResult)
    (outcome : Outcome) : Outcome × Node H ρ :=
  let n := { n with file := n.fileAfter S c save }
  if save = .ok then (outcome, { n with plane := c })
  else
    match c.applyState S previous with
    | (restored, none) => (.failed .save, { n with plane := restored })
    | (restored, some err) => (.failed (.rollback err), { n with plane := restored })

/-- `applyCommittedControlMutation`. What a payload that fails has changed,
`applyState` overwrites. -/
def applyCommittedControlMutation (entry : ControlEntry ControlMutation)
    (opts : ControlWriteOptions) (fingerprint : String) (save : SaveResult) :
    Outcome × Node H ρ :=
  if entry.commit.index = 0 ∨ entry.commit.term = 0 then (.failed .invalidEntry, n)
  else
    let c := n.plane
    let previous := c.snapshotState S
    match c.checkOperationPreconditions opts fingerprint with
    | .error err =>
      n.saveWithRollback S (c.observe entry.commit.index) previous save (.rejected err)
    | .ok true =>
      if c.commitLogAppliedIndex < entry.commit.index then
        n.saveWithRollback S (c.observe entry.commit.index) previous save .noop
      else (.noop, n)
    | .ok false =>
      match c.applyControlPayload S entry.mutation with
      | .error err =>
        match c.applyState S previous with
        | (restored, some err) => (.failed err, { n with plane := restored })
        | (restored, none) =>
          n.saveWithRollback S (restored.observe entry.commit.index) previous save (.rejected err)
      | .ok c' =>
        n.saveWithRollback S
          ((c'.noteOperationApplied opts fingerprint entry.mutation).observe entry.commit.index)
          previous save .applied

/-- `applyCommittedControlFromLog`. -/
def applyCommittedControlFromLog (entry : ControlEntry ControlMutation) (save : SaveResult) :
    Outcome × Node H ρ :=
  match entry.mutation.fingerprint with
  | .error err => (.failed err, n)
  | .ok fingerprint =>
    n.applyCommittedControlMutation S entry entry.mutation.options fingerprint save

end Node

/-! ## Submissions -/

/-- The commit log in front of a control plane: whether it is there and
whether it is the raft one, the answers of `admitProposal`,
`beforeProposal` and `CommitControl`, and `applyFromLog` if it is set. -/
structure Provider (H ρ : Type) where
  consensus : Bool
  raft : Bool
  admitProposal : Option ControlErr
  beforeProposal : Option ControlErr
  commitControl : ControlMutation → Except ControlErr (ControlEntry ControlMutation)
  applyFromLog : Option (Node H ρ → ControlEntry ControlMutation → Outcome × Node H ρ)

/-- Why a provider takes no proposal. -/
def Provider.refusal (P : Provider H ρ) : Option ControlErr :=
  if P.admitProposal ≠ none then P.admitProposal
  else if P.beforeProposal ≠ none then P.beforeProposal
  else if P.consensus then none
  else some .consensusUnavailable

/-- The local commit log, which applies nothing by itself. -/
def Provider.local (answer : Except ControlErr Commit) : Provider H ρ where
  consensus := true
  raft := false
  admitProposal := none
  beforeProposal := none
  commitControl m := answer.map fun commit => ⟨commit, m⟩
  applyFromLog := none

/-- What is asked of a node: `transferLeaderWithOptions`,
`triggerSplitWithOptions` and `prepareDrainWithOptions`. -/
inductive Request
  | transferLeader (shardID target : String)
  | triggerSplit (shardID : String) (splitKey : Bytes)
  | prepareDrain (nodeID : String)
  deriving DecidableEq, Repr

/-- Why a request is not submitted. -/
inductive RequestErr
  /-- `errs.ErrShardNotFound` -/
  | shardNotFound
  /-- "drain supported only for local node" -/
  | drainNotLocal
  deriving DecidableEq, Repr

/-- The mutation that a node submits for a request. -/
def Request.mutation (nodeID : String) : Request → Except RequestErr ControlMutation
  | .transferLeader shardID target =>
    let shardID := trimSpace shardID
    let target := trimSpace target
    if shardID = "" ∨ target = "" then .error .shardNotFound
    else .ok ⟨.transferLeader, shardID, target, [], "", "", none⟩
  | .triggerSplit shardID splitKey =>
    let shardID := trimSpace shardID
    if shardID = "" then .error .shardNotFound
    else .ok ⟨.split, shardID, "", splitKey, "", "", none⟩
  | .prepareDrain node =>
    let node := if trimSpace node = "" then nodeID else trimSpace node
    if node ≠ nodeID then .error .drainNotLocal
    else .ok ⟨.prepareDrain, "", "", [], node, "", none⟩

namespace Node

variable (S : ReplicaStore H ρ) (n : Node H ρ)

/-- How a submission ends. With raft an error that leaves the fate of the
mutation open, or that applying it met, ends the proposals of the node. -/
def finish (P : Provider H ρ) : Outcome × Node H ρ → Option ControlErr × Node H ρ
  | (.applied, n) => (none, n)
  | (.noop, n) => (none, n)
  | (.rejected err, n) => (some err, n)
  | (.failed err, n) => (some err, if P.raft then { n with commitErr := some err } else n)

/-- `applyControlMutation`. -/
def applyControlMutation (P : Provider H ρ) (m : ControlMutation) (opts : ControlWriteOptions)
    (fingerprint : String) (save : SaveResult) : Option ControlErr × Node H ρ :=
  if n.commitErr ≠ none then (n.commitErr, n)
  else if P.refusal ≠ none then (P.refusal, n)
  else
    match n.plane.checkOperationPreconditions opts fingerprint with
    | .error err => (some err, n)
    | .ok true => (none, n)
    | .ok false =>
      match P.commitControl { m with
          operationID := trimSpace opts.operationID
          expectedRevision := opts.expectedRevision } with
      | .error err =>
        (some err, if P.raft ∧ err ≠ .notLeader then { n with commitErr := some err } else n)
      | .ok entry =>
        match P.applyFromLog with
        | some apply => finish P (apply n entry)
        | none => finish P (n.applyCommittedControlMutation S entry opts fingerprint save)

/-! ## Runs -/

/-- `newControlPlane` on a node without a checkpoint, with its first
save. -/
def start (nodeID clusterID : String) (shardMap : List ShardConfig) : Option (Node H ρ) :=
  match ControlPlane.bootstrap S nodeID clusterID shardMap with
  | .error _ => none
  | .ok c => some ⟨c, some (c.snapshotState S), none, []⟩

/-- `newControlPlane` on a node with a checkpoint. -/
def restart : Option (Node H ρ) :=
  match n.file with
  | none => none
  | some state =>
    match ControlPlane.load S n.plane.nodeID n.plane.clusterID state with
    | .error _ => none
    | .ok c => some ⟨c, some state, none, n.reports⟩

end Node

/-- What happens to a node: an entry of the commit log is applied, a
mutation is submitted and the local commit log answers, or the node
starts again. -/
inductive Op
  | commit (entry : ControlEntry ControlMutation) (save : SaveResult)
  | submit (m : ControlMutation) (opts : ControlWriteOptions) (answer : Except ControlErr Commit)
    (save : SaveResult)
  | restart

/-- One step of a node. -/
def Node.act (S : ReplicaStore H ρ) (n : Node H ρ) : Op → Option (Node H ρ)
  | .commit entry save =>
    let done := n.applyCommittedControlFromLog S entry save
    some { done.2 with reports := n.reports ++ [done.1] }
  | .submit m opts answer save =>
    match m.fingerprint with
    | .error _ => none
    | .ok fingerprint =>
      some (n.applyControlMutation S (Provider.local answer) m opts fingerprint save).2
  | .restart => n.restart S

end LSMEngine.Control
