import LSMEngine.Common.Runs
import LSMEngine.Control.Checkpoint
/-!
# Control plane — what a step of a node can do

Whatever becomes of a committed mutation, the node ends with one of three
states: the one it had, with the applied index moved on; the one it had,
restored from its snapshot; or the one the payload has made of it. The
file holds a snapshot of one of them.

An `Invariant` is a property of control planes that restoring a snapshot
and moving the index keep, and the payloads keep under a condition. It
then holds of the state and of what the file is a snapshot of, along
every run whose mutations meet the condition (`Holds.runs`).
-/

namespace LSMEngine.Control

open CommitLog (Commit ControlEntry)

variable {H ρ : Type} {S : ReplicaStore H ρ} {Valid : H → ρ → Prop}
  {P : ControlPlane H ρ → Prop} {C : ControlPlane H ρ → ControlMutation → Prop}
  {c c' : ControlPlane H ρ} {n n' : Node H ρ} {m : ControlMutation} {save : SaveResult}
  {opts : ControlWriteOptions} {fingerprint : String}
variable {entry : ControlEntry ControlMutation}

/-! ## Options -/

/-- What a submission puts into the mutation it commits. -/
def ControlMutation.under (m : ControlMutation) (opts : ControlWriteOptions) : ControlMutation :=
  { m with
    operationID := trimSpace opts.operationID
    expectedRevision := opts.expectedRevision }

/-- The options are read trimmed, so those of the committed mutation do as
well. -/
theorem checkOperationPreconditions_under :
    c.checkOperationPreconditions (m.under opts).options fingerprint =
      c.checkOperationPreconditions opts fingerprint :=
  congrArg (fun id => c.checkOperation fingerprint id opts.expectedRevision)
    (trimSpace_trimSpace opts.operationID)

theorem noteOperationApplied_under {m' : ControlMutation} :
    c.noteOperationApplied (m.under opts).options fingerprint m' =
      c.noteOperationApplied opts fingerprint m' :=
  congrArg (ControlPlane.noteOperation
    { c with revision := c.revision + 1, past := c.past ++ [m'] } fingerprint)
    (trimSpace_trimSpace opts.operationID)

theorem applyCommitted_under :
    n.applyCommittedControlMutation S entry (m.under opts).options fingerprint save =
      n.applyCommittedControlMutation S entry opts fingerprint save := by
  simp only [Node.applyCommittedControlMutation, checkOperationPreconditions_under,
    noteOperationApplied_under]

/-! ## Payloads change the shards only -/

/-- All but the shards, their order and routes and the draining flag is
as it was. -/
structure Untouched (c c' : ControlPlane H ρ) : Prop where
  nodeID : c'.nodeID = c.nodeID
  clusterID : c'.clusterID = c.clusterID
  commitLogAppliedIndex : c'.commitLogAppliedIndex = c.commitLogAppliedIndex
  revision : c'.revision = c.revision
  appliedOps : c'.appliedOps = c.appliedOps
  appliedOrder : c'.appliedOrder = c.appliedOrder
  past : c'.past = c.past

theorem Untouched.refl (c : ControlPlane H ρ) : Untouched c c := ⟨rfl, rfl, rfl, rfl, rfl, rfl, rfl⟩

theorem Untouched.trans {c'' : ControlPlane H ρ} (h : Untouched c c') (h' : Untouched c' c'') :
    Untouched c c'' :=
  ⟨h'.nodeID.trans h.nodeID, h'.clusterID.trans h.clusterID,
    h'.commitLogAppliedIndex.trans h.commitLogAppliedIndex, h'.revision.trans h.revision,
    h'.appliedOps.trans h.appliedOps, h'.appliedOrder.trans h.appliedOrder,
    h'.past.trans h.past⟩

open ControlPlane in
theorem untouched_drainShard (targets : AList fun _ : String => String) (c : ControlPlane H ρ)
    (id : String) : Untouched c (drainShard S targets c id) := by
  rw [drainShard]
  split <;> exact ⟨rfl, rfl, rfl, rfl, rfl, rfl, rfl⟩

open ControlPlane in
theorem untouched_foldl_drainShard (targets : AList fun _ : String => String) (ids : List String) :
    ∀ c : ControlPlane H ρ, Untouched c (ids.foldl (drainShard S targets) c) := by
  induction ids with
  | nil => exact Untouched.refl
  | cons id ids ih => exact fun c => (untouched_drainShard targets c id).trans (ih _)

theorem untouched_of_split (h : c.applySplitPayload m = .ok c') : Untouched c c' := by
  rw [ControlPlane.applySplitPayload] at h
  split at h
  · cases h
  split at h
  · cases h
  obtain ⟨routes, -, rfl⟩ := map_eq_ok h
  exact ⟨rfl, rfl, rfl, rfl, rfl, rfl, rfl⟩

theorem untouched_of_payload (h : c.applyControlPayload S m = .ok c') : Untouched c c' := by
  rw [ControlPlane.applyControlPayload] at h
  split at h
  · rw [ControlPlane.applyTransferLeaderPayload] at h
    split at h
    · cases h
    · rw [← Except.ok.inj h]
      exact ⟨rfl, rfl, rfl, rfl, rfl, rfl, rfl⟩
  · exact untouched_of_split h
  · obtain ⟨targets, -, rfl⟩ := map_eq_ok h
    have hd := untouched_foldl_drainShard (S := S) targets c.order c
    split
    · exact ⟨hd.1, hd.2, hd.3, hd.4, hd.5, hd.6, hd.7⟩
    · exact hd
  · cases h

/-! ## The rest leaves the shards alone -/

/-- The shards and what the node is are as they were. -/
structure SameShards (c c' : ControlPlane H ρ) : Prop where
  nodeID : c'.nodeID = c.nodeID
  clusterID : c'.clusterID = c.clusterID
  heap : c'.heap = c.heap
  draining : c'.draining = c.draining
  order : c'.order = c.order
  shards : c'.shards = c.shards
  routes : c'.routes = c.routes

theorem SameShards.trans {c'' : ControlPlane H ρ} (h : SameShards c c') (h' : SameShards c' c'') :
    SameShards c c'' :=
  ⟨h'.nodeID.trans h.nodeID, h'.clusterID.trans h.clusterID, h'.heap.trans h.heap,
    h'.draining.trans h.draining, h'.order.trans h.order, h'.shards.trans h.shards,
    h'.routes.trans h.routes⟩

theorem sameShards_observe (c : ControlPlane H ρ) (index : ℕ) : SameShards c (c.observe index) := by
  rw [ControlPlane.observe]
  split <;> exact ⟨rfl, rfl, rfl, rfl, rfl, rfl, rfl⟩

theorem sameShards_evict (c : ControlPlane H ρ) : SameShards c c.evict := by
  rw [ControlPlane.evict]
  split <;> exact ⟨rfl, rfl, rfl, rfl, rfl, rfl, rfl⟩

theorem sameShards_noteOperation (c : ControlPlane H ρ) (fingerprint id : String) :
    SameShards c (c.noteOperation fingerprint id) := by
  rw [ControlPlane.noteOperation]
  split
  · exact ⟨rfl, rfl, rfl, rfl, rfl, rfl, rfl⟩
  · have h := sameShards_evict { c with
      appliedOrder := if id ∈ c.appliedOps then c.appliedOrder else c.appliedOrder ++ [id]
      appliedOps := c.appliedOps.insert id ⟨id, fingerprint, c.revision⟩ }
    exact ⟨h.1, h.2, h.3, h.4, h.5, h.6, h.7⟩

theorem sameShards_noteOperationApplied (c : ControlPlane H ρ) (opts : ControlWriteOptions)
    (fingerprint : String) (m : ControlMutation) :
    SameShards c (c.noteOperationApplied opts fingerprint m) := by
  have h := sameShards_noteOperation { c with revision := c.revision + 1, past := c.past ++ [m] }
    fingerprint (trimSpace opts.operationID)
  exact ⟨h.1, h.2, h.3, h.4, h.5, h.6, h.7⟩

/-! ## Steps -/

/-- The mutation is carried out: it meets its preconditions and has not
been applied before. -/
def executes (c : ControlPlane H ρ) (m : ControlMutation) : Bool :=
  match m.fingerprint with
  | .error _ => false
  | .ok fingerprint => c.checkOperationPreconditions m.options fingerprint = .ok false

theorem executes_eq_true (hfp : m.fingerprint = .ok fingerprint)
    (hcheck : c.checkOperationPreconditions m.options fingerprint = .ok false) :
    executes c m = true := by
  rw [executes, hfp]
  exact decide_eq_true hcheck

/-- The state a mutation that is carried out leads to, before the applied
index moves on. -/
def Mutates (S : ReplicaStore H ρ) (c : ControlPlane H ρ) (m : ControlMutation)
    (c' : ControlPlane H ρ) : Prop :=
  ∃ fingerprint c₁, m.fingerprint = .ok fingerprint ∧
    c.checkOperationPreconditions m.options fingerprint = .ok false ∧
    c.applyControlPayload S m = .ok c₁ ∧ c' = c₁.noteOperationApplied m.options fingerprint m

/-- The control plane filled with the snapshot of another. -/
def Restored (S : ReplicaStore H ρ) (c c' : ControlPlane H ρ) : Prop :=
  ∃ c₀ : ControlPlane H ρ, c₀.applyState S (c.snapshotState S) = (c', none) ∧ Agree S c' S c ∧
    c'.draining = c.draining ∧ c'.nodeID = c.nodeID ∧ c'.clusterID = c.clusterID ∧
    (c'.heap, c'.shards) =
      (c.snapshotState S).shards.foldl (ControlPlane.addShard S) (c₀.heap, ∅)

/-- **A property that snapshots keep.** -/
structure Stable (S : ReplicaStore H ρ) (P : ControlPlane H ρ → Prop) : Prop where
  layout : ∀ {c}, P c → Layout c
  table : ∀ {c}, P c → Table c
  restored : ∀ {c c'}, P c → Restored S c c' → P c'

/-- **A property that the steps keep.** The payloads keep it if the
mutation meets the condition. -/
structure Invariant (S : ReplicaStore H ρ) (P : ControlPlane H ρ → Prop)
    (C : ControlPlane H ρ → ControlMutation → Prop) : Prop extends Stable S P where
  observe : ∀ {c}, P c → ∀ index, P (c.observe index)
  mutates : ∀ {c m c'}, P c → C c m → Mutates S c m c' → P c'

namespace Stable

variable (I : Stable S P)
include I

theorem exists_restored (L : Lawful S Valid) (h : P c) {c₀ : ControlPlane H ρ}
    (hnode : c₀.nodeID = c.nodeID) (hcluster : c₀.clusterID = c.clusterID) :
    ∃ c', c₀.applyState S (c.snapshotState S) = (c', none) ∧ Restored S c c' := by
  obtain ⟨c', happly, hagree, hdrain, hn, hcl, hheap⟩ :=
    applyState_snapshotState L (I.layout h) (I.table h) c₀
  exact ⟨c', happly, c₀, happly, hagree, hdrain, hn.trans hnode, hcl.trans hcluster, hheap⟩

end Stable

/-! ## Nodes -/

/-- The property holds of the state, and of one on this node that the file
is a snapshot of. -/
structure Holds (S : ReplicaStore H ρ) (P : ControlPlane H ρ → Prop) (n : Node H ρ) : Prop where
  plane : P n.plane
  file : ∃ c, n.file = some (c.snapshotState S) ∧ P c ∧ c.nodeID = n.plane.nodeID ∧
    c.clusterID = n.plane.clusterID

/-- Only what a node keeps of its state matters. -/
theorem Holds.congr (h : Holds S P n) (hplane : n'.plane = n.plane) (hfile : n'.file = n.file) :
    Holds S P n' := ⟨hplane ▸ h.plane, by rw [hplane, hfile]; exact h.file⟩

/-- A state is saved, or the one before restored. -/
theorem Holds.saveWithRollback (I : Stable S P) (L : Lawful S Valid) (h : Holds S P n)
    {outcome : Outcome} (hc : P c) (hnode : c.nodeID = n.plane.nodeID)
    (hcluster : c.clusterID = n.plane.clusterID) :
    Holds S P (n.saveWithRollback S c (n.plane.snapshotState S) save outcome).2 := by
  obtain ⟨restored, happly, hr⟩ := I.exists_restored L h.plane hnode hcluster
  have hrn : restored.nodeID = n.plane.nodeID := hr.choose_spec.2.2.2.1
  have hrc : restored.clusterID = n.plane.clusterID := hr.choose_spec.2.2.2.2.1
  have hfile : ∃ c', n.fileAfter S c save = some (c'.snapshotState S) ∧ P c' ∧
      c'.nodeID = n.plane.nodeID ∧ c'.clusterID = n.plane.clusterID := by
    rw [Node.fileAfter]
    split
    · exact h.file
    · exact ⟨c, rfl, hc, hnode, hcluster⟩
  rw [Node.saveWithRollback]
  split
  · next hok =>
    refine ⟨hc, ?_⟩
    rw [hnode, hcluster]
    exact hfile
  · rw [happly]
    refine ⟨I.restored h.plane hr, ?_⟩
    rw [hrn, hrc]
    exact hfile

theorem Mutates.identity (h : Mutates S c m c') :
    c'.nodeID = c.nodeID ∧ c'.clusterID = c.clusterID := by
  obtain ⟨fingerprint, c₁, -, -, hpayload, rfl⟩ := h
  have hu := untouched_of_payload hpayload
  have hn := sameShards_noteOperationApplied c₁ m.options fingerprint m
  exact ⟨hn.nodeID.trans hu.nodeID, hn.clusterID.trans hu.clusterID⟩

/-- **An entry of the commit log** keeps an invariant. -/
theorem Holds.applyFromLog (I : Invariant S P C) (L : Lawful S Valid) (h : Holds S P n)
    (hC : C n.plane entry.mutation) :
    Holds S P (n.applyCommittedControlFromLog S entry save).2 := by
  rw [Node.applyCommittedControlFromLog]
  split
  · exact h
  next fingerprint hfp =>
  have hobs := sameShards_observe n.plane entry.commit.index
  rw [Node.applyCommittedControlMutation]
  dsimp only
  split
  · exact h
  split
  · exact h.saveWithRollback I.toStable L (I.observe h.plane _) hobs.1 hobs.2
  · split
    · exact h.saveWithRollback I.toStable L (I.observe h.plane _) hobs.1 hobs.2
    · exact h
  · next hcheck =>
    split
    · -- the payload fails, and the snapshot is put back
      obtain ⟨restored, happly, hr⟩ := I.exists_restored L h.plane rfl rfl
      rw [happly]
      have hrn : restored.nodeID = n.plane.nodeID := hr.choose_spec.2.2.2.1
      have hrc : restored.clusterID = n.plane.clusterID := hr.choose_spec.2.2.2.2.1
      have hobs' := sameShards_observe restored entry.commit.index
      exact h.saveWithRollback I.toStable L (I.observe (I.restored h.plane hr) _) (hobs'.1.trans hrn)
        (hobs'.2.trans hrc)
    · next c₁ hpayload =>
      have hm : Mutates S n.plane entry.mutation
          (c₁.noteOperationApplied entry.mutation.options fingerprint entry.mutation) :=
        ⟨fingerprint, c₁, hfp, hcheck, hpayload, rfl⟩
      have hobs' := sameShards_observe
        (c₁.noteOperationApplied entry.mutation.options fingerprint entry.mutation)
        entry.commit.index
      exact h.saveWithRollback I.toStable L (I.observe (I.mutates h.plane hC hm) _)
        (hobs'.1.trans hm.identity.1) (hobs'.2.trans hm.identity.2)

/-- **What an applied mutation has done**: the save has succeeded, and the
state is the one its payload has made, with the operation noted. -/
theorem exists_of_applied
    (h : n.applyCommittedControlMutation S entry opts fingerprint save = (.applied, n')) :
    ∃ c₁, n.plane.checkOperationPreconditions opts fingerprint = .ok false ∧
      n.plane.applyControlPayload S entry.mutation = .ok c₁ ∧ save = .ok ∧
      n'.plane = (c₁.noteOperationApplied opts fingerprint entry.mutation).observe
        entry.commit.index ∧
      n'.file = some (n'.plane.snapshotState S) := by
  have hsave : ∀ {c : ControlPlane H ρ} {outcome : Outcome},
      n.saveWithRollback S c (n.plane.snapshotState S) save outcome = (.applied, n') →
        outcome = .applied ∧ save = .ok ∧ n'.plane = c ∧ n'.file = some (n'.plane.snapshotState S) := by
    intro c outcome h
    rw [Node.saveWithRollback] at h
    split at h
    · next hok =>
      obtain ⟨rfl, rfl⟩ := Prod.mk.inj h
      refine ⟨rfl, hok, rfl, ?_⟩
      simp only [Node.fileAfter, hok]
      rw [if_neg (by decide)]
    · split at h <;> cases (Prod.mk.inj h).1
  rw [Node.applyCommittedControlMutation] at h
  dsimp only at h
  split at h
  · cases (Prod.mk.inj h).1
  split at h
  · cases (hsave h).1
  · split at h
    · cases (hsave h).1
    · cases (Prod.mk.inj h).1
  · next hcheck =>
    split at h
    · split at h
      · cases (Prod.mk.inj h).1
      · cases (hsave h).1
    · next c₁ hpayload =>
      obtain ⟨-, hok, hplane, hfile⟩ := hsave h
      exact ⟨c₁, hcheck, hpayload, hok, hplane, hfile⟩

/-! ## Submissions -/

theorem finish_local (answer : Except ControlErr Commit) (done : Outcome × Node H ρ) :
    (Node.finish (Provider.local answer) done).2 = done.2 := by
  obtain ⟨outcome, n⟩ := done
  rcases outcome with _ | _ | err | err <;> rfl

/-- **A submission** changes nothing, or is the application of the entry
that the commit log makes of it. -/
theorem act_submit {answer : Except ControlErr Commit}
    (h : n.act S (.submit m opts answer save) = some n') :
    n' = n ∨ ∃ commit,
      n' = (n.applyCommittedControlFromLog S ⟨commit, m.under opts⟩ save).2 := by
  rw [Node.act] at h
  split at h
  · cases h
  next fingerprint hfp =>
  rw [← Option.some.inj h, Node.applyControlMutation]
  split
  · exact Or.inl rfl
  split
  · exact Or.inl rfl
  split
  · exact Or.inl rfl
  · exact Or.inl rfl
  rcases answer with err | commit
  · exact Or.inl rfl
  · refine Or.inr ⟨commit, ?_⟩
    have hfp' : (m.under opts).fingerprint = .ok fingerprint := hfp
    rw [Node.applyCommittedControlFromLog, hfp']
    show (Node.finish (Provider.local (.ok commit)) _).2 = _
    rw [finish_local]
    exact congrArg Prod.snd applyCommitted_under.symm

/-! ## Restarts -/

/-- **A node can always start again**, and the invariant holds then. -/
theorem Holds.restart (I : Stable S P) (L : Lawful S Valid) (h : Holds S P n) :
    ∃ n', n.restart S = some n' ∧ Holds S P n' := by
  obtain ⟨c, hfile, hc, hnode, hcluster⟩ := h.file
  have hnew : (ControlPlane.new S c.nodeID c.clusterID).nodeID = c.nodeID := rfl
  obtain ⟨loaded, happly, hr⟩ := I.exists_restored L hc hnew rfl
  have hload : ControlPlane.load S n.plane.nodeID n.plane.clusterID (c.snapshotState S) =
      .ok loaded := by
    rw [← hnode, ← hcluster]
    exact load_snapshotState (I.layout hc) (I.table hc) happly
  have hn : loaded.nodeID = c.nodeID := hr.choose_spec.2.2.2.1
  have hcl : loaded.clusterID = c.clusterID := hr.choose_spec.2.2.2.2.1
  refine ⟨⟨loaded, some (c.snapshotState S), none, n.reports⟩, ?_, I.restored hc hr, ?_⟩
  · simp only [Node.restart, hfile, hload]
  · exact ⟨c, rfl, hc, hn.symm, hcl.symm⟩

/-! ## Runs -/

/-- The mutation that a step may carry out. -/
def Op.mutation : Op → Option ControlMutation
  | .commit entry _ => some entry.mutation
  | .submit m opts _ _ => some (m.under opts)
  | .restart => none

/-- The mutation of the step meets the condition. -/
def Meets (C : ControlPlane H ρ → ControlMutation → Prop) (n : Node H ρ) (op : Op) : Prop :=
  ∀ m, op.mutation = some m → C n.plane m

theorem meets_iff [∀ c m, Decidable (C c m)] {op : Op} :
    (op.mutation.all fun m => decide (C n.plane m)) = true ↔ Meets C n op := by
  rw [Option.all_eq_true, Meets]
  exact forall₂_congr fun _ _ => decide_eq_true_iff

instance [∀ c m, Decidable (C c m)] (n : Node H ρ) (op : Op) : Decidable (Meets C n op) :=
  decidable_of_iff _ meets_iff

/-- **A step keeps an invariant.** -/
theorem Holds.act (I : Invariant S P C) (L : Lawful S Valid) (h : Holds S P n) {op : Op}
    (hC : Meets C n op) (hact : n.act S op = some n') : Holds S P n' := by
  rcases op with ⟨entry, save⟩ | ⟨m, opts, answer, save⟩ | _
  · rw [← Option.some.inj hact]
    exact (h.applyFromLog I L (hC _ rfl)).congr rfl rfl
  · rcases act_submit hact with rfl | ⟨commit, rfl⟩
    · exact h
    · exact h.applyFromLog I L (hC _ rfl)
  · obtain ⟨n₁, hrestart, h₁⟩ := h.restart I.toStable L
    obtain rfl : n₁ = n' := Option.some.inj (hrestart.symm.trans hact)
    exact h₁

/-- **A run keeps an invariant** if its mutations meet the condition. -/
theorem Holds.runs (I : Invariant S P C) (L : Lawful S Valid) (h : Holds S P n) {ops : List Op}
    (hC : Along (Node.act S) (Meets C) n ops) (hrun : runs (Node.act S) n ops = some n') :
    Holds S P n' :=
  runs_induction (fun _ _ _ hs hc hact => hs.act I L hc hact) h hrun hC

end LSMEngine.Control
