import LSMEngine.Common.Lists
import LSMEngine.Control.Layout
/-!
# Control plane — operations are applied once

The order of the table of operations is the end of the list of all the
operation ids that have been applied, as much of it as the table has room
for (`Window`). An id that is recorded is not applied again, so each id in
the order is there once. Hence the record of a mutation is found as long
as fewer than `maxAppliedControlOps` mutations with ids have been applied
after it, across saves that fail and restarts, and submitting the mutation
again under its id changes nothing (`operations_run`). Ids are valid
Unicode, as all strings of the model: a checkpoint keeps them as they are.

The mutations that have been applied are those in `past`. A save that
fails after the file was replaced puts the state before back in memory,
but the next start finds the mutation in the file: it counts from then on.
-/

namespace LSMEngine.Control

open CommitLog (Commit ControlEntry)

variable {H ρ : Type} {S : ReplicaStore H ρ} {c c' : ControlPlane H ρ} {m : ControlMutation}
  {id fingerprint : String} {past pre post : List ControlMutation}
variable {save : SaveResult} {entry : ControlEntry ControlMutation}

/-! ## The ids of the mutations -/

/-- The operation id of a mutation, if it has one. -/
def ControlMutation.opID (m : ControlMutation) : Option String :=
  if trimSpace m.operationID = "" then none else some (trimSpace m.operationID)

/-- The operation ids of mutations, in order. -/
def opIDs (past : List ControlMutation) : List String := past.filterMap ControlMutation.opID

theorem opIDs_append (past post : List ControlMutation) :
    opIDs (past ++ post) = opIDs past ++ opIDs post := List.filterMap_append

theorem opIDs_cons (h : m.opID = some id) (post : List ControlMutation) :
    opIDs (m :: post) = id :: opIDs post := by
  rw [opIDs, List.filterMap_cons, h]
  rfl

theorem opID_eq_none (h : trimSpace m.operationID = "") : m.opID = none := if_pos h

theorem opID_eq_some (h : trimSpace m.operationID ≠ "") :
    m.opID = some (trimSpace m.operationID) := if_neg h

/-- What is in a list near its end is in every end that is long enough. -/
theorem mem_of_suffix {α : Type*} {s as bs : List α} {a : α} (h : s <:+ as ++ a :: bs)
    (hlen : bs.length < s.length) : a ∈ s := by
  rw [List.suffix_iff_eq_drop] at h
  have hle : (as ++ a :: bs).length - s.length ≤ as.length := by
    rw [List.length_append, List.length_cons]
    omega
  rw [h, List.drop_append_of_le_length hle]
  exact List.mem_append_right _ List.mem_cons_self

/-! ## The window -/

/-- **The order is the end of the list of ids**, as long as there is room
for, and a mutation not too far from the end has its record. -/
structure Window (c : ControlPlane H ρ) : Prop where
  suffix : c.appliedOrder <:+ opIDs c.past
  full : min maxAppliedControlOps (opIDs c.past).length ≤ c.appliedOrder.length
  recorded : ∀ pre m post id, c.past = pre ++ m :: post → m.opID = some id →
    (opIDs post).length < maxAppliedControlOps →
    ∃ op, c.appliedOps.lookup id = some op ∧ m.fingerprint = .ok op.fingerprint

theorem Agree.window (h : Agree S c S c') (hw : Window c) : Window c' := by
  refine ⟨h.appliedOrder ▸ h.past ▸ hw.suffix, h.appliedOrder ▸ h.past ▸ hw.full,
    fun pre m post id hpast hid hlen => ?_⟩
  rw [← h.appliedOps]
  exact hw.recorded pre m post id (h.past.trans hpast) hid hlen

theorem Window.congr (h : Window c) (hops : c'.appliedOps = c.appliedOps)
    (horder : c'.appliedOrder = c.appliedOrder) (hpast : c'.past = c.past) : Window c' := by
  refine ⟨horder ▸ hpast ▸ h.suffix, horder ▸ hpast ▸ h.full, ?_⟩
  rw [hops, hpast]
  exact h.recorded

/-- An operation without an id moves nothing. -/
theorem Window.append_none (h : Window c) (hid : trimSpace m.operationID = "")
    (hops : c'.appliedOps = c.appliedOps) (horder : c'.appliedOrder = c.appliedOrder)
    (hpast : c'.past = c.past ++ [m]) : Window c' := by
  have hids : opIDs (c.past ++ [m]) = opIDs c.past := by
    rw [opIDs_append, opIDs, opIDs, List.filterMap_cons, opID_eq_none hid]
    simp
  refine ⟨?_, ?_, fun pre m' post id hsplit hm' hlen => ?_⟩
  · rw [hpast, hids, horder]
    exact h.suffix
  · rw [hpast, hids, horder]
    exact h.full
  · rw [hops]
    rcases split_concat (hpast ▸ hsplit) with ⟨-, rfl, -⟩ | ⟨post', rfl, hsplit'⟩
    · rw [opID_eq_none hid] at hm'
      cases hm'
    · refine h.recorded pre m' post' id hsplit' hm' (lt_of_le_of_lt ?_ hlen)
      rw [opIDs_append, List.length_append]
      omega

/-- The order once an id is recorded that was not. -/
theorem appliedOrder_record (hnew : id ∉ c.appliedOps) :
    (c.record fingerprint id).appliedOrder = c.appliedOrder ++ [id] := if_neg hnew

theorem past_evict (c : ControlPlane H ρ) : c.evict.past = c.past := by
  rw [ControlPlane.evict]
  split <;> rfl

/-- **An operation with a new id** moves the window on by one. -/
theorem Window.append_some (h : Window c) {c₁ : ControlPlane H ρ} (hr : Recorded c₁)
    (hops : c₁.appliedOps = c.appliedOps) (horder : c₁.appliedOrder = c.appliedOrder)
    (hpast : c₁.past = c.past ++ [m]) (hid : trimSpace m.operationID ≠ "")
    (hnew : trimSpace m.operationID ∉ c₁.appliedOps) (hfp : m.fingerprint = .ok fingerprint) :
    Window (c₁.record fingerprint (trimSpace m.operationID)).evict := by
  have hrec := hr.record (trimSpace_trimSpace _) hid (fingerprint_ne_empty hfp)
  have hids : opIDs (c.past ++ [m]) = opIDs c.past ++ [trimSpace m.operationID] := by
    rw [opIDs_append, opIDs_cons (opID_eq_some hid)]
    rfl
  have hord : (c₁.record fingerprint (trimSpace m.operationID)).appliedOrder =
      c.appliedOrder ++ [trimSpace m.operationID] := by
    rw [appliedOrder_record hnew, horder]
  have hpast' : (c₁.record fingerprint (trimSpace m.operationID)).evict.past = c.past ++ [m] := by
    rw [past_evict]
    exact hpast
  -- what is left of the order is the end of the ids, and long enough
  have hsuffix : (c₁.record fingerprint (trimSpace m.operationID)).evict.appliedOrder <:+
      opIDs (c.past ++ [m]) := by
    rw [appliedOrder_evict, hord, hids]
    refine (List.drop_suffix _ _).trans ?_
    obtain ⟨t, ht⟩ := h.suffix
    exact ⟨t, by rw [← ht, List.append_assoc]⟩
  have hfull : min maxAppliedControlOps (opIDs (c.past ++ [m])).length ≤
      (c₁.record fingerprint (trimSpace m.operationID)).evict.appliedOrder.length := by
    have := h.full
    rw [appliedOrder_evict, List.length_drop, ControlPlane.overflow, hord, hids, List.length_append,
      List.length_append, List.length_singleton]
    omega
  refine ⟨hpast' ▸ hsuffix, hpast' ▸ hfull, fun pre m' post id hsplit hm' hlen => ?_⟩
  rw [hpast'] at hsplit
  have hmem : id ∈ (c₁.record fingerprint (trimSpace m.operationID)).evict.appliedOrder := by
    rw [hsplit, opIDs_append, opIDs_cons hm'] at hsuffix hfull
    refine mem_of_suffix hsuffix ?_
    rw [List.length_append, List.length_cons] at hfull
    omega
  rw [appliedOrder_evict] at hmem
  rw [lookup_evict_of_mem hrec.nodup hmem, lookup_record]
  rcases split_concat hsplit with ⟨-, rfl, -⟩ | ⟨post', rfl, hsplit'⟩
  · -- the operation itself
    rw [opID_eq_some hid] at hm'
    rw [if_pos (Option.some.inj hm').symm]
    exact ⟨_, rfl, hfp⟩
  · -- one before it, which the new id does not replace
    have hlen' : (opIDs post').length < maxAppliedControlOps := by
      rw [opIDs_append, List.length_append] at hlen
      omega
    obtain ⟨op, hop, hprint⟩ := h.recorded pre m' post' id hsplit' hm' hlen'
    rw [← hops] at hop
    have hne : id ≠ trimSpace m.operationID := by
      rintro rfl
      exact hnew (AList.lookup_isSome.mp (by rw [hop]; rfl))
    rw [if_neg hne]
    exact ⟨op, hop, hprint⟩

/-! ## Mutations -/

/-- A mutation that is carried out under an id has a new one. -/
theorem not_mem_of_check (opts : ControlWriteOptions) (hid : trimSpace opts.operationID ≠ "")
    (h : c.checkOperationPreconditions opts fingerprint = .ok false) :
    trimSpace opts.operationID ∉ c.appliedOps := by
  intro hmem
  obtain ⟨op, hop⟩ := Option.isSome_iff_exists.mp (AList.lookup_isSome.mpr hmem)
  rw [ControlPlane.checkOperationPreconditions, ControlPlane.checkOperation,
    ControlPlane.appliedOperation, if_neg hid, hop] at h
  dsimp only at h
  split at h <;> cases h

theorem Mutates.past_eq (h : Mutates S c m c') : c'.past = c.past ++ [m] := by
  obtain ⟨fingerprint, c₁, -, -, hpayload, rfl⟩ := h
  rw [ControlPlane.noteOperationApplied, ControlPlane.noteOperation]
  split
  · rw [(untouched_of_payload hpayload).past]
  · rw [past_evict, (untouched_of_payload hpayload).past]

/-- **A mutation that is carried out keeps the window.** -/
theorem Mutates.window (h : Mutates S c m c') (ht : Table c) (hw : Window c) : Window c' := by
  have hpast := h.past_eq
  obtain ⟨fingerprint, c₁, hfp, hcheck, hpayload, rfl⟩ := h
  have hu := untouched_of_payload hpayload
  by_cases hid : trimSpace m.operationID = ""
  · have heq : c₁.noteOperationApplied m.options fingerprint m =
        { c₁ with revision := c₁.revision + 1, past := c₁.past ++ [m] } := by
      rw [ControlPlane.noteOperationApplied, show trimSpace m.options.operationID = "" from hid,
        noteOperation_empty]
    rw [heq] at hpast ⊢
    exact hw.append_none hid hu.appliedOps hu.appliedOrder hpast
  · have hnew := not_mem_of_check m.options hid hcheck
    have heq : c₁.noteOperationApplied m.options fingerprint m =
        ({ c₁ with revision := c₁.revision + 1, past := c₁.past ++ [m] } : ControlPlane H ρ).noteOperation
          fingerprint (trimSpace m.operationID) := rfl
    rw [heq, noteOperation_of_ne _ _ hid]
    have ht₁ : Table { c₁ with revision := c₁.revision + 1, past := c₁.past ++ [m] } :=
      ht.congr hu.appliedOps hu.appliedOrder
    refine hw.append_some ht₁.toRecorded hu.appliedOps hu.appliedOrder ?_ hid ?_ hfp
    · rw [← hu.past]
    · rw [hu.appliedOps]
      exact hnew

theorem past_observe (c : ControlPlane H ρ) (index : ℕ) :
    (c.observe index).past = c.past ∧ (c.observe index).appliedOps = c.appliedOps ∧
      (c.observe index).appliedOrder = c.appliedOrder := by
  rw [ControlPlane.observe]
  split <;> exact ⟨rfl, rfl, rfl⟩

/-- The control plane is in order and remembers its operations, and these
mutations have been applied first. -/
structure Remembers (K : Bytes → Prop) (base : List ControlMutation) (c : ControlPlane H ρ) :
    Prop where
  inOrder : InOrder K c
  window : Window c
  base : base <+: c.past

/-- **What is remembered is an invariant.** -/
theorem remembers_invariant (S : ReplicaStore H ρ) (K : Bytes → Prop)
    (base : List ControlMutation) : Invariant S (Remembers K base) fun _ _ => True where
  layout h := h.inOrder.layout
  table h := h.inOrder.table
  restored h hr := by
    have horder := (inOrder_invariant S K).restored h.inOrder hr
    obtain ⟨c₀, -, hagree, -⟩ := hr
    exact ⟨horder, hagree.symm.window h.window, hagree.past.symm ▸ h.base⟩
  observe {c} h index := by
    obtain ⟨hpast, hops, horder⟩ := past_observe c index
    exact ⟨(inOrder_invariant S K).observe h.inOrder index, h.window.congr hops horder hpast,
      hpast.symm ▸ h.base⟩
  mutates h _ hm :=
    ⟨(inOrder_invariant S K).mutates h.inOrder trivial hm, hm.window h.inOrder.table h.window,
      hm.past_eq.symm ▸ h.base.trans (List.prefix_append _ _)⟩

theorem Unused.window (h : Unused c) : Window c := by
  refine ⟨?_, ?_, fun pre m post id hsplit => ?_⟩
  · rw [h.appliedOrder, h.past]
    exact List.suffix_refl []
  · rw [h.past]
    exact Nat.min_le_right _ _ |>.trans (Nat.zero_le _)
  · rw [h.past] at hsplit
    simp at hsplit

/-! ## Submitting again -/

/-- A mutation whose record is there is not carried out again. -/
theorem check_eq_true {op : AppliedOperation} {opts : ControlWriteOptions}
    (hid : trimSpace opts.operationID ≠ "")
    (hop : c.appliedOps.lookup (trimSpace opts.operationID) = some op)
    (hfp : op.fingerprint = fingerprint) :
    c.checkOperationPreconditions opts fingerprint = .ok true := by
  rw [ControlPlane.checkOperationPreconditions, ControlPlane.checkOperation,
    ControlPlane.appliedOperation, if_neg hid, hop]
  dsimp only
  rw [if_neg (not_not.mpr hfp)]

/-- A node that takes proposals answers such a submission at once. -/
theorem applyControlMutation_of_check {n : Node H ρ} {P : Provider H ρ} {opts : ControlWriteOptions}
    (hcommit : n.commitErr = none) (hopen : P.refusal = none)
    (hcheck : n.plane.checkOperationPreconditions opts fingerprint = .ok true) :
    n.applyControlMutation S P m opts fingerprint save = (none, n) := by
  rw [Node.applyControlMutation, if_neg (not_not.mpr hcommit), if_neg (not_not.mpr hopen), hcheck]

/-- **A mutation that has been applied**, with few others after it, is
answered with success and changes nothing. -/
theorem Window.resubmit {n : Node H ρ} (h : Window n.plane) {P : Provider H ρ}
    (hpast : n.plane.past = pre ++ m :: post) (hid : trimSpace m.operationID ≠ "")
    (hfew : (opIDs post).length < maxAppliedControlOps) (hopen : P.refusal = none)
    (hcommit : n.commitErr = none) (hfp : m.fingerprint = .ok fingerprint)
    (expectedRevision : Option UInt64) (save : SaveResult) :
    n.applyControlMutation S P m ⟨m.operationID, expectedRevision⟩ fingerprint save = (none, n) := by
  obtain ⟨op, hop, hprint⟩ := h.recorded pre m post _ hpast (opID_eq_some hid) hfew
  refine applyControlMutation_of_check hcommit hopen (check_eq_true hid hop ?_)
  exact Except.ok.inj (hprint.symm.trans hfp)

variable {grow : ℕ → ℕ → ℕ} {nodeID clusterID : String} {shardMap : List ShardConfig}
  {ops : List Op} {n₀ n : Node (Arrays ReplicaStatus) SliceRef}

theorem remembers_run (hstart : Node.start (slices grow) nodeID clusterID shardMap = some n₀)
    (hrun : runs (Node.act (slices grow)) n₀ ops = some n) :
    Holds (slices grow) (Remembers n₀.plane.Covers []) n := by
  obtain ⟨hl, hu⟩ := bootstrap_inOrder (exists_bootstrap hstart).1
  have h₀ : Holds (slices grow) (Remembers n₀.plane.Covers []) n₀ :=
    holds_start hstart ⟨⟨hl, hu.table, fun _ => Iff.rfl⟩, hu.window, List.nil_prefix⟩
  exact h₀.runs (remembers_invariant _ _ _) (lawful_slices grow) (fun _ _ _ _ _ _ _ _ => trivial)
    hrun

/-- What an applied entry of the commit log has done. -/
theorem mutates_of_applied {n n' : Node H ρ}
    (h : n.applyCommittedControlFromLog S entry save = (.applied, n')) :
    ∃ c', Mutates S n.plane entry.mutation c' ∧ n'.plane = c'.observe entry.commit.index ∧
      n'.file = some (n'.plane.snapshotState S) := by
  rw [Node.applyCommittedControlFromLog] at h
  split at h
  · cases (Prod.mk.inj h).1
  next fingerprint hfp =>
  obtain ⟨c₁, hcheck, hpayload, -, hplane, hfile⟩ := exists_of_applied h
  exact ⟨_, ⟨fingerprint, c₁, hfp, hcheck, hpayload, rfl⟩, hplane, hfile⟩

theorem past_of_applied {n n' : Node H ρ}
    (h : n.applyCommittedControlFromLog S entry save = (.applied, n')) :
    n'.plane.past = n.plane.past ++ [entry.mutation] := by
  obtain ⟨c', hm, hplane, -⟩ := mutates_of_applied h
  rw [hplane, (past_observe c' entry.commit.index).1, hm.past_eq]

/-- After a mutation has been applied, the file has it as well. -/
theorem Holds.of_applied {K : Bytes → Prop} {n n' : Node H ρ} (h : Holds S (Remembers K []) n)
    (happly : n.applyCommittedControlFromLog S entry save = (.applied, n')) :
    Holds S (Remembers K (n.plane.past ++ [entry.mutation])) n' := by
  obtain ⟨c', hm, hplane, hfile⟩ := mutates_of_applied happly
  have hr : Remembers K (n.plane.past ++ [entry.mutation]) n'.plane := by
    have hI := remembers_invariant S K []
    have hr := hI.observe (hI.mutates h.plane trivial hm) entry.commit.index
    rw [← hplane] at hr
    exact ⟨hr.inOrder, hr.window, [], by rw [List.append_nil, past_of_applied happly]⟩
  exact ⟨hr, n'.plane, hfile, hr, rfl, rfl⟩

/-- **Operation ids make mutations idempotent.** In every reached state the
order of the table holds its ids, each once and not too many. A mutation
that has been applied under an id, from the commit log or submitted to the
node, with fewer than `maxAppliedControlOps` mutations with ids after it,
is answered with success when it is submitted again under its id, and
changes nothing. And so is one that is applied there and submitted again
after any further steps that apply fewer than that. -/
theorem operations_run (hstart : Node.start (slices grow) nodeID clusterID shardMap = some n₀)
    (hrun : runs (Node.act (slices grow)) n₀ ops = some n) :
    (n.plane.appliedOrder.Nodup ∧
      (∀ id, id ∈ n.plane.appliedOrder ↔ id ∈ n.plane.appliedOps) ∧
      n.plane.appliedOrder.length ≤ 256) ∧
    (∀ pre m post, n.plane.past = pre ++ m :: post → trimSpace m.operationID ≠ "" →
      (opIDs post).length < 256 →
      ∀ P : Provider (Arrays ReplicaStatus) SliceRef, P.refusal = none → n.commitErr = none →
      ∀ fingerprint, m.fingerprint = .ok fingerprint → ∀ expectedRevision save,
        n.applyControlMutation (slices grow) P m ⟨m.operationID, expectedRevision⟩ fingerprint
          save = (none, n)) ∧
    ∀ entry save n₁, n.applyCommittedControlFromLog (slices grow) entry save = (.applied, n₁) →
      trimSpace entry.mutation.operationID ≠ "" →
      ∀ ops' n₂, runs (Node.act (slices grow)) n₁ ops' = some n₂ →
      (opIDs (n₂.plane.past.drop n₁.plane.past.length)).length < 256 →
      ∀ P : Provider (Arrays ReplicaStatus) SliceRef, P.refusal = none → n₂.commitErr = none →
      ∀ fingerprint, entry.mutation.fingerprint = .ok fingerprint → ∀ expectedRevision save',
        n₂.applyControlMutation (slices grow) P entry.mutation
          ⟨entry.mutation.operationID, expectedRevision⟩ fingerprint save' = (none, n₂) := by
  have h := remembers_run hstart hrun
  refine ⟨⟨h.plane.inOrder.table.nodup, h.plane.inOrder.table.mem_order,
    h.plane.inOrder.table.bounded⟩, fun pre m post hpast hid hfew P hopen hcommit fingerprint hfp =>
      h.plane.window.resubmit hpast hid hfew hopen hcommit hfp, ?_⟩
  intro entry save n₁ happly hid ops' n₂ hrun' hfew P hopen hcommit fingerprint hfp
    expectedRevision save'
  have h₂ := (h.of_applied happly).runs (remembers_invariant _ _ _) (lawful_slices grow)
    (fun _ _ _ _ _ _ _ _ => trivial) hrun'
  -- the mutation, and what has been applied after it
  obtain ⟨post, hpost⟩ := h₂.plane.base
  have hdrop : n₂.plane.past.drop n₁.plane.past.length = post := by
    rw [← hpost, past_of_applied happly, List.drop_left]
  have hsplit : n₂.plane.past = n.plane.past ++ entry.mutation :: post := by
    rw [← hpost, List.append_assoc]
    rfl
  rw [hdrop] at hfew
  exact h₂.plane.window.resubmit hsplit hid hfew hopen hcommit hfp expectedRevision save'

/-- A split of the only shard, under an id. -/
def splitDefault : ControlEntry ControlMutation :=
  ⟨⟨1, 1⟩, ⟨.split, "default", "", [5], "", " op-1 ", some 0⟩⟩

theorem operations_splitDefault :
    ∃ n₀ n₁ n₂, Node.start (slices fun _ _ => 0) "n1" "c" [] = some n₀ ∧
      n₀.applyCommittedControlFromLog (slices fun _ _ => 0) splitDefault .ok = (.applied, n₁) ∧
      runs (Node.act (slices fun _ _ => 0)) n₁ [.restart] = some n₂ ∧
      n₂.applyControlMutation (slices fun _ _ => 0) (Provider.local (.ok ⟨2, 1⟩))
        splitDefault.mutation ⟨" op-1 ", some 0⟩ "split:default:05" .ok = (none, n₂) := by
  have h : (Node.start (slices fun _ _ => 0) "n1" "c" []).map (fun n₀ =>
      ((n₀.applyCommittedControlFromLog (slices fun _ _ => 0) splitDefault .ok).1,
        (runs (Node.act (slices fun _ _ => 0))
          (n₀.applyCommittedControlFromLog (slices fun _ _ => 0) splitDefault .ok).2
          [.restart]).map fun n₂ => (n₂.plane.past.length, n₂.commitErr))) =
      some (.applied, some (1, none)) := by decide +kernel
  obtain ⟨n₀, hstart, hpair⟩ := Option.map_eq_some_iff.mp h
  obtain ⟨happlied, hrestart⟩ := Prod.mk.inj hpair
  obtain ⟨n₂, hrun, hn₂⟩ := Option.map_eq_some_iff.mp hrestart
  obtain ⟨hpast, hcommit⟩ := Prod.mk.inj hn₂
  have happly : n₀.applyCommittedControlFromLog (slices fun _ _ => 0) splitDefault .ok =
      (.applied, (n₀.applyCommittedControlFromLog (slices fun _ _ => 0) splitDefault .ok).2) :=
    Prod.ext happlied rfl
  have hnone : runs (Node.act (slices fun _ _ => 0)) n₀ [] = some n₀ := rfl
  refine ⟨n₀, _, n₂, hstart, happly, hrun, (operations_run hstart hnone).2.2 _ _ _ happly
    (by decide +kernel) [.restart] n₂ hrun ?_ _ rfl hcommit _ (by decide +kernel) _ _⟩
  refine lt_of_le_of_lt (List.length_filterMap_le _ _) ?_
  rw [List.length_drop, hpast]
  omega

end LSMEngine.Control
