import LSMEngine.Control.Idempotence
/-!
# Control plane — an operation id for another mutation

Who submits a mutation under an operation id that was used for another
one is told so, because the record of an operation has the fingerprint of
its mutation. Fingerprints of different kinds start differently, and that
of a split ends behind its last colon with the hexadecimal digits of the
key. But a transfer has two names there, and both may have colons in
them: where the fingerprints of two transfers are the same
(`Ambiguous`), the second is taken for the first and answered with
success (`reused_transfer`). Of all other requests a reused id is refused
(`reused_conflicts`).
-/

namespace LSMEngine.Control

variable {m m' : ControlMutation} {nodeID nodeID' : String} {request request' : Request}

/-! ## Hexadecimal digits -/

theorem hexDigit_inj {i j : ℕ} (hi : i < 16) (hj : j < 16) (h : hexDigit i = hexDigit j) :
    i = j := by
  have : ∀ i < 16, ∀ j < 16, hexDigit i = hexDigit j → i = j := by decide +kernel
  exact this i hi j hj h

theorem hexDigit_ne_colon {i : ℕ} (hi : i < 16) : hexDigit i ≠ ':' := by
  have : ∀ i < 16, hexDigit i ≠ ':' := by decide +kernel
  exact this i hi

/-- The two digits of a byte. -/
def hexPair (b : UInt8) : List Char := [hexDigit (b.toNat / 16), hexDigit (b.toNat % 16)]

theorem toList_hex (bytes : Bytes) : (hex bytes).toList = bytes.flatMap hexPair :=
  String.toList_ofList

theorem colon_not_mem_hex (bytes : Bytes) : ':' ∉ (hex bytes).toList := by
  rw [toList_hex, List.mem_flatMap]
  rintro ⟨b, -, hb⟩
  have := b.toNat_lt
  rcases List.mem_pair.mp hb with h | h
  · exact hexDigit_ne_colon (by omega) h.symm
  · exact hexDigit_ne_colon (by omega) h.symm

theorem hex_inj {as bs : Bytes} (h : (hex as).toList = (hex bs).toList) : as = bs := by
  rw [toList_hex, toList_hex] at h
  induction as generalizing bs with
  | nil =>
    cases bs with
    | nil => rfl
    | cons b bs => cases h
  | cons a as ih =>
    cases bs with
    | nil => cases h
    | cons b bs =>
      obtain ⟨hhigh, h⟩ := List.cons.inj h
      obtain ⟨hlow, h⟩ := List.cons.inj h
      have ha := a.toNat_lt
      have hb := b.toNat_lt
      have hq := hexDigit_inj (by omega) (by omega) hhigh
      have hr := hexDigit_inj (by omega) (by omega) hlow
      rw [ih h, UInt8.toNat_inj.mp (by omega : a.toNat = b.toNat)]

/-! ## Fingerprints -/

theorem takeWhile_ne_colon {t : List Char} (ht : ':' ∉ t) (a : List Char) :
    (t ++ ':' :: a).takeWhile (· ≠ ':') = t := by
  rw [List.takeWhile_append_of_pos fun c hc => decide_eq_true (ne_of_mem_of_not_mem hc ht),
    List.takeWhile_cons_of_neg (by decide), List.append_nil]

/-- What stands behind the last colon is found again. -/
theorem append_colon_inj {a a' t t' : String} (h : a ++ ":" ++ t = a' ++ ":" ++ t')
    (ht : ':' ∉ t.toList) (ht' : ':' ∉ t'.toList) : a = a' ∧ t.toList = t'.toList := by
  have hrev := congrArg (fun s => s.toList.reverse) h
  have hcolon : (":" : String).toList = [':'] := by decide +kernel
  simp only [String.toList_append, List.reverse_append, hcolon, List.reverse_singleton,
    List.singleton_append] at hrev
  have htake := congrArg (List.takeWhile (· ≠ ':')) hrev
  rw [takeWhile_ne_colon (by rwa [List.mem_reverse]), takeWhile_ne_colon (by rwa [List.mem_reverse])]
    at htake
  rw [htake, List.append_cancel_left_eq] at hrev
  exact ⟨String.toList_inj.mp (List.reverse_injective (List.cons.inj hrev).2),
    List.reverse_injective htake⟩

/-- **Two transfers with one fingerprint.** -/
def Ambiguous (m m' : ControlMutation) : Prop :=
  m.kind = .transferLeader ∧ m'.kind = .transferLeader ∧
    m.shardID ++ ":" ++ m.target = m'.shardID ++ ":" ++ m'.target

instance (m m' : ControlMutation) : Decidable (Ambiguous m m') :=
  inferInstanceAs (Decidable (_ ∧ _ ∧ _))

/-- What the fingerprints of a kind start with. -/
def MutationKind.initial : MutationKind → Char
  | .transferLeader => 't'
  | .split => 's'
  | .prepareDrain => 'd'
  | .other _ => ' '

theorem head_fingerprint {fingerprint : String} (h : m.fingerprint = .ok fingerprint) :
    fingerprint.toList.head? = some m.kind.initial := by
  rw [ControlMutation.fingerprint] at h
  split at h
  · next hkind =>
    rw [← Except.ok.inj h, hkind, String.append_assoc, String.append_assoc, String.toList_append]
    rfl
  · next hkind =>
    rw [← Except.ok.inj h, hkind, String.append_assoc, String.append_assoc, String.toList_append]
    rfl
  · next hkind =>
    rw [← Except.ok.inj h, hkind, String.toList_append]
    rfl
  · cases h

section

variable (h : request.mutation nodeID = .ok m)
include h

/-- What a node submits for a request. -/
theorem mutation_cases :
    (∃ shardID target, m = ⟨.transferLeader, shardID, target, [], "", "", none⟩) ∨
      (∃ shardID split, m = ⟨.split, shardID, "", split, "", "", none⟩) ∨
      ∃ node, m = ⟨.prepareDrain, "", "", [], node, "", none⟩ := by
  rw [Request.mutation.eq_def] at h
  split at h
  · dsimp only at h
    split at h
    · cases h
    · exact Or.inl ⟨_, _, (Except.ok.inj h).symm⟩
  · dsimp only at h
    split at h
    · cases h
    · exact Or.inr (Or.inl ⟨_, _, (Except.ok.inj h).symm⟩)
  · next node =>
    rcases ite_eq_or_eq (trimSpace node = "") nodeID (trimSpace node) with hnode | hnode
    all_goals
      dsimp only at h
      rw [hnode] at h
      split at h
      · cases h
      · exact Or.inr (Or.inr ⟨_, (Except.ok.inj h).symm⟩)

/-- A request has a fingerprint. -/
theorem exists_fingerprint : ∃ fingerprint, m.fingerprint = .ok fingerprint := by
  obtain ⟨_, _, rfl⟩ | ⟨_, _, rfl⟩ | ⟨_, rfl⟩ := mutation_cases h <;> exact ⟨_, rfl⟩

/-- So those of one fingerprint are of one kind. -/
theorem kind_eq (h' : request'.mutation nodeID' = .ok m') (hfp : m.fingerprint = m'.fingerprint) :
    m.kind = m'.kind := by
  obtain ⟨fingerprint, hm⟩ := exists_fingerprint h
  have hinitial : m.kind.initial = m'.kind.initial :=
    Option.some.inj ((head_fingerprint hm).symm.trans (head_fingerprint (hfp ▸ hm)))
  obtain ⟨a, t, rfl⟩ | ⟨a, k, rfl⟩ | ⟨node, rfl⟩ := mutation_cases h <;>
    obtain ⟨a', t', rfl⟩ | ⟨a', k', rfl⟩ | ⟨node', rfl⟩ := mutation_cases h' <;>
    first | rfl | simp [MutationKind.initial] at hinitial

/-- **Fingerprints tell requests apart**, but for two transfers. -/
theorem fingerprint_eq_iff (h' : request'.mutation nodeID' = .ok m') (hne : m ≠ m') :
    m.fingerprint = m'.fingerprint ↔ Ambiguous m m' := by
  constructor
  · intro hfp
    have hkind := kind_eq h h' hfp
    obtain ⟨a, t, rfl⟩ | ⟨a, k, rfl⟩ | ⟨node, rfl⟩ := mutation_cases h <;>
      obtain ⟨a', t', rfl⟩ | ⟨a', k', rfl⟩ | ⟨node', rfl⟩ := mutation_cases h' <;> cases hkind
    · have htext := Except.ok.inj hfp
      simp only [String.append_assoc, String.append_right_inj] at htext
      exact ⟨rfl, rfl, by simpa only [String.append_assoc] using htext⟩
    · obtain ⟨hshard, hkey⟩ := append_colon_inj (Except.ok.inj hfp) (colon_not_mem_hex k)
        (colon_not_mem_hex k')
      obtain rfl := (String.append_right_inj _).mp hshard
      obtain rfl : k = k' := hex_inj hkey
      exact absurd rfl hne
    · obtain rfl := (String.append_right_inj _).mp (Except.ok.inj hfp)
      exact absurd rfl hne
  · rintro ⟨hkind, hkind', htext⟩
    rw [ControlMutation.fingerprint, ControlMutation.fingerprint, hkind, hkind']
    dsimp only
    simp only [String.append_assoc] at htext ⊢
    rw [htext]

end

/-! ## Reused ids -/

section Reused

variable {H ρ : Type} {S : ReplicaStore H ρ} {c : ControlPlane H ρ} {opts : ControlWriteOptions}
  {fingerprint : String}

/-- A recorded operation settles what becomes of its id. -/
theorem check_of_recorded {op : AppliedOperation} (hid : trimSpace opts.operationID ≠ "")
    (hop : c.appliedOps.lookup (trimSpace opts.operationID) = some op) :
    c.checkOperationPreconditions opts fingerprint =
      if op.fingerprint ≠ fingerprint then .error .operationConflict else .ok true := by
  rw [ControlPlane.checkOperationPreconditions, ControlPlane.checkOperation,
    ControlPlane.appliedOperation, if_neg hid, hop]

/-- A submission whose preconditions settle it changes nothing. -/
theorem applyControlMutation_of_settled {n : Node H ρ} (P : Provider H ρ) (m : ControlMutation)
    (save : SaveResult) {conflict : Prop} [Decidable conflict]
    (hcheck : n.plane.checkOperationPreconditions opts fingerprint =
      if conflict then .error .operationConflict else .ok true) :
    (n.applyControlMutation S P m opts fingerprint save).2 = n ∧
      (n.commitErr = none → P.refusal = none →
        (n.applyControlMutation S P m opts fingerprint save).1 =
          if conflict then some .operationConflict else none) := by
  rw [Node.applyControlMutation, hcheck]
  split
  · next hcommit => exact ⟨rfl, fun h => absurd h hcommit⟩
  split
  · next hrefusal => exact ⟨rfl, fun _ h => absurd h hrefusal⟩
  split_ifs <;> exact ⟨rfl, fun _ _ => rfl⟩

end Reused

variable {grow : ℕ → ℕ → ℕ} {clusterID : String} {shardMap : List ShardConfig}
  {ops : List Op} {n₀ n : Node (Arrays ReplicaStatus) SliceRef}

/-- **A reused operation id is refused.** In every reached state, if a
request was applied under an id whose record is still in the window, then
another request that is submitted under this id changes nothing; and a
node that takes proposals answers it with a conflict, unless the two are
transfers with one fingerprint. -/
theorem reused_conflicts (hstart : Node.start (slices grow) nodeID clusterID shardMap = some n₀)
    (hrun : runs (Node.act (slices grow)) n₀ ops = some n)
    (request request' : Request) (h : request.mutation nodeID' = .ok m)
    (h' : request'.mutation n.plane.nodeID = .ok m') (hne : m ≠ m')
    (opts opts' : ControlWriteOptions) (hid : trimSpace opts.operationID ≠ "")
    (hsame : trimSpace opts'.operationID = trimSpace opts.operationID)
    (pre post : List ControlMutation) (hpast : n.plane.past = pre ++ m.under opts :: post)
    (hwindow : (opIDs post).length < maxAppliedControlOps)
    (P : Provider (Arrays ReplicaStatus) SliceRef) (save : SaveResult) :
    ∃ fingerprint, m'.fingerprint = .ok fingerprint ∧
      (n.applyControlMutation (slices grow) P m' opts' fingerprint save).2 = n ∧
      (n.commitErr = none → P.refusal = none →
        ((n.applyControlMutation (slices grow) P m' opts' fingerprint save).1 =
          some .operationConflict ↔ ¬Ambiguous m m')) := by
  obtain ⟨fingerprint, hfp⟩ := exists_fingerprint h'
  have hopID : (m.under opts).opID = some (trimSpace opts'.operationID) := by
    have htrim : trimSpace (m.under opts).operationID = trimSpace opts.operationID :=
      trimSpace_trimSpace _
    rw [opID_eq_some (htrim.symm ▸ hid), htrim, hsame]
  obtain ⟨op, hop, hprint⟩ :=
    (remembers_run hstart hrun).plane.window.recorded pre _ post _ hpast hopID hwindow
  have hprint : m.fingerprint = .ok op.fingerprint := hprint
  obtain ⟨hsame', hanswer⟩ := applyControlMutation_of_settled (S := slices grow) P m' save
    (check_of_recorded (hsame.symm ▸ hid) hop)
  refine ⟨fingerprint, hfp, hsame', fun hcommit hopen => ?_⟩
  have hconflict : op.fingerprint ≠ fingerprint ↔ ¬Ambiguous m m' := by
    rw [← fingerprint_eq_iff h h' hne, hprint, hfp, Except.ok.injEq]
  rw [hanswer hcommit hopen, ← hconflict]
  split_ifs with hprints
  · exact iff_of_true rfl hprints
  · exact iff_of_false (fun hnone => by cases hnone) hprints

/-- Two shards, and the transfer of the first to another node. -/
def colonShards : List ShardConfig := [⟨"a", [], [5], ["n1"], ""⟩, ⟨"a:b", [5], [], ["n1"], ""⟩]

def firstTransfer : Op :=
  .submit ⟨.transferLeader, "a", "b:c", [], "", "", none⟩ ⟨"op", none⟩ (.ok ⟨1, 1⟩) .ok

/-- The id of a transfer is refused for a split. -/
theorem reused_conflicts_split :
    ∃ n₀ n, Node.start (slices fun _ _ => 0) "n1" "c" colonShards = some n₀ ∧
      runs (Node.act (slices fun _ _ => 0)) n₀ [firstTransfer] = some n ∧
      ∃ fingerprint,
        n.applyControlMutation (slices fun _ _ => 0) (Provider.local (.ok ⟨2, 1⟩))
          ⟨.split, "a", "", [1], "", "", none⟩ ⟨"op", none⟩ fingerprint .ok =
            (some .operationConflict, n) := by
  have hrun : ((Node.start (slices fun _ _ => 0) "n1" "c" colonShards).bind fun n₀ =>
      (runs (Node.act (slices fun _ _ => 0)) n₀ [firstTransfer]).map fun n =>
        (n.plane.past, n.commitErr, n.plane.nodeID)) =
      some ([⟨.transferLeader, "a", "b:c", [], "", "op", none⟩], none, "n1") := by decide +kernel
  obtain ⟨n₀, hstart, hrun⟩ := Option.bind_eq_some_iff.mp hrun
  obtain ⟨n, hrun, hn⟩ := Option.map_eq_some_iff.mp hrun
  obtain ⟨hpast, hrest⟩ := Prod.mk.inj hn
  obtain ⟨hcommit, hnode⟩ := Prod.mk.inj hrest
  have hfirst : (Request.transferLeader "a" "b:c").mutation "n1" =
      .ok ⟨.transferLeader, "a", "b:c", [], "", "", none⟩ := by decide +kernel
  have hsecond : (Request.triggerSplit "a" [1]).mutation n.plane.nodeID =
      .ok ⟨.split, "a", "", [1], "", "", none⟩ := by
    rw [hnode]
    decide +kernel
  obtain ⟨fingerprint, -, hsame, hanswer⟩ := reused_conflicts hstart hrun _ _ hfirst hsecond
    (by decide) ⟨"op", none⟩ ⟨"op", none⟩ (by decide +kernel) rfl [] []
    (by rw [hpast]; decide +kernel) (by decide) (Provider.local (.ok ⟨2, 1⟩)) .ok
  exact ⟨n₀, n, hstart, hrun, fingerprint,
    Prod.ext ((hanswer hcommit rfl).mpr (by decide)) hsame⟩

/-- **A colon in a name.** The shard `a` was transferred to the node `b:c`
under an id; who submits the transfer of the shard `a:b` to `c` under the
same id is told that it succeeded, and its leader stays. -/
theorem reused_transfer :
    ((Node.start (slices fun _ _ => 0) "n1" "c" colonShards).bind fun n₀ =>
      (runs (Node.act (slices fun _ _ => 0)) n₀ [firstTransfer]).map fun n =>
        let done := n.applyControlMutation (slices fun _ _ => 0) (Provider.local (.ok ⟨2, 1⟩))
          ⟨.transferLeader, "a:b", "c", [], "", "", none⟩ ⟨"op", none⟩ "transfer:a:b:c" .ok
        (done.1, (done.2.plane.shards.lookup "a:b").map ShardStatus.leader)) =
      some (none, some "n1") := by
  decide +kernel

end LSMEngine.Control
