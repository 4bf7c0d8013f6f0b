import LSMEngine.Control.Steps
/-!
# Control plane — the table of operations

An operation that has been applied is recorded under its id, and its id is
appended to the order. When there are too many, the oldest go from the
order and from the table (`lookup_evict`). So the order always holds the
ids of the table, each once, and at most `maxAppliedControlOps` of them
(`Table.noteOperation`).
-/

namespace LSMEngine.Control

variable {H ρ : Type} {S : ReplicaStore H ρ} {c c' : ControlPlane H ρ} {m : ControlMutation}
  {id fingerprint : String}

/-! ## Fingerprints -/

/-- What begins with no space is not blank. -/
theorem trimSpace_ne_empty {s : String} {a : Char} (hmem : a ∈ s.toList) (ha : isSpace a = false) :
    trimSpace s ≠ "" := by
  intro h
  have hnil : (s.toList.dropWhile isSpace).rdropWhile isSpace = [] := by
    rw [← String.toList_ofList (l := (s.toList.dropWhile isSpace).rdropWhile isSpace)]
    exact congrArg String.toList h
  rw [List.rdropWhile_eq_nil_iff] at hnil
  have hall : s.toList.dropWhile isSpace = [] := by
    by_contra hne
    have hhead := List.head_dropWhile_not isSpace hne
    rw [hnil _ (List.head_mem hne)] at hhead
    cases hhead
  rw [List.dropWhile_eq_nil_iff] at hall
  rw [hall a hmem] at ha
  cases ha

theorem trimSpace_append_ne_empty {s t : String} {a : Char} (hmem : a ∈ s.toList)
    (ha : isSpace a = false) : trimSpace (s ++ t) ≠ "" :=
  trimSpace_ne_empty (by rw [String.toList_append]; exact List.mem_append_left _ hmem) ha

/-- **No fingerprint is blank.** -/
theorem fingerprint_ne_empty (h : m.fingerprint = .ok fingerprint) : trimSpace fingerprint ≠ "" := by
  rw [ControlMutation.fingerprint] at h
  split at h
  · rw [← Except.ok.inj h, String.append_assoc, String.append_assoc]
    exact trimSpace_append_ne_empty (a := 't') (by decide) (by decide)
  · rw [← Except.ok.inj h, String.append_assoc, String.append_assoc]
    exact trimSpace_append_ne_empty (a := 's') (by decide) (by decide)
  · rw [← Except.ok.inj h]
    exact trimSpace_append_ne_empty (a := 'd') (by decide) (by decide)
  · cases h

/-! ## Eviction -/

theorem lookup_foldl_erase (ids : List String) (ops : AList fun _ : String => AppliedOperation) :
    (ids.foldl (fun ops id => ops.erase id) ops).lookup id =
      if id ∈ ids then none else ops.lookup id := by
  induction ids generalizing ops with
  | nil => rfl
  | cons id' ids ih =>
    rw [List.foldl_cons, ih]
    by_cases hid : id = id'
    · rw [hid, AList.lookup_erase, if_pos List.mem_cons_self, ite_self]
    · rw [AList.lookup_erase_ne hid]
      simp only [List.mem_cons, hid, false_or]

theorem overflow_eq_zero (h : c.appliedOrder.length ≤ maxAppliedControlOps) : c.overflow = 0 := by
  rw [ControlPlane.overflow]
  omega

/-- What is left of the table and of the order. -/
theorem lookup_evict (c : ControlPlane H ρ) (id : String) :
    c.evict.appliedOps.lookup id =
      if id ∈ c.appliedOrder.take c.overflow then none else c.appliedOps.lookup id := by
  by_cases h : c.appliedOrder.length ≤ maxAppliedControlOps
  · rw [ControlPlane.evict, if_pos h, overflow_eq_zero h, List.take_zero,
      if_neg List.not_mem_nil]
  · rw [ControlPlane.evict, if_neg h, lookup_foldl_erase]

theorem appliedOrder_evict (c : ControlPlane H ρ) :
    c.evict.appliedOrder = c.appliedOrder.drop c.overflow := by
  by_cases h : c.appliedOrder.length ≤ maxAppliedControlOps
  · rw [ControlPlane.evict, if_pos h, overflow_eq_zero h, List.drop_zero]
  · rw [ControlPlane.evict, if_neg h]

/-- An operation stays if its id does. -/
theorem lookup_evict_of_mem (hnodup : c.appliedOrder.Nodup)
    (hid : id ∈ c.appliedOrder.drop c.overflow) :
    c.evict.appliedOps.lookup id = c.appliedOps.lookup id := by
  rw [lookup_evict, if_neg]
  intro htake
  rw [← List.take_append_drop c.overflow c.appliedOrder] at hnodup
  exact (List.nodup_append.mp hnodup).2.2 id htake id hid rfl

theorem mem_evict (h : Recorded c) : id ∈ c.evict.appliedOps ↔ id ∈ c.appliedOrder.drop c.overflow := by
  constructor
  · intro hid
    rw [← AList.lookup_isSome, lookup_evict] at hid
    split at hid
    · cases hid
    next htake =>
    have hmem := (h.mem_order id).mpr (AList.lookup_isSome.mp hid)
    rw [← List.take_append_drop c.overflow c.appliedOrder] at hmem
    exact (List.mem_append.mp hmem).resolve_left htake
  · intro hid
    rw [← AList.lookup_isSome, lookup_evict_of_mem h.nodup hid, AList.lookup_isSome, ← h.mem_order]
    exact List.mem_of_mem_drop hid

/-- **After eviction the table is in order.** -/
theorem Recorded.evict (h : Recorded c) : Table c.evict := by
  have hlookup : ∀ id op, c.evict.appliedOps.lookup id = some op →
      c.appliedOps.lookup id = some op := by
    intro id op hop
    rw [lookup_evict] at hop
    split at hop
    · cases hop
    · exact hop
  refine ⟨⟨?_, fun id => ?_, fun id op hop => h.named id op (hlookup id op hop), fun id hid => ?_,
    fun id op hop => h.fingerprint id op (hlookup id op hop)⟩, ?_⟩
  · rw [appliedOrder_evict]
    exact h.nodup.sublist (List.drop_sublist _ _)
  · rw [appliedOrder_evict, mem_evict h]
  · exact h.trimmed id ((h.mem_order id).mp (List.mem_of_mem_drop ((mem_evict h).mp hid)))
  · rw [appliedOrder_evict, List.length_drop, ControlPlane.overflow]
    omega

/-! ## Recording -/

/-- The table with an operation more, before eviction. -/
def ControlPlane.record (c : ControlPlane H ρ) (fingerprint id : String) : ControlPlane H ρ :=
  { c with
    appliedOrder := if id ∈ c.appliedOps then c.appliedOrder else c.appliedOrder ++ [id]
    appliedOps := c.appliedOps.insert id ⟨id, fingerprint, c.revision⟩ }

theorem noteOperation_of_ne (c : ControlPlane H ρ) (fingerprint : String) (hid : id ≠ "") :
    c.noteOperation fingerprint id = (c.record fingerprint id).evict := by
  rw [ControlPlane.noteOperation, if_neg hid]
  rfl

theorem noteOperation_empty (c : ControlPlane H ρ) (fingerprint : String) :
    c.noteOperation fingerprint "" = c := by
  rw [ControlPlane.noteOperation, if_pos rfl]

theorem lookup_record (c : ControlPlane H ρ) (fingerprint id id' : String) :
    (c.record fingerprint id).appliedOps.lookup id' =
      if id' = id then some ⟨id, fingerprint, c.revision⟩ else c.appliedOps.lookup id' := by
  show (c.appliedOps.insert id ⟨id, fingerprint, c.revision⟩).lookup id' = _
  by_cases h : id' = id
  · rw [if_pos h, h, AList.lookup_insert]
  · rw [if_neg h, AList.lookup_insert_ne h]

theorem Recorded.record (h : Recorded c) (htrim : trimSpace id = id) (hid : id ≠ "")
    (hfp : trimSpace fingerprint ≠ "") : Recorded (c.record fingerprint id) := by
  have hmem : ∀ id', id' ∈ (c.record fingerprint id).appliedOps ↔ id' = id ∨ id' ∈ c.appliedOps :=
    fun id' => AList.mem_insert c.appliedOps
  have hop : ∀ id' op, (c.record fingerprint id).appliedOps.lookup id' = some op →
      op = ⟨id, fingerprint, c.revision⟩ ∧ id' = id ∨ c.appliedOps.lookup id' = some op := by
    intro id' op hop
    rw [lookup_record] at hop
    split at hop
    · next heq => exact Or.inl ⟨(Option.some.inj hop).symm, heq⟩
    · exact Or.inr hop
  refine ⟨?_, fun id' => ?_, fun id' op h' => ?_, fun id' hid' => ?_, fun id' op h' => ?_⟩
  · rw [ControlPlane.record]
    split
    · exact h.nodup
    · next hnew =>
      refine List.nodup_append.mpr ⟨h.nodup, List.nodup_singleton id, fun a ha b hb heq => ?_⟩
      rw [List.mem_singleton] at hb
      exact hnew ((h.mem_order id).mp (hb ▸ heq ▸ ha))
  · rw [hmem, ← h.mem_order id', ControlPlane.record]
    split
    · next hold =>
      rw [← h.mem_order] at hold
      exact ⟨Or.inr, fun hc => hc.elim (fun heq => heq ▸ hold) fun hc => hc⟩
    · rw [List.mem_append, List.mem_singleton, or_comm]
  · rcases hop id' op h' with ⟨rfl, rfl⟩ | h'
    · rfl
    · exact h.named id' op h'
  · rcases (hmem id').mp hid' with rfl | hid'
    · exact ⟨htrim, hid⟩
    · exact h.trimmed id' hid'
  · rcases hop id' op h' with ⟨rfl, rfl⟩ | h'
    · exact hfp
    · exact h.fingerprint id' op h'

/-- **Recording an operation keeps the table in order.** -/
theorem Table.noteOperation (h : Table c) (htrim : trimSpace id = id)
    (hfp : trimSpace fingerprint ≠ "") : Table (c.noteOperation fingerprint id) := by
  by_cases hid : id = ""
  · rw [hid, noteOperation_empty]
    exact h
  · rw [noteOperation_of_ne c fingerprint hid]
    exact (h.toRecorded.record htrim hid hfp).evict

theorem Table.congr (h : Table c) (hops : c'.appliedOps = c.appliedOps)
    (horder : c'.appliedOrder = c.appliedOrder) : Table c' := by
  refine ⟨⟨horder ▸ h.nodup, ?_, ?_, ?_, ?_⟩, horder ▸ h.bounded⟩
  · rw [hops, horder]
    exact h.mem_order
  · rw [hops]
    exact h.named
  · rw [hops]
    exact h.trimmed
  · rw [hops]
    exact h.fingerprint

/-- **A mutation that is carried out keeps the table in order.** -/
theorem Mutates.table (h : Mutates S c m c') (ht : Table c) : Table c' := by
  obtain ⟨fingerprint, c₁, hfp, -, hpayload, rfl⟩ := h
  have hu := untouched_of_payload hpayload
  have ht₁ : Table { c₁ with revision := c₁.revision + 1, past := c₁.past ++ [m] } :=
    ht.congr hu.appliedOps hu.appliedOrder
  exact ht₁.noteOperation (trimSpace_trimSpace _) (fingerprint_ne_empty hfp)

theorem table_observe (h : Table c) (index : ℕ) : Table (c.observe index) := by
  rw [ControlPlane.observe]
  split
  · exact h.congr rfl rfl
  · exact h

end LSMEngine.Control
