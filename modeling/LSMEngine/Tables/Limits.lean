import LSMEngine.Tables.Model.Compaction
/-!
# Tables — the levels the planner sees

`StrictLevelledPlanner.Next` looks at the levels in the order of their
numbers and stops at the first number no level has. A level behind such
a gap may hold any number of bytes: the planner never compares it with
its target. That is the only way a level is missed. The targets
themselves are computed in 64 bits, but one that wraps belongs to a
level whose exact target no 64-bit size can exceed.
-/

namespace LSMEngine.Tables

/-! ## Targets and sizes -/

/-- The factor between the targets of two levels: ten unless a positive
one is configured. -/
def StrictLevelledPlanner.multiplier (p : StrictLevelledPlanner) : ℤ :=
  if p.levelMultiplier ≤ 0 then 10 else p.levelMultiplier

/-- The target of a level past the first, in unbounded integers. -/
def StrictLevelledPlanner.target (p : StrictLevelledPlanner) (level : ℕ) : ℕ :=
  p.levelBaseBytes.toNat * p.multiplier.toNat ^ (level - 1)

/-- The bytes of a level, in unbounded integers. -/
def Level.size (l : Level) : ℕ := (l.tables.map fun t => t.sizeBytes.toNat).sum

/-- No level's size overflows. -/
def SizesFit (levels : List Level) : Prop := ∀ l ∈ levels, l.size < 2 ^ 64

/-- A level is overfull: level 0 with as many tables as the threshold, if
there is one, and a level past it, if levels have targets, with more
bytes than its own. -/
def Overfull (p : StrictLevelledPlanner) (l : Level) : Prop :=
  (l.level = 0 ∧ 0 < p.l0FileThreshold ∧ p.l0FileThreshold ≤ l.tables.length) ∨
    (1 ≤ l.level ∧ p.levelBaseBytes ≠ 0 ∧ p.target l.level < l.size)

/-- Level 0 has reached its threshold. -/
def FilesDue (p : StrictLevelledPlanner) (levels : List Level) : Prop :=
  ∃ l, levelByID levels 0 = some l ∧ 0 < p.l0FileThreshold ∧ p.l0FileThreshold ≤ l.tables.length

/-- A level is larger than what is left of its target in 64 bits, which
is not nothing. -/
def BytesDue (p : StrictLevelledPlanner) (levels : List Level) (level : ℕ) : Prop :=
  ∃ l, levelByID levels level = some l ∧ p.target level % 2 ^ 64 ≠ 0 ∧
    p.target level % 2 ^ 64 < l.size

/-- No number is missing from one level to another. -/
def Unbroken (levels : List Level) (low high : ℕ) : Prop :=
  ∀ i, low ≤ i → i ≤ high → levelByID levels i ≠ none

/-- The scan from level 1 on gets to the level. -/
def Seen (levels : List Level) (l : Level) : Prop :=
  levelByID levels l.level = some l ∧ Unbroken levels 1 l.level

variable {p : StrictLevelledPlanner} {levels : List Level}

theorem foldl_mul_toNat (f : UInt64) (n : ℕ) (base : UInt64) :
    ((List.range n).foldl (fun target _ => target * f) base).toNat =
      base.toNat * f.toNat ^ n % 2 ^ 64 := by
  induction n with
  | zero => simp [Nat.mod_eq_of_lt base.toNat_lt]
  | succ n ih =>
    rw [List.range_succ, List.foldl_append, List.foldl_cons, List.foldl_nil, UInt64.toNat_mul, ih,
      Nat.mod_mul_mod, mul_assoc, ← pow_succ]

/-- **The computed target** is the exact one in 64 bits. -/
theorem toNat_levelTargetBytes (hbase : p.levelBaseBytes ≠ 0) {level : ℕ} (hlevel : 1 ≤ level) :
    (levelTargetBytes p.levelBaseBytes p.multiplier level).toNat = p.target level % 2 ^ 64 := by
  have hzero : ¬ (p.levelBaseBytes = 0 ∨ level = 0) := by
    rintro (h | h)
    · exact hbase h
    · omega
  rw [levelTargetBytes, if_neg hzero, foldl_mul_toNat, StrictLevelledPlanner.target,
    UInt64.toNat_ofNat', Nat.mul_mod, Nat.pow_mod, Nat.mod_mod, ← Nat.pow_mod, ← Nat.mul_mod]

theorem foldl_sizeBytes_toNat (ts : List TableMeta) (total : UInt64)
    (h : total.toNat + (ts.map fun t => t.sizeBytes.toNat).sum < 2 ^ 64) :
    (ts.foldl (fun total t => total + t.sizeBytes) total).toNat =
      total.toNat + (ts.map fun t => t.sizeBytes.toNat).sum := by
  induction ts generalizing total with
  | nil => simp
  | cons t ts ih =>
    rw [List.map_cons, List.sum_cons] at h ⊢
    have hadd : (total + t.sizeBytes).toNat = total.toNat + t.sizeBytes.toNat := by
      rw [UInt64.toNat_add, Nat.mod_eq_of_lt (by omega)]
    rw [List.foldl_cons, ih (total + t.sizeBytes) (by omega), hadd]
    omega

theorem toNat_levelSizeBytes {l : Level} (h : l.size < 2 ^ 64) :
    (levelSizeBytes l.tables).toNat = l.size := by
  have hsum := foldl_sizeBytes_toNat l.tables 0 (by simpa [Level.size] using h)
  simpa [levelSizeBytes, Level.size] using hsum

theorem one_le_multiplier (p : StrictLevelledPlanner) : 1 ≤ p.multiplier.toNat := by
  unfold StrictLevelledPlanner.multiplier
  split <;> omega

theorem target_pos (hbase : p.levelBaseBytes ≠ 0) (level : ℕ) : 0 < p.target level := by
  have hb : p.levelBaseBytes.toNat ≠ 0 := fun h => hbase (UInt64.toNat_inj.mp h)
  exact Nat.mul_pos (by omega) (Nat.pow_pos (one_le_multiplier p))

/-! ## The scan -/

theorem unbroken_self {level : ℕ} (h : levelByID levels level ≠ none) :
    Unbroken levels level level := by
  intro i hlow hhigh
  rwa [show i = level by omega]

theorem Unbroken.cons {level k : ℕ} (h : levelByID levels level ≠ none)
    (hun : Unbroken levels (level + 1) k) : Unbroken levels level k := by
  intro i hlow hhigh
  rcases Nat.eq_or_lt_of_le hlow with rfl | hlt
  · exact h
  · exact hun i hlt hhigh

/-- From a level that is there, the scan sees it and what it sees from
the next number on. -/
theorem forall_unbroken_succ (level : ℕ) (h : levelByID levels level ≠ none) {P : ℕ → Prop} :
    (∀ k, level ≤ k → Unbroken levels level k → P k) ↔
      P level ∧ ∀ k, level + 1 ≤ k → Unbroken levels (level + 1) k → P k := by
  constructor
  · intro hall
    exact ⟨hall level (Nat.le_refl _) (unbroken_self h),
      fun k hk hun => hall k (by omega) (hun.cons h)⟩
  · rintro ⟨hlevel, hrest⟩ k hk hun
    rcases Nat.eq_or_lt_of_le hk with rfl | hlt
    · exact hlevel
    · exact hrest k hlt fun i hlow hhigh => hun i (by omega) hhigh

/-- The comparison the loop makes of a level it finds. -/
theorem bytesDue_iff (hbase : p.levelBaseBytes ≠ 0) (hfit : SizesFit levels) {level : ℕ}
    (hlevel : 1 ≤ level) {l : Level} (hl : levelByID levels level = some l) :
    BytesDue p levels level ↔ levelTargetBytes p.levelBaseBytes p.multiplier level ≠ 0 ∧
      levelTargetBytes p.levelBaseBytes p.multiplier level < levelSizeBytes l.tables := by
  have hsize := toNat_levelSizeBytes (hfit l (levelByID_level hl).1)
  have htarget := toNat_levelTargetBytes (p := p) hbase hlevel
  rw [UInt64.lt_iff_toNat_lt, ne_eq, ← UInt64.toNat_inj, htarget, hsize, BytesDue]
  simp [hl]

/-- **The scan finds nothing** exactly when no level it gets to is due. -/
theorem nextLevel_eq_none_iff (hbase : p.levelBaseBytes ≠ 0) (hfit : SizesFit levels) {level : ℕ}
    (hlevel : 1 ≤ level) : nextLevel p levels level = none ↔
      ∀ k, level ≤ k → Unbroken levels level k → ¬ BytesDue p levels k := by
  fun_induction nextLevel p levels level with
  | case1 level hnone =>
    exact ⟨fun _ k hk hun => absurd hnone (hun level (Nat.le_refl _) hk), fun _ => rfl⟩
  | case2 level l hl multiplier limit hlimit ih =>
    have hnot : ¬ BytesDue p levels level := by
      rw [bytesDue_iff hbase hfit hlevel hl]
      exact fun h => h.1 hlimit
    rw [ih (by omega), forall_unbroken_succ level (by simp [hl]), and_iff_right hnot]
  | case3 level l hl multiplier limit hlimit hsize =>
    have hdue : BytesDue p levels level := (bytesDue_iff hbase hfit hlevel hl).mpr ⟨hlimit, hsize⟩
    rw [forall_unbroken_succ level (by simp [hl])]
    simp [hdue]
  | case4 level l hl multiplier limit hlimit hsize ih =>
    have hnot : ¬ BytesDue p levels level := by
      rw [bytesDue_iff hbase hfit hlevel hl]
      exact fun h => hsize h.2
    rw [ih (by omega), forall_unbroken_succ level (by simp [hl]), and_iff_right hnot]

/-- **There is no plan** exactly when neither level 0 nor a level the
scan gets to is due. -/
theorem next_eq_none_iff (hfit : SizesFit levels) : p.next levels = none ↔
    ¬ FilesDue p levels ∧
      (p.levelBaseBytes ≠ 0 → ∀ k, 1 ≤ k → Unbroken levels 1 k → ¬ BytesDue p levels k) := by
  have hscan : (if p.levelBaseBytes = 0 then none else nextLevel p levels 1) = none ↔
      (p.levelBaseBytes ≠ 0 → ∀ k, 1 ≤ k → Unbroken levels 1 k → ¬ BytesDue p levels k) := by
    by_cases hbase : p.levelBaseBytes = 0
    · simp [hbase]
    · rw [if_neg hbase, nextLevel_eq_none_iff hbase hfit (Nat.le_refl 1)]
      exact ⟨fun h _ => h, fun h => h hbase⟩
  unfold StrictLevelledPlanner.next
  cases hl : levelByID levels 0 with
  | none =>
    have hnot : ¬ FilesDue p levels := fun ⟨l, hl', _⟩ => by simp [hl] at hl'
    exact hscan.trans (and_iff_right hnot).symm
  | some l0 =>
    have hdue : FilesDue p levels ↔
        0 < p.l0FileThreshold ∧ p.l0FileThreshold ≤ l0.tables.length := by
      simp [FilesDue, hl]
    by_cases hthr : 0 < p.l0FileThreshold ∧ p.l0FileThreshold ≤ l0.tables.length
    · simp [hthr, hdue]
    · rw [hdue]
      simp only [if_neg hthr]
      exact hscan.trans (and_iff_right hthr).symm

/-! ## What is overlooked -/

/-- A level larger than its exact target is due where the scan can see
it: its target has not wrapped. -/
theorem bytesDue_of_target_lt (hbase : p.levelBaseBytes ≠ 0) (hfit : SizesFit levels) {l : Level}
    (hl : levelByID levels l.level = some l) (hover : p.target l.level < l.size) :
    BytesDue p levels l.level := by
  have hlt := hfit l (levelByID_level hl).1
  have hpos := target_pos hbase l.level
  refine ⟨l, hl, ?_, ?_⟩ <;> rw [Nat.mod_eq_of_lt (by omega)] <;> omega

/-- An overfull level the scan gets to makes a plan. -/
theorem due_of_seen (hfit : SizesFit levels) {l : Level} (hover : Overfull p l)
    (hseen : Seen levels l) : FilesDue p levels ∨
      (p.levelBaseBytes ≠ 0 ∧ ∃ k, 1 ≤ k ∧ Unbroken levels 1 k ∧ BytesDue p levels k) := by
  obtain ⟨hl, hun⟩ := hseen
  rcases hover with ⟨hzero, hthr, hlen⟩ | ⟨hlevel, hbase, hlt⟩
  · exact .inl ⟨l, by rwa [hzero] at hl, hthr, hlen⟩
  · exact .inr ⟨hbase, l.level, hlevel, hun, bytesDue_of_target_lt hbase hfit hl hlt⟩

/-- **The planner overlooks an overfull level exactly behind a gap.** It
returns no plan only where nothing is overfull, if and only if every
overfull level can be seen from level 1, or something else is due. -/
theorem not_overfull_of_next_eq_none_iff (p : StrictLevelledPlanner) (levels : List Level)
    (hfit : SizesFit levels) :
    (p.next levels = none → ∀ l ∈ levels, ¬ Overfull p l) ↔
      ((∀ l ∈ levels, Overfull p l → Seen levels l) ∨ FilesDue p levels ∨
        (p.levelBaseBytes ≠ 0 ∧ ∃ k, 1 ≤ k ∧ Unbroken levels 1 k ∧ BytesDue p levels k)) := by
  rw [next_eq_none_iff hfit]
  constructor
  · intro h
    by_cases hfiles : FilesDue p levels
    · exact .inr (.inl hfiles)
    by_cases hbytes : p.levelBaseBytes ≠ 0 ∧ ∃ k, 1 ≤ k ∧ Unbroken levels 1 k ∧ BytesDue p levels k
    · exact .inr (.inr hbytes)
    refine .inl fun l hl hover => absurd hover (h ⟨hfiles, ?_⟩ l hl)
    intro hbase k hk hun hdue
    exact hbytes ⟨hbase, k, hk, hun, hdue⟩
  · rintro h ⟨hfiles, hbytes⟩ l hl hover
    have hdue : FilesDue p levels ∨
        (p.levelBaseBytes ≠ 0 ∧ ∃ k, 1 ≤ k ∧ Unbroken levels 1 k ∧ BytesDue p levels k) := by
      rcases h with hseen | hdue
      · exact due_of_seen hfit hover (hseen l hl hover)
      · exact hdue
    rcases hdue with hdue | ⟨hbase, k, hk, hun, hdue⟩
    · exact hfiles hdue
    · exact hbytes hbase k hk hun hdue

/-- Level 1 may hold ten bytes, level 2 a hundred. -/
def tenfold : StrictLevelledPlanner := ⟨4, 10, 10⟩

/-- A table of 101 bytes. -/
def tableOf101 (level : ℕ) : TableMeta := ⟨"sstable-7-1.sst", level, [97], [122], 1, 7, 101⟩

/-- An overfull level 1, where the scan begins. -/
theorem next_levelOne : SizesFit [⟨1, [tableOf101 1]⟩] ∧
    (tenfold.next [⟨1, [tableOf101 1]⟩] = none →
      ∀ l ∈ [(⟨1, [tableOf101 1]⟩ : Level)], ¬ Overfull tenfold l) := by
  have hfit : SizesFit [⟨1, [tableOf101 1]⟩] := by
    intro l hl
    rw [List.mem_singleton.mp hl]
    decide
  refine ⟨hfit, (not_overfull_of_next_eq_none_iff tenfold _ hfit).mpr (.inl fun l hl _ => ?_)⟩
  rw [List.mem_singleton.mp hl]
  refine ⟨rfl, fun i hlow hhigh => ?_⟩
  rw [show i = 1 from Nat.le_antisymm hhigh hlow]
  exact Option.some_ne_none _

/-- **A level behind a gap is never compacted**: level 2 holds 101 bytes
and may hold 100, but there is no level 1 and the scan ends there. -/
theorem next_levelTwo_alone : SizesFit (stateFromMetas [tableOf101 2]) ∧
    tenfold.next (stateFromMetas [tableOf101 2]) = none ∧
    ∃ l ∈ stateFromMetas [tableOf101 2], Overfull tenfold l := by
  have hfit : SizesFit (stateFromMetas [tableOf101 2]) := by
    intro l hl
    rw [show l = ⟨2, [tableOf101 2]⟩ from List.mem_singleton.mp hl]
    decide
  refine ⟨hfit, ?_, _, List.mem_singleton.mpr rfl, .inr (by decide)⟩
  rw [next_eq_none_iff hfit]
  refine ⟨?_, fun _ k hk hun => absurd ?_ (hun 1 (Nat.le_refl _) hk)⟩
  · rintro ⟨l, hl, -⟩
    cases hl
  · rfl

end LSMEngine.Tables
