import LSMEngine.Common.Merge
import LSMEngine.Tables.Model.Set
/-!
# Tables — planning and running a compaction

`StrictLevelledPlanner` takes the whole of a level that has grown past
its limit, with the tables of the next level whose key range overlaps
one of its tables. `SimpleRunner` merges them into one table of the next
level that keeps the newest version of each key, and `Coordinator.Step`
puts that table into the set in place of its inputs.
-/

namespace LSMEngine.Tables

/-! ## The planner -/

/-- `compaction.Level`. -/
structure Level where
  level : ℕ
  tables : List TableMeta

/-- `StateFromMetas`: the tables by level, levels ascending. -/
def stateFromMetas (metas : List TableMeta) : List Level :=
  ((metas.map TableMeta.level).dedup.insertionSort (· ≤ ·)).map fun l =>
    ⟨l, metas.filter fun m => m.level = l⟩

/-- `levelByID`. -/
def levelByID (levels : List Level) (id : ℕ) : Option Level :=
  levels.find? fun l => l.level = id

/-- `rangesOverlap`. -/
def rangesOverlap (aMin aMax bMin bMax : Bytes) : Bool :=
  if aMin.length = 0 ∨ aMax.length = 0 ∨ bMin.length = 0 ∨ bMax.length = 0 then true
  else if aMax < bMin then false
  else if bMax < aMin then false
  else true

/-- `overlapTables`. -/
def overlapTables (level : Option Level) (inputs : List TableMeta) : List TableMeta :=
  match level with
  | none => []
  | some l =>
    l.tables.filter fun t =>
      inputs.any fun i => rangesOverlap i.minKey i.maxKey t.minKey t.maxKey

/-- `dedupe`, past the paths seen. -/
def dedupeFrom (seen : List String) : List TableMeta → List TableMeta
  | [] => []
  | m :: ms =>
    if m.path ∈ seen then dedupeFrom seen ms
    else m :: dedupeFrom (m.path :: seen) ms

/-- `dedupe`. -/
def dedupe (metas : List TableMeta) : List TableMeta := dedupeFrom [] metas

/-- `levelSizeBytes`. -/
def levelSizeBytes (tables : List TableMeta) : UInt64 :=
  tables.foldl (fun total t => total + t.sizeBytes) 0

/-- `levelTargetBytes`. -/
def levelTargetBytes (base : UInt64) (multiplier : ℤ) (level : ℕ) : UInt64 :=
  if base = 0 ∨ level = 0 then 0
  else (List.range (level - 1)).foldl (fun target _ => target * UInt64.ofNat multiplier.toNat) base

/-- `compaction.Plan`. -/
structure Plan where
  inputs : List TableMeta
  outputLevel : ℕ
  reason : String
  deriving DecidableEq

/-- `StrictLevelledPlanner`. -/
structure StrictLevelledPlanner where
  l0FileThreshold : ℤ
  levelBaseBytes : UInt64
  levelMultiplier : ℤ

/-- The plan for a level: all of it, and what it overlaps in the next. -/
def planLevel (levels : List Level) (l : Level) (reason : String) : Plan where
  inputs := dedupe (l.tables ++ overlapTables (levelByID levels (l.level + 1)) l.tables)
  outputLevel := l.level + 1
  reason := reason

theorem levelByID_level {levels : List Level} {id : ℕ} {l : Level}
    (h : levelByID levels id = some l) : l ∈ levels ∧ l.level = id :=
  ⟨List.mem_of_find?_eq_some h, by simpa using List.find?_some h⟩

theorem length_filter_level_lt {levels : List Level} {id : ℕ} {l : Level}
    (h : levelByID levels id = some l) :
    (levels.filter fun l => id + 1 ≤ l.level).length <
      (levels.filter fun l => id ≤ l.level).length := by
  obtain ⟨hmem, hid⟩ := levelByID_level h
  have hsub : (levels.filter fun l => id + 1 ≤ l.level) =
      (levels.filter fun l => id ≤ l.level).filter fun l => id + 1 ≤ l.level := by
    rw [List.filter_filter]
    refine List.filter_congr fun x _ => ?_
    simp only [← Bool.decide_and, decide_eq_decide]
    omega
  rw [hsub, List.length_filter_lt_length_iff_exists]
  refine ⟨l, List.mem_filter.mpr ⟨hmem, ?_⟩, ?_⟩
  · simp [hid]
  · simp [hid]

/-- The loop of `Next` over the levels past the first, from a level
on. -/
def nextLevel (p : StrictLevelledPlanner) (levels : List Level) (level : ℕ) : Option Plan :=
  match h : levelByID levels level with
  | none => none
  | some l =>
    let multiplier := if p.levelMultiplier ≤ 0 then 10 else p.levelMultiplier
    let limit := levelTargetBytes p.levelBaseBytes multiplier level
    if limit = 0 then nextLevel p levels (level + 1)
    else if limit < levelSizeBytes l.tables then some (planLevel levels l "level size exceeded")
    else nextLevel p levels (level + 1)
termination_by (levels.filter fun l => level ≤ l.level).length
decreasing_by all_goals exact length_filter_level_lt h

/-- `StrictLevelledPlanner.Next`. -/
def StrictLevelledPlanner.next (p : StrictLevelledPlanner) (levels : List Level) : Option Plan :=
  match levelByID levels 0 with
  | some l0 =>
    if 0 < p.l0FileThreshold ∧ p.l0FileThreshold ≤ l0.tables.length then
      some (planLevel levels l0 "l0 file threshold exceeded")
    else if p.levelBaseBytes = 0 then none
    else nextLevel p levels 1
  | none =>
    if p.levelBaseBytes = 0 then none
    else nextLevel p levels 1

/-! ## The runner -/

/-- `mergeHeap.Less`, as the order of the queue. -/
def mergeLe (c d : Cursor Entry) : Prop := EntryLe c.head d.head

instance : DecidableRel mergeLe := fun c d => inferInstanceAs (Decidable (EntryLe c.head d.head))

/-- The entry of a group the merge keeps. -/
def bestOf (best : Entry) (group : List Entry) : Entry :=
  group.foldl (fun best e =>
    if best.seq < e.seq then e
    else if e.seq = best.seq ∧ e.tombstone ∧ ¬ best.tombstone then e
    else best) best

/-- What a group adds to the output. -/
def mergeOne (dropTombstones : Bool) : List (Cursor Entry) → Option Entry
  | [] => none
  | c :: group =>
    let best := bestOf c.head (group.map Cursor.head)
    if best.tombstone ∧ dropTombstones then none else some best

/-- `mergeEntries`. -/
def mergeEntries (its : List (List Entry)) (dropTombstones : Bool) : List Entry :=
  (mergeGroups Entry.key mergeLe true (mergeQueue mergeLe its)).filterMap
    (mergeOne dropTombstones)

/-- `compaction.Result`. -/
structure Result where
  output : List SSTable
  obsolete : List TableMeta
  outputLevel : ℕ

/-- `SimpleRunner.Run` at a time. -/
def run (fileSize : List Entry → UInt64) (dropTombstones : Bool) (now : ℕ) (p : Plan)
    (inputs : List SSTable) : Except String Result :=
  if p.inputs = [] then .ok ⟨[], [], 0⟩
  else if inputs = [] then .error "compaction runner: input tables required"
  else
    let sorted := inputs.insertionSort fun a b => b.seq ≤ a.seq
    let entries := mergeEntries (sorted.map fun t => t.range [] []) dropTombstones
    if entries = [] then .ok ⟨[], p.inputs, p.outputLevel⟩
    else (flush fileSize now entries).map fun out => ⟨[out], p.inputs, p.outputLevel⟩

/-! ## The coordinator -/

/-- `applyFromEditor`: the edit a result is applied as. -/
def Result.edit (r : Result) : Edit where
  add := r.output.map fun t => Table.of t r.outputLevel
  removePath := r.obsolete.map TableMeta.path

/-- `Coordinator.Step` on the tables as they are: whether it compacted,
and the set it leaves. -/
def step (fileSize : List Entry → UInt64) (p : StrictLevelledPlanner) (dropTombstones : Bool)
    (now : ℕ) (s : TableSet) : Except String (Bool × TableSet) :=
  match p.next (stateFromMetas s.snapshot) with
  | none => .ok (false, s)
  | some plan => do
    let inputs ← s.resolve plan.inputs
    let result ← run fileSize dropTombstones now plan inputs
    .ok (true, (s.apply result.edit).1)

end LSMEngine.Tables
