import LSMEngine.Format.Model.Reader
/-!
# Format — range scans

`RangeIterator`: a machine over the partitions of the index, the blocks
of a partition and a cursor in a block. The first block is searched for
the start of the range once; the scan ends with the first entry that is
not below the end of the range, with the last partition, or with a
failure the corruption policy does not skip. After a block is read, the
blocks behind it are prefetched into the cache; where that is done in
the background, only the choice of the blocks is part of the step.

One `body` is one round of the loop of `Next`. A round ends by going
around again, with an entry, or with the end of the scan.
-/

namespace LSMEngine.Format

/-! ## Prefetch -/

/-- `cache.Get` for its answer alone. -/
def isCached (offset : UInt64) : Read Bool :=
  .mk fun s =>
    match s.blocks with
    | none => (.ok false, s)
    | some c => (.ok (c.get offset).1.isSome, { s with blocks := some (c.get offset).2 })

namespace Reader

variable (P : Platform) (src : Source) (r : Reader)

/-- `prefetchEntryCandidate`. -/
def prefetchEntryCandidate (e : IndexEntry) : Read Bool :=
  if e.length = 0 then return false
  else if 0 < r.readBlockMaxBytes ∧ r.readBlockMaxBytes < e.length.toNat then return false
  else return !(← isCached e.offset)

/-- Whether the budget of `prefetchTargets` is used up ahead of an entry. -/
def isSpent (budget : PrefetchBudget) (taken : ℕ) (remainingBytes : ℤ) (e : IndexEntry) : Bool :=
  (0 < budget.blocks ∧ budget.blocks ≤ taken) ∨
    (0 < budget.bytes ∧ 0 < taken ∧ (remainingBytes ≤ 0 ∨ remainingBytes < e.length.toNat))

/-- The loop of `prefetchTargets` over the entries behind the block. -/
def prefetchTargetsLoop (budget : PrefetchBudget) :
    ℕ → ℤ → List IndexEntry → Read (List IndexEntry)
  | _, _, [] => return []
  | taken, remainingBytes, e :: es => do
    if ← r.prefetchEntryCandidate e then
      if isSpent budget taken remainingBytes e then return []
      else
        let targets ← prefetchTargetsLoop budget (taken + 1)
          (if 0 < budget.bytes then remainingBytes - e.length.toNat else remainingBytes) es
        return e :: targets
    else prefetchTargetsLoop budget taken remainingBytes es

/-- `prefetchTargets`: room for as many entries as the budget has blocks
is made first, 40 bytes for each. -/
def prefetchTargets (budget : PrefetchBudget) (entries : List IndexEntry) (start : ℕ) :
    Read (List IndexEntry) :=
  if entries = [] then return []
  else if canMake 40 budget.blocks then
    r.prefetchTargetsLoop budget 0 budget.bytes (entries.drop (start + 1))
  else throw .panic

/-- `prefetchEntry`. -/
def prefetchEntry (e : IndexEntry) : Read Unit :=
  if e.length = 0 then return
  else do
    if ← isCached e.offset then return
    else
      let _ ← Prog.attempt isPanic (fetchBlock P src e)

/-- The loop of `Prefetch` over its targets. -/
def prefetchEntries : List IndexEntry → Read Unit
  | [] => return
  | e :: es => do
    prefetchEntry P src e
    prefetchEntries es

/-- Whether the reader has a block cache. -/
def hasCache : Read Bool := .mk fun s => (.ok s.blocks.isSome, s)

/-- `Prefetch` behind a block. -/
def prefetch (entries : List IndexEntry) (start : ℕ) : Read Unit :=
  match r.prefetchBudget with
  | none => return
  | some budget => do
    if !(← hasCache) then return
    else
      let targets ← r.prefetchTargets budget entries start
      if r.prefetchAsync then return
      else prefetchEntries P src targets

end Reader

/-! ## The plan of a scan -/

/-- `IndexRangePlan`. -/
structure Plan where
  topIndexI : ℕ
  done : Bool
  started : Bool
  deriving DecidableEq, Repr

namespace Reader

variable (P : Platform) (src : Source) (r : Reader)

/-- The loop of `IndexRangePlan.Next` over the partitions still to come. -/
def planLoop : List IndexEntry → Plan → Read (Except Fault (List IndexEntry) × Plan)
  | [], p => return (.error .eof, { p with done := true })
  | e :: rest, p => do
    let p := { p with topIndexI := p.topIndexI + 1 }
    match ← Prog.attempt isPanic (fetchIndex P src e) with
    | .error f => return (.error f, p)
    | .ok [] => planLoop rest p
    | .ok part => return (.ok part, p)

/-- The first partition of a scan. -/
def startPlan (start : Bytes) (p : Plan) : Plan :=
  if p.started then p
  else
    { p with
      started := true
      topIndexI :=
        if r.partitioned ∧ 0 < start.length then (findBlock r.top start).getD 0
        else p.topIndexI }

/-- `IndexRangePlan.Next`. -/
def planNext (start : Bytes) (p : Plan) : Read (Except Fault (List IndexEntry) × Plan) :=
  if p.done then return (.error .eof, p)
  else if r.partitioned then
    planLoop P src (r.top.drop (r.startPlan start p).topIndexI) (r.startPlan start p)
  else if r.top = [] then return (.error .eof, { r.startPlan start p with done := true })
  else return (.ok r.top, { r.startPlan start p with done := true })

end Reader

/-! ## The iterator -/

/-- `RangeIterator`. -/
structure RangeIterator where
  start : Bytes
  stop : Bytes
  block : Option Block
  blockI : ℕ
  partIndex : List IndexEntry
  plan : Plan
  cursor : Option Cursor
  pending : Option EntryView
  startApplied : Bool
  curr : Option EntryView
  err : Option Fault
  deriving DecidableEq, Repr

/-- How a round of the loop of `Next` ends. -/
inductive Round
  | again (it : RangeIterator)
  | found (it : RangeIterator)
  | ended (it : RangeIterator)
  deriving DecidableEq, Repr

/-- `Reader.Range`. -/
def range (start stop : Bytes) : RangeIterator where
  start := start
  stop := stop
  block := none
  blockI := 0
  partIndex := []
  plan := ⟨0, false, false⟩
  cursor := none
  pending := none
  startApplied := false
  curr := none
  err := none

/-- Whether a key is behind the range. -/
def RangeIterator.isBehind (it : RangeIterator) (key : Bytes) : Bool :=
  0 < it.stop.length ∧ it.stop ≤ key

/-- `it.reader.dropped = true`. -/
def dropTable : Read Unit := .mk fun s => (.ok (), { s with dropped := true })

/-- `it.reader.dropped`. -/
def isDropped : Read Bool := .mk fun s => (.ok s.dropped, s)

namespace Reader

variable (P : Platform) (src : Source) (r : Reader)

/-- `handleCorruption`, and the end of the round it leads to. -/
def handleCorruption (it : RangeIterator) (err : Fault) : Read Round :=
  match r.corruptionPolicy with
  | .skipBlock =>
    return .again { it with block := none, cursor := none, pending := none, blockI := it.blockI + 1 }
  | .dropTable => do
    dropTable
    return .ended it
  | _ => return .ended { it with err := some err }

/-- The loop of `loadPartition`, with `handleIndexCorruption`. A failed
partition is behind the plan, so there are no more rounds than
partitions. -/
def loadPartition : ℕ → RangeIterator → Read (Bool × RangeIterator)
  | 0, it => return (false, it)
  | fuel + 1, it => do
    let (res, plan) ← r.planNext P src it.start it.plan
    let it := { it with plan := plan }
    match res with
    | .error .eof => return (false, it)
    | .error err =>
      match r.corruptionPolicy with
      | .skipBlock =>
        loadPartition fuel
          { it with partIndex := [], block := none, cursor := none, pending := none }
      | .dropTable => do
        dropTable
        return (false, it)
      | _ => return (false, { it with err := some err })
    | .ok part =>
      return (true,
        { it with
          partIndex := part
          blockI :=
            if !it.startApplied && 0 < it.start.length then (findBlock part it.start).getD 0
            else 0 })

/-- The end of a round, from the pending entry on. -/
def advance (it : RangeIterator) (blk : Block) (c : Cursor) : Read Round :=
  match it.pending with
  | some entry => return .found { it with pending := none, curr := some entry }
  | none =>
    match c.next blk.data with
    | .error .panic => throw .panic
    | .error err => r.handleCorruption it err
    | .ok none =>
      return .again { it with block := none, blockI := it.blockI + 1, cursor := none }
    | .ok (some (entry, c)) =>
      if it.isBehind entry.key then return .ended { it with cursor := some c }
      else return .found { it with cursor := some c, curr := some entry }

/-- The middle of a round: a cursor, at the start of the range or of the
block. -/
def position (it : RangeIterator) (blk : Block) : Read Round :=
  match it.cursor with
  | some c => r.advance it blk c
  | none =>
    if !it.startApplied && 0 < it.start.length then
      let it := { it with startApplied := true }
      match blk.seek it.start with
      | .error .panic => throw .panic
      | .error err => r.handleCorruption it err
      | .ok none => return .again { it with block := none, blockI := it.blockI + 1 }
      | .ok (some (c, entry)) =>
        if it.isBehind entry.key then return .ended it
        else r.advance { it with cursor := some c, pending := some entry } blk c
    else
      let c := newCursor blk 0 blk.dataLen
      r.advance { it with startApplied := true, cursor := some c } blk c

/-- The block of the round: its place in the partition is read. -/
def loadBlock (it : RangeIterator) : Read Round := do
  let e ← Prog.lift (entryAt it.partIndex it.blockI)
  match ← Prog.attempt isPanic (r.readBlockEntry P src e) with
  | .error err => r.handleCorruption it err
  | .ok blk =>
    r.prefetch P src it.partIndex it.blockI
    r.position { it with block := some blk, cursor := none, pending := none } blk

/-- A round of the loop of `Next`. -/
def body (it : RangeIterator) : Read Round :=
  match it.block with
  | some blk => r.position it blk
  | none =>
    if it.partIndex.length ≤ it.blockI then do
      let (ok, it) ← r.loadPartition P src (r.top.length + 1) it
      if ok then r.loadBlock P src it else return .ended it
    else r.loadBlock P src it

/-- The loop of `Next`: whether there is an entry; `none` where the fuel
does not do. -/
def nextLoop : ℕ → RangeIterator → Read (Option (Bool × RangeIterator))
  | 0, _ => return none
  | fuel + 1, it => do
    match ← r.body P src it with
    | .again it => nextLoop fuel it
    | .found it => return some (true, it)
    | .ended it => return some (false, it)

/-- `Next`. -/
def next (fuel : ℕ) (it : RangeIterator) : Read (Option (Bool × RangeIterator)) := do
  if ← isDropped then return some (false, it)
  else r.nextLoop P src fuel it

/-- `for it.Next() { … it.Entry() … }`: the entries and the iterator it
ends with. -/
def collect (fuel : ℕ) : ℕ → RangeIterator → Read (Option (List Entry × RangeIterator))
  | 0, _ => return none
  | n + 1, it => do
    match ← r.next P src fuel it with
    | none => return none
    | some (false, it) => return some ([], it)
    | some (true, it) =>
      match ← collect fuel n it with
      | none => return none
      | some (es, last) => return some (it.curr.toList.map EntryView.entry ++ es, last)

/-- The results of calls of `Next`, one after the other. -/
def nexts (fuel : ℕ) : ℕ → RangeIterator → Read (Option (List Bool))
  | 0, _ => return some []
  | n + 1, it => do
    match ← r.next P src fuel it with
    | none => return none
    | some (found, it) => return (← nexts fuel n it).map (found :: ·)

end Reader

end LSMEngine.Format
