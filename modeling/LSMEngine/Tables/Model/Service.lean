import LSMEngine.Tables.Model.Compaction
/-!
# Tables — the compaction service

`Service.Run` answers a trigger with `Coordinator.Step` after
`Coordinator.Step`, until one reports that there was nothing to do or
fails. What the runner writes for a plan is left open here: any number
of tables of any size, at the level the plan names, in place of the
plan's inputs.
-/

namespace LSMEngine.Tables

/-- `compaction.Result`, for the tables a runner has written. A plan
without inputs comes to nothing. -/
def Plan.result (plan : Plan) (output : List SSTable) : Result :=
  if plan.inputs = [] then ⟨[], [], 0⟩ else ⟨output, plan.inputs, plan.outputLevel⟩

/-- `Coordinator.Step` with a runner that writes the given tables. -/
def stepWith (p : StrictLevelledPlanner) (output : List SSTable) (s : TableSet) :
    Except String (Bool × TableSet) :=
  match p.next (stateFromMetas s.snapshot) with
  | none => .ok (false, s)
  | some plan => do
    let _ ← s.resolve plan.inputs
    .ok (true, (s.apply (plan.result output).edit).1)

/-- The inner loop of `Service.Run`, on what the runner writes turn by
turn: the table set it ends with, or nothing while it has not ended. -/
def serviceRun (p : StrictLevelledPlanner) : List (List SSTable) → TableSet → Option TableSet
  | [], _ => none
  | output :: outputs, s =>
    match stepWith p output s with
    | .error _ => some s
    | .ok (false, s') => some s'
    | .ok (true, s') => serviceRun p outputs s'

end LSMEngine.Tables
