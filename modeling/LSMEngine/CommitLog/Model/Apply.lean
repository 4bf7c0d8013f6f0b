import LSMEngine.Common.Runs
/-!
# Commit log — committed entries

What the commit log hands over to be applied: a mutation with the place
it was committed at. Mutations are of any type.
-/

namespace LSMEngine.CommitLog

/-- `Commit`. -/
structure Commit where
  index : ℕ
  term : ℕ
  deriving DecidableEq, Repr

/-- `ControlCommittedEntry`. -/
structure ControlEntry (Control : Type) where
  commit : Commit
  mutation : Control
  deriving DecidableEq, Repr

end LSMEngine.CommitLog
