import LSMEngine.Common.Feeds
import LSMEngine.Tables.Model.Compaction
/-!
# Tables — the runner's merge over iterators that can fail

`mergeEntries` of the runner as it is called: each input is an iterator
over the blocks of a file, which ends with an error if a block cannot be
read. `Tables.mergeEntries` is what it comes to where none does.
-/

namespace LSMEngine.Tables

namespace Runner

/-- `mergeEntries`: nothing is returned beside an error. -/
def mergeEntries {ε : Type} (iters : List (Feed Entry ε)) (dropTombstones : Bool) :
    Except ε (List Entry) :=
  match mergeFeeds Entry.key mergeLe true iters with
  | (groups, none) => .ok (groups.filterMap (mergeOne dropTombstones))
  | (_, some err) => .error err

end Runner

end LSMEngine.Tables
