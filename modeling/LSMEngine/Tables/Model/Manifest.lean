import LSMEngine.Tables.Model.Set
/-!
# Tables — the manifest

What is stored of the table set: the metadata of the tables, in the order
of the set, and the sequence up to which the log is not needed.
-/

namespace LSMEngine.Tables

/-- `manifest.Manifest`. -/
structure Manifest where
  walSeq : UInt64
  tables : List TableMeta
  deriving DecidableEq

/-- `mergeManifestTables`. -/
def mergeManifestTables (existing add : List TableMeta) (remove : List String) :
    List TableMeta :=
  ((existing.filter fun m => m.path ∉ remove ∧ m.path ∉ add.map TableMeta.path) ++
    add).insertionSort fun a b => ¬ metaLess b a

/-- The update of `Service.Apply`. -/
def Manifest.edit (m : Manifest) (add : List TableMeta) (remove : List String) (walSeq : UInt64) :
    Manifest where
  walSeq := if 0 < walSeq then walSeq else m.walSeq
  tables := mergeManifestTables m.tables add remove

end LSMEngine.Tables
