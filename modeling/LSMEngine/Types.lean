import LSMEngine.Common.Bytes
/-!
# Entries and errors

The data every layer of the engine passes around: `types.Entry`, the
borrowed `memory.EntryView` of it, and the error values of `pkg/lsm/errs`
together with the I/O failures the code wraps under a context of its own.
-/

namespace LSMEngine

/-- `types.Entry`: one mutation of a key. -/
structure Entry where
  key : Bytes
  value : Bytes
  tombstone : Bool
  seq : UInt64
  deriving DecidableEq, Repr

/-- `memory.EntryView`: an entry whose buffers belong to someone else. -/
structure EntryView where
  key : Bytes
  value : Bytes
  tombstone : Bool
  seq : UInt64
  deriving DecidableEq, Repr

/-- The view of an entry. -/
def Entry.view (e : Entry) : EntryView := ⟨e.key, e.value, e.tombstone, e.seq⟩

/-- `EntryView.Entry`. -/
def EntryView.entry (v : EntryView) : Entry := ⟨v.key, v.value, v.tombstone, v.seq⟩

/-- Which limit a refused record exceeds: the messages are
`(record n > block m)` and `(n > m)`. -/
inductive RecordLimit
  | block (size : ℕ)
  | cap (size : ℕ)
  deriving DecidableEq, Repr

/-- The errors of `pkg/lsm/errs`, and an I/O error under the context the
code wraps it in. -/
inductive Err
  | walCorrupt
  | walCorruptSegment
  | walMissingSegment
  | walClosed
  | walEmptyKey
  | walEmptyValue
  | walRecordTooLarge (total : ℕ) (limit : RecordLimit)
  | backpressure
  | invalid (message : String)
  | io (context : String)
  deriving DecidableEq, Repr

end LSMEngine
