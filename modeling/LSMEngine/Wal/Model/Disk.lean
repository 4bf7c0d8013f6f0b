import LSMEngine.Types
import Mathlib.Data.List.Sort
/-!
# WAL — the directory

The files the log is written to. A file is its written bytes together
with the length of the prefix that has reached stable storage, which
only `File.Sync` advances; a file is addressed by its place in `files`,
so that an open handle follows it through a rename.

Every call that may fail takes its outcome from a script: block writes
from `writeFaults`, everything else from `ioFaults`. A script that has
run out lets every call succeed, and `some n` is a failure after `n`
bytes. A directory holds at most `2 ^ 63 - 1` files: `os.ReadDir`
returns them in a slice, whose length is an `int`.
-/

namespace LSMEngine.Wal

/-- A file, under its name in the directory, or unlinked. -/
structure File where
  name : Option String
  bytes : Bytes
  durable : ℕ
  deriving DecidableEq, Repr

/-- An `iofs.File`. -/
structure Handle where
  file : ℕ
  isOpen : Bool
  deriving DecidableEq, Repr

/-- The directory of the log, and what its calls are going to answer. -/
structure Disk where
  files : List File
  writeFaults : List (Option ℕ)
  ioFaults : List (Option ℕ)
  clock : ℕ
  deriving DecidableEq, Repr

/-- The length of a Go slice fits an `int`. -/
def maxEntries : ℕ := 2 ^ 63 - 1

namespace Disk

/-- The file under a name. -/
def find (d : Disk) (name : String) : Option ℕ :=
  d.files.findIdx? fun f => f.name = some name

/-- Its bytes. -/
def content (d : Disk) (name : String) : Option Bytes :=
  (d.files.find? fun f => f.name = some name).map File.bytes

/-- The bytes behind a handle. -/
def bytesOf (d : Disk) (i : ℕ) : Bytes := (d.files[i]?.map File.bytes).getD []

/-- The names `os.ReadDir` lists. -/
def names (d : Disk) : List String := d.files.filterMap File.name

/-- The outcome of the next call that is not a block write. -/
def ioFault (d : Disk) : Option ℕ × Disk :=
  match d.ioFaults with
  | [] => (none, d)
  | o :: os => (o, { d with ioFaults := os })

/-- The outcome of the next block write. -/
def writeFault (d : Disk) : Option ℕ × Disk :=
  match d.writeFaults with
  | [] => (none, d)
  | o :: os => (o, { d with writeFaults := os })

/-- Bytes added at the end of a file: every writer of the log appends. -/
def push (d : Disk) (i : ℕ) (bs : Bytes) : Disk :=
  { d with files := d.files.modify i fun f => { f with bytes := f.bytes ++ bs } }

/-- `OpenFile` with `O_CREATE`, and `O_TRUNC` if asked for. -/
def openFile (d : Disk) (name : String) (trunc : Bool) : Option ℕ × Disk :=
  match d.ioFault with
  | (some _, d) => (none, d)
  | (none, d) =>
    match d.find name with
    | some i =>
      if trunc then
        (some i, { d with files := d.files.modify i fun f => { f with bytes := [], durable := 0 } })
      else (some i, d)
    | none =>
      if d.files.length < maxEntries then
        (some d.files.length, { d with files := d.files ++ [⟨some name, [], 0⟩] })
      else (none, d)

/-- The write of a block: all of it, or a prefix and an error. -/
def writeBlock (d : Disk) (h : Handle) (bs : Bytes) : Bool × Disk :=
  if h.isOpen then
    match d.writeFault with
    | (none, d) => (true, d.push h.file bs)
    | (some n, d) => (false, d.push h.file (bs.take n))
  else (false, d)

/-- The write of a segment header. -/
def writeHeader (d : Disk) (h : Handle) (bs : Bytes) : Bool × Disk :=
  match d.ioFault with
  | (none, d) => (true, { d.push h.file bs with clock := d.clock + 1 })
  | (some n, d) => (false, { d.push h.file (bs.take n) with clock := d.clock + 1 })

/-- `File.Sync`. -/
def sync (d : Disk) (h : Handle) : Bool × Disk :=
  if h.isOpen then
    match d.ioFault with
    | (none, d) =>
      (true, { d with files := d.files.modify h.file fun f => { f with durable := f.bytes.length } })
    | (some _, d) => (false, d)
  else (false, d)

/-- `File.Close`. -/
def close (d : Disk) : Bool × Disk :=
  match d.ioFault with
  | (none, d) => (true, d)
  | (some _, d) => (false, d)

/-- `os.Rename`: a file already under the new name is unlinked. -/
def rename (d : Disk) (old new : String) : Bool × Disk :=
  match d.ioFault with
  | (some _, d) => (false, d)
  | (none, d) =>
    (true, { d with files := d.files.map fun f =>
      if f.name = some new then { f with name := none }
      else if f.name = some old then { f with name := some new } else f })

/-- `fs.Truncate`, to no more than the file's length. -/
def truncate (d : Disk) (name : String) (n : ℕ) : Disk :=
  match d.find name with
  | none => d
  | some i =>
    { d with files := d.files.modify i fun f =>
      { f with bytes := f.bytes.take n, durable := min f.durable n } }

end Disk

/-! ## Segment names -/

/-- `fmt.Sprintf("%s.%d", base, n)`. -/
def segmentName (base : String) (n : ℤ) : String := base ++ "." ++ toString n

/-- The digits of an unsigned decimal number. -/
def digitsNat (cs : List Char) : Option ℕ :=
  if cs ≠ [] ∧ cs.all Char.isDigit then some (Nat.ofDigitChars 10 cs 0) else none

/-- `strconv.Atoi`: an optional sign and decimal digits, in the range of
an `int`. -/
def atoi (cs : List Char) : Option ℤ :=
  match cs with
  | '-' :: ds =>
    match digitsNat ds with
    | some n => if n ≤ 2 ^ 63 then some (-(n : ℤ)) else none
    | none => none
  | '+' :: ds =>
    match digitsNat ds with
    | some n => if n < 2 ^ 63 then some n else none
    | none => none
  | ds =>
    match digitsNat ds with
    | some n => if n < 2 ^ 63 then some n else none
    | none => none

/-- The number a rotated segment carries in its name. -/
def segmentNumber (base name : String) : Option ℤ :=
  if (base ++ ".").toList.isPrefixOf name.toList then
    atoi (name.toList.drop (base ++ ".").toList.length)
  else none

/-- Whether the sorted numbers are `1, 2, 3, …`. -/
def consecutive : ℤ → List ℤ → Bool
  | _, [] => true
  | i, n :: ns => n = i && consecutive (i + 1) ns

/-- `ListSegments`: the rotated segments in numeric order, and whether
one is missing. -/
def listSegments (d : Disk) (base : String) : List String × Bool :=
  let nums := (d.names.filterMap (segmentNumber base)).insertionSort (· ≤ ·)
  (nums.map (segmentName base), !consecutive 1 nums)

/-- `NextSegmentID`. -/
def nextSegmentID (d : Disk) (base : String) : UInt64 :=
  UInt64.ofNat ((d.names.filterMap (segmentNumber base)).foldl max 0 + 1).toNat

end LSMEngine.Wal
