import LSMEngine.Common.Slice
import LSMEngine.Types
import Mathlib.Algebra.Order.Ring.Int
import Mathlib.Algebra.Order.Field.Rat
/-!
# Format — options, faults and the platform

What the writer and the reader of the table format share: the options of
`sstable/config`, the ways an operation can end without a result, and
what the code takes from outside (the snappy codec).

Go integers are 64 bits wide; the products and sums the source can
overflow are wrapped (`int64`). A slice or an index out of bounds, a
division by zero and a `make` beyond the address space are the fault
`panic`: it is not an error the code returns. Other memory is there.
-/

namespace LSMEngine.Format

/-! ## Faults -/

/-- The errors of the table format, and the run-time panic. -/
inductive Fault
  | badMagic
  | badFooter
  | badBlock
  | badMeta
  | badIndex
  | unknownCompression (id : UInt8)
  | closed
  | eof
  | snappy
  | io (context : String)
  | message (text : String)
  | panic
  deriving DecidableEq, Repr

/-- An integer in 64 bits. -/
def int64 (x : ℤ) : ℤ := Int.bmod x (2 ^ 64)

/-- `if c { return f }`. -/
def failIf (c : Prop) [Decidable c] (f : Fault) : Except Fault Unit :=
  if c then .error f else .ok ()

/-- Whether `make` of so many elements of a size does not panic. -/
def canMake (elemSize n : ℤ) : Bool := 0 ≤ n ∧ elemSize * n ≤ 2 ^ 48

/-- `b[i:j]`. -/
def sub (b : Bytes) (i j : ℕ) : Except Fault Bytes :=
  match slice b i j with
  | some s => .ok s
  | none => .error .panic

/-- `b[i]`. -/
def byteAt (b : Bytes) (i : ℕ) : Except Fault UInt8 :=
  match b[i]? with
  | some x => .ok x
  | none => .error .panic

/-- `binary.LittleEndian.Uint16(b[i:i+2])`. -/
def uint16At (b : Bytes) (i : ℕ) : Except Fault UInt16 := do
  let s ← sub b i (i + 2)
  return UInt16.ofNat (leNat s)

/-- `binary.LittleEndian.Uint32(b[i:i+4])`. -/
def uint32At (b : Bytes) (i : ℕ) : Except Fault UInt32 := do
  let s ← sub b i (i + 4)
  return UInt32.ofNat (leNat s)

/-- `binary.LittleEndian.Uint64(b[i:i+8])`. -/
def uint64At (b : Bytes) (i : ℕ) : Except Fault UInt64 := do
  let s ← sub b i (i + 8)
  return UInt64.ofNat (leNat s)

/-! ## The platform -/

/-- The snappy codec, with what is assumed of it. `Encode` panics, with
`none`, on what is too long for it, and that is all of 4 GiB and more. -/
structure Snappy where
  encode : Bytes → Option Bytes
  decode : Bytes → Option Bytes
  decode_encode : ∀ b z, encode b = some z → decode z = some b
  length_lt : ∀ b z, encode b = some z → b.length < 2 ^ 32

/-- What the code takes from outside. -/
structure Platform where
  snappy : Snappy

/-- What snappy makes of up to 60 bytes that repeat nothing: their number,
and one literal. -/
def encodeLiteral (b : Bytes) : Option Bytes :=
  if b.length = 0 then some [0]
  else if b.length ≤ 60 then
    some (UInt8.ofNat b.length :: UInt8.ofNat ((b.length - 1) * 4) :: b)
  else none

def decodeLiteral : Bytes → Option Bytes
  | [0] => some []
  | n :: tag :: b => if n.toNat = b.length ∧ tag.toNat = (b.length - 1) * 4 then some b else none
  | _ => none

theorem decodeLiteral_encodeLiteral (b z : Bytes) (h : encodeLiteral b = some z) :
    decodeLiteral z = some b := by
  rw [encodeLiteral] at h
  split at h
  · next hnil =>
    rw [← Option.some.inj h, List.length_eq_zero_iff.mp hnil]
    rfl
  · split at h
    · next hle =>
      rw [← Option.some.inj h, decodeLiteral, if_pos]
      rw [UInt8.toNat_ofNat', UInt8.toNat_ofNat']
      omega
    · cases h

theorem length_of_encodeLiteral (b z : Bytes) (h : encodeLiteral b = some z) :
    b.length < 2 ^ 32 := by
  rw [encodeLiteral] at h
  split at h
  · omega
  · split at h
    · omega
    · cases h

/-- A platform with a codec of literals. -/
def Platform.plain : Platform where
  snappy := {
    encode := encodeLiteral
    decode := decodeLiteral
    decode_encode := decodeLiteral_encodeLiteral
    length_lt := length_of_encodeLiteral }

/-! ## Floating point -/

/-- A power of two. -/
def pow2 (e : ℤ) : ℚ := mkRat (2 ^ e.toNat) (2 ^ (-e).toNat)

/-- The exponent of the greatest power of two that is not above. -/
def exponent (q : ℚ) : ℤ :=
  let e : ℤ := (q.num.toNat.log2 : ℤ) - q.den.log2
  if q < pow2 e then e - 1 else e

/-- The nearest integer, the even one of two. -/
def roundEven (q : ℚ) : ℤ :=
  if q - q.floor < 1 / 2 ∨ q - q.floor = 1 / 2 ∧ q.floor % 2 = 0 then q.floor else q.floor + 1

/-- The nearest `float64`, with 53 bits, of a number that is not negative
and neither too small nor too large for one. -/
def float64 (q : ℚ) : ℚ :=
  if q ≤ 0 then 0 else roundEven (q / pow2 (exponent q - 52)) * pow2 (exponent q - 52)

/-- `int(x)` of such a number, as amd64 converts one that does not fit. -/
def truncate (x : ℚ) : ℤ := if x < 2 ^ 63 then x.floor else -2 ^ 63

/-! ## Options -/

/-- `Compression`: a string, two of which are known. -/
inductive Compression
  | unset
  | none
  | snappy
  | other (name : String)
  deriving DecidableEq, Repr

/-- `Checksum`. -/
inductive Checksum
  | unset
  | crc32c
  | other (name : String)
  deriving DecidableEq, Repr

/-- `CorruptionPolicy`. -/
inductive CorruptionPolicy
  | unset
  | failFast
  | skipBlock
  | dropTable
  | other (name : String)
  deriving DecidableEq, Repr

/-- `PolicySnapshot`, as far as the pipeline reads it. -/
structure PolicySnapshot where
  usePrefetch : Bool
  prefetchBudgetBytes : ℤ
  prefetchBudgetBlocks : ℤ
  prefetchAsync : Bool
  prefetchQueueDepth : ℤ
  readBlockMaxBytes : ℤ
  deriving DecidableEq, Repr

/-- `config.Options`, as far as the format depends on it. -/
structure Options where
  blockTargetBytes : ℤ
  blockMaxBytes : ℤ
  restartInterval : ℤ
  restartIntervalAdaptive : Bool
  restartIntervalMin : ℤ
  restartIntervalMax : ℤ
  indexPartitionEntries : ℤ
  filterPartitioned : Bool
  readBlockMaxBytes : ℤ
  compression : Compression
  bloomBitsPerKey : ℤ
  blockCacheBytes : ℤ
  indexCacheBytes : ℤ
  filterCacheBytes : ℤ
  prefetchBlocks : ℤ
  prefetchBytes : ℤ
  prefetchBudgetBlocks : ℤ
  prefetchBudgetBytes : ℤ
  prefetchAsync : Bool
  prefetchQueueDepth : ℤ
  checksum : Checksum
  corruptionPolicy : CorruptionPolicy
  policyOverride : Option PolicySnapshot
  deriving DecidableEq, Repr

namespace Options

/-- `BlockTargetBytes` with its default. -/
def target (o : Options) : ℤ := if o.blockTargetBytes ≤ 0 then 64 * 1024 else o.blockTargetBytes

/-- `BlockMaxBytes` with its default, and at least the target. -/
def blockMax (o : Options) : ℤ :=
  let m := if o.blockMaxBytes ≤ 0 then 256 * 1024 else o.blockMaxBytes
  if m < o.target then o.target else m

/-- `RestartInterval` with its default. -/
def restart (o : Options) : ℤ := if o.restartInterval ≤ 0 then 16 else o.restartInterval

/-- `RestartIntervalMax` with its default. -/
def restartMax (o : Options) : ℤ :=
  if o.restartIntervalMax ≤ 0 then o.restart else o.restartIntervalMax

/-- `RestartIntervalMin` with its default, and at most the maximum. -/
def restartMin (o : Options) : ℤ :=
  let m := if o.restartIntervalMin ≤ 0 then o.restart else o.restartIntervalMin
  if o.restartMax < m then o.restartMax else m

/-- The restart interval inside its bounds. -/
def restartClamped (o : Options) : ℤ :=
  let r := if o.restart < o.restartMin then o.restartMin else o.restart
  if o.restartMax < r then o.restartMax else r

/-- `ReadBlockMaxBytes`: by default four times the maximum, and at least
the maximum. -/
def readBlockMax (o : Options) : ℤ :=
  let r := if o.readBlockMaxBytes ≤ 0 ∧ 0 < o.blockMax then int64 (o.blockMax * 4)
    else o.readBlockMaxBytes
  if 0 < r ∧ r < o.blockMax then o.blockMax else r

/-- The capacity of the index or filter cache: an eighth of the block
cache by default, and nothing where it is disabled. -/
def sideCache (o : Options) (bytes : ℤ) : ℤ :=
  if bytes < 0 then 0
  else if 0 < o.blockCacheBytes ∧ bytes = 0 then o.blockCacheBytes / 8
  else bytes

/-- An option that is not negative. -/
def nonneg (x : ℤ) : ℤ := if x < 0 then 0 else x

/-- `Normalize`. -/
def normalize (o : Options) : Options where
  blockTargetBytes := o.target
  blockMaxBytes := o.blockMax
  restartInterval := o.restartClamped
  restartIntervalAdaptive := o.restartIntervalAdaptive
  restartIntervalMin := o.restartMin
  restartIntervalMax := o.restartMax
  indexPartitionEntries := nonneg o.indexPartitionEntries
  filterPartitioned := o.filterPartitioned
  readBlockMaxBytes := o.readBlockMax
  compression := if o.compression = .unset then .snappy else o.compression
  bloomBitsPerKey := o.bloomBitsPerKey
  blockCacheBytes := o.blockCacheBytes
  indexCacheBytes := o.sideCache o.indexCacheBytes
  filterCacheBytes := o.sideCache o.filterCacheBytes
  prefetchBlocks := nonneg o.prefetchBlocks
  prefetchBytes := nonneg o.prefetchBytes
  prefetchBudgetBlocks := nonneg o.prefetchBudgetBlocks
  prefetchBudgetBytes := nonneg o.prefetchBudgetBytes
  prefetchAsync := o.prefetchAsync
  prefetchQueueDepth := if o.prefetchQueueDepth ≤ 0 then 64 else o.prefetchQueueDepth
  checksum := if o.checksum = .unset then .crc32c else o.checksum
  corruptionPolicy := if o.corruptionPolicy = .unset then .failFast else o.corruptionPolicy
  policyOverride := o.policyOverride

/-- `SnapshotFromOptions`: the older options stand in for a budget of
zero, and an override for everything. -/
def snapshot (o : Options) : PolicySnapshot :=
  let bytes := if o.prefetchBudgetBytes = 0 ∧ 0 < o.prefetchBytes then o.prefetchBytes
    else o.prefetchBudgetBytes
  let blocks := if o.prefetchBudgetBlocks = 0 ∧ 0 < o.prefetchBlocks then o.prefetchBlocks
    else o.prefetchBudgetBlocks
  o.policyOverride.getD
    ⟨0 < bytes || 0 < blocks || o.prefetchAsync, bytes, blocks, o.prefetchAsync,
      o.prefetchQueueDepth, o.readBlockMaxBytes⟩

/-- `fmt.Errorf("unsupported … %q", …)`. -/
def unsupported (what name : String) : Fault :=
  .message ("unsupported " ++ what ++ " \"" ++ name ++ "\"")

/-- `Validate`. -/
def validate (o : Options) : Except Fault Unit :=
  match o.compression with
  | .unset => .error (unsupported "compression" "")
  | .other name => .error (unsupported "compression" name)
  | .none | .snappy =>
    match o.checksum with
    | .unset => .error (unsupported "checksum" "")
    | .other name => .error (unsupported "checksum" name)
    | .crc32c =>
      match o.corruptionPolicy with
      | .unset => .error (unsupported "corruption policy" "")
      | .other name => .error (unsupported "corruption policy" name)
      | .failFast | .skipBlock | .dropTable => .ok ()

end Options

end LSMEngine.Format
