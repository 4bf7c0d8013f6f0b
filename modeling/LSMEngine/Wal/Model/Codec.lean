import LSMEngine.Common.Crc32
import LSMEngine.Common.Stream
import LSMEngine.Types
/-!
# WAL — the on-disk format

The records, blocks and segment headers of `internal/lsm/wal/codec`. A
record is a header of flags, sequence and the two lengths, then key,
value and a checksum; a block is a magic, a payload length and a payload
checksum ahead of the records; a segment file is one header followed by
blocks.

Decoding is as partial as the source's. `DecodeRecords` adds the key and
value length in 32 bits before comparing them with what is left of the
payload, and slices with the lengths themselves, so a payload whose two
lengths wrap is a run-time panic and not an error (`Records.panic`).
-/

namespace LSMEngine.Wal

/-! ## Constants -/

/-- `LSMW`. -/
def segmentMagic : Bytes := [0x4C, 0x53, 0x4D, 0x57]

/-- `LSMB`. -/
def blockMagic : Bytes := [0x4C, 0x53, 0x4D, 0x42]

def recordVersion : UInt8 := 1

def segmentHeaderSize : ℕ := 29
def blockHeaderSize : ℕ := 12
def recordHeaderSize : ℕ := 17
def recordCRCSize : ℕ := 4

/-- The smallest block holds a record with a key of one byte. -/
def minBlockSize : ℕ := recordHeaderSize + recordCRCSize + 1

/-! ## Records -/

/-- `RecordBuffer`: the four pieces of an encoded record. -/
structure RecordBuffer where
  header : Bytes
  key : Bytes
  val : Bytes
  crc : Bytes
  total : ℕ
  deriving DecidableEq, Repr

/-- The flags byte: bit 0 is the tombstone. -/
def flagsOf (e : Entry) : UInt8 := if e.tombstone then 1 else 0

/-- Flags, sequence, key length, value length. -/
def recordHeader (e : Entry) : Bytes :=
  flagsOf e :: (leBytes 8 e.seq.toNat ++ leBytes 4 e.key.length ++ leBytes 4 e.value.length)

/-- `NewRecordBufferOwned`. -/
def newRecordBufferOwned (e : Entry) : RecordBuffer where
  header := recordHeader e
  key := e.key
  val := e.value
  crc := leBytes 4 (crc32 (recordHeader e ++ e.key ++ e.value)).toNat
  total := recordHeaderSize + e.key.length + e.value.length + recordCRCSize

/-- The bytes of a record, in the order `buffers` lists them. -/
def RecordBuffer.bytes (rb : RecordBuffer) : Bytes := rb.header ++ rb.key ++ rb.val ++ rb.crc

/-- What decoding a block payload comes to. -/
inductive Records (α : Type)
  | ok (entries : List α)
  | corrupt
  | panic
  deriving DecidableEq, Repr

/-- The decoded entries, with one more in front. -/
def Records.cons {α : Type} (a : α) : Records α → Records α
  | .ok as => .ok (a :: as)
  | .corrupt => .corrupt
  | .panic => .panic

/-- The flags of the record a payload starts with. -/
def recordFlags (p : Bytes) : UInt8 := p.headD 0

/-- Its sequence. -/
def recordSeq (p : Bytes) : UInt64 := UInt64.ofNat (leNat ((p.drop 1).take 8))

/-- Its key length. -/
def recordKeyLen (p : Bytes) : ℕ := leNat ((p.drop 9).take 4)

/-- Its value length. -/
def recordValLen (p : Bytes) : ℕ := leNat ((p.drop 13).take 4)

/-- The bytes its checksum covers. -/
def recordBodyLen (p : Bytes) : ℕ := recordHeaderSize + recordKeyLen p + recordValLen p

/-- The loop `DecodeRecords` and `DecodeRecordViews` share, on what is
left of the payload; they differ in what they build of a record. -/
def scanRecords {α : Type} (build : Bytes → Bytes → Bool → UInt64 → α) (p : Bytes) : Records α :=
  if p = [] then .ok []
  else if p.length < recordHeaderSize + recordCRCSize then .corrupt
  -- `keyLen+valLen` is a sum of two uint32
  else if p.length < recordHeaderSize + (recordKeyLen p + recordValLen p) % 2 ^ 32
      + recordCRCSize then .corrupt
  -- the slices use the lengths themselves
  else if p.length < recordBodyLen p + recordCRCSize then .panic
  else if leNat ((p.drop (recordBodyLen p)).take recordCRCSize)
      ≠ (crc32 (p.take (recordBodyLen p))).toNat then .corrupt
  else
    .cons
      (build ((p.drop recordHeaderSize).take (recordKeyLen p))
        ((p.drop (recordHeaderSize + recordKeyLen p)).take (recordValLen p))
        (recordFlags p &&& 1 = 1) (recordSeq p))
      (scanRecords build (p.drop (recordBodyLen p + recordCRCSize)))
termination_by p.length
decreasing_by
  simp only [List.length_drop, recordHeaderSize, recordCRCSize, recordBodyLen] at *
  omega

/-- `DecodeRecords`. -/
def decodeRecords : Bytes → Records Entry := scanRecords Entry.mk

/-- `DecodeRecordViews`. -/
def decodeRecordViews : Bytes → Records EntryView := scanRecords EntryView.mk

/-! ## Blocks -/

/-- The payload of a block: its records back to back. -/
def blockPayload (records : List RecordBuffer) : Bytes := records.flatMap RecordBuffer.bytes

/-- The bytes `WriteBlock` hands to the writer. No records, no write. -/
def encodeBlock (records : List RecordBuffer) : Bytes :=
  if records = [] then []
  else
    blockMagic ++ leBytes 4 (records.map RecordBuffer.total).sum
      ++ leBytes 4 (crc32 (blockPayload records)).toNat ++ blockPayload records

/-- `DecodeBlockAfterMagic`, with what is left of the stream: the
payload, or `none` for a corrupt block. A cap of zero is no cap. -/
def decodeBlockAfterMagic (r : Bytes) (maxPayload : UInt32) : Option Bytes × Bytes :=
  match readFull 4 r with
  | .ok lenBuf r₁ =>
    match readFull 4 r₁ with
    | .ok crcBuf r₂ =>
      if 0 < maxPayload.toNat ∧ maxPayload.toNat < leNat lenBuf then (none, r₂)
      else
        match readFull (leNat lenBuf) r₂ with
        | .ok payload r₃ =>
          if (crc32 payload).toNat ≠ leNat crcBuf then (none, r₃) else (some payload, r₃)
        | _ => (none, [])
    | _ => (none, [])
  | _ => (none, [])

/-- What decoding at a block boundary comes to. -/
inductive Frame
  | eof
  | corrupt (rest : Bytes)
  | payload (p rest : Bytes)
  deriving DecidableEq, Repr

/-- `DecodeBlock`. -/
def decodeBlock (r : Bytes) (maxPayload : UInt32) : Frame :=
  match readFull 4 r with
  | .eof => .eof
  | .unexpectedEOF => .corrupt []
  | .ok magic r₁ =>
    if magic ≠ blockMagic then .corrupt r₁
    else
      match decodeBlockAfterMagic r₁ maxPayload with
      | (none, r₂) => .corrupt r₂
      | (some p, r₂) => .payload p r₂

/-- `ResyncBlock`: the stream behind the next block magic, if there is
one. -/
def resyncBlock (r : Bytes) : Option Bytes := scan blockMagic [] r

/-! ## Segment headers -/

/-- `SegmentHeader`. -/
structure SegmentHeader where
  version : UInt8
  blockSize : UInt32
  segmentID : UInt64
  createdAt : UInt64
  deriving DecidableEq, Repr

/-- The header fields under the header checksum. -/
def segmentFields (blockSize : UInt32) (segmentID createdAt : UInt64) : Bytes :=
  recordVersion ::
    (leBytes 4 blockSize.toNat ++ leBytes 8 segmentID.toNat ++ leBytes 8 createdAt.toNat)

/-- The bytes `WriteSegmentHeader` writes. -/
def encodeSegmentHeader (blockSize : UInt32) (segmentID createdAt : UInt64) : Bytes :=
  segmentMagic ++ segmentFields blockSize segmentID createdAt
    ++ leBytes 4 (crc32 (segmentFields blockSize segmentID createdAt)).toNat

/-- `ReadSegmentHeader`, with what is left of the stream. -/
def readSegmentHeader (r : Bytes) : Except Err (SegmentHeader × Bytes) :=
  match readFull segmentHeaderSize r with
  | .eof => .error (.io "EOF")
  | .unexpectedEOF => .error (.io "unexpected EOF")
  | .ok buf rest =>
    if buf.take 4 ≠ segmentMagic then .error .walCorrupt
    else if (buf.drop 4).headD 0 ≠ recordVersion then .error .walCorrupt
    else if (crc32 ((buf.drop 4).take 21)).toNat ≠ leNat (buf.drop 25) then .error .walCorrupt
    else
      .ok ({ version := (buf.drop 4).headD 0
             blockSize := UInt32.ofNat (leNat ((buf.drop 5).take 4))
             segmentID := UInt64.ofNat (leNat ((buf.drop 9).take 8))
             createdAt := UInt64.ofNat (leNat ((buf.drop 17).take 8)) }, rest)

end LSMEngine.Wal
