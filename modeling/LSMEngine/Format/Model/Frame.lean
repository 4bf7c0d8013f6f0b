import LSMEngine.Common.Crc32
import LSMEngine.Format.Model.Options
/-!
# Format — frames, index, metadata and footer

The wire format of `sstable/format`: the frame every block is written in
(magic, compression, length of the plain payload, payload, type and
checksum), the entries of an index, the metadata and the footer. The
reader also accepts frames without the magic; data blocks then have a
shorter header and other blocks none.
-/

namespace LSMEngine.Format

/-! ## Frames -/

/-- `LSM1`. -/
def fileMagic : Bytes := [0x4C, 0x53, 0x4D, 0x31]

/-- `LSMB`. -/
def frameMagic : Bytes := [0x4C, 0x53, 0x4D, 0x42]

abbrev footerSizeBytes : ℕ := 36
abbrev blockHeaderSizeLegacy : ℕ := 5
abbrev blockMagicSize : ℕ := 4
abbrev blockHeaderSize : ℕ := 9
abbrev blockCRCLen : ℕ := 4
abbrev blockTypeSize : ℕ := 1

/-- `BlockType`. -/
inductive BlockType
  | data
  | index
  | metadata
  | filter
  deriving DecidableEq, Repr

/-- `byte(typ)`. -/
def BlockType.byte : BlockType → UInt8
  | .data => 0
  | .index => 1
  | .metadata => 2
  | .filter => 3

/-- `CompressionID`. -/
def compressionID : Compression → UInt8
  | .snappy => 1
  | _ => 0

/-- `CompressionFromID`. -/
def compressionFromID (id : UInt8) : Except Fault Compression :=
  if id = 0 then .ok .none
  else if id = 1 then .ok .snappy
  else .error (.unknownCompression id)

/-- `CompressPayload`: the payload, and its length before. -/
def compressPayload (P : Platform) (payload : Bytes) (c : Compression) :
    Except Fault (Bytes × UInt32) :=
  match c with
  | .snappy =>
    match P.snappy.encode payload with
    | none => .error .panic
    | some z => .ok (z, UInt32.ofNat payload.length)
  | _ => .ok (payload, UInt32.ofNat payload.length)

/-- `decompressPayload`. -/
def decompressPayload (P : Platform) (payload : Bytes) (c : Compression)
    (uncompressedLen : UInt32) : Except Fault Bytes :=
  match c with
  | .snappy =>
    match P.snappy.decode payload with
    | none => .error .snappy
    | some out =>
      if 0 < uncompressedLen ∧ UInt32.ofNat out.length ≠ uncompressedLen then .error .badBlock
      else .ok out
  | _ => .ok payload

/-- What the checksum of a frame covers. -/
def frameBody (payload : Bytes) (typ : BlockType) (c : Compression) (uncompressedLen : UInt32) :
    Bytes :=
  frameMagic ++ (compressionID c :: (leBytes 4 uncompressedLen.toNat ++ (payload ++ [typ.byte])))

/-- `EncodeBlock`. -/
def encodeBlock (payload : Bytes) (typ : BlockType) (c : Compression) (uncompressedLen : UInt32) :
    Bytes :=
  frameBody payload typ c uncompressedLen ++
    leBytes 4 (crc32c (frameBody payload typ c uncompressedLen)).toNat

/-- The header of a frame: its length, the compression and the length of
the plain payload. -/
structure FrameHeader where
  size : ℕ
  compression : Compression
  uncompressedLen : UInt32
  deriving DecidableEq, Repr

/-- The part of `DecodeBlockPayload` that reads the header. -/
def decodeFrameHeader (data : Bytes) (typ : BlockType) : Except Fault FrameHeader := do
  if blockHeaderSize ≤ data.length ∧ data.take blockMagicSize = frameMagic then
    let comp ← compressionFromID (← byteAt data blockMagicSize)
    let uncompressedLen ← uint32At data (blockMagicSize + 1)
    return ⟨blockHeaderSize, comp, uncompressedLen⟩
  else if typ = .data ∧ blockHeaderSizeLegacy ≤ data.length then
    let comp ← compressionFromID (← byteAt data 0)
    let uncompressedLen ← uint32At data 1
    return ⟨blockHeaderSizeLegacy, comp, uncompressedLen⟩
  else return ⟨0, .none, 0⟩

/-- `DecodeBlockPayload`. -/
def decodeBlockPayload (P : Platform) (data : Bytes) (typ : BlockType) (errChecksum : Fault) :
    Except Fault Bytes := do
  failIf (data.length < blockTypeSize + blockCRCLen) errChecksum
  let blockTypeOffset := data.length - blockTypeSize - blockCRCLen
  let found ← byteAt data blockTypeOffset
  failIf (found ≠ typ.byte) errChecksum
  let expected ← uint32At data (data.length - blockCRCLen)
  let body ← sub data 0 (data.length - blockCRCLen)
  failIf (crc32c body ≠ expected) errChecksum
  let h ← decodeFrameHeader data typ
  failIf (blockTypeOffset < h.size) errChecksum
  let payload ← sub data h.size blockTypeOffset
  if h.compression = .none then
    failIf (0 < h.size ∧ 0 < h.uncompressedLen ∧
      UInt32.ofNat payload.length ≠ h.uncompressedLen) errChecksum
    return payload
  else decompressPayload P payload h.compression h.uncompressedLen

/-! ## The index -/

abbrev indexHeaderSize : ℕ := 16

/-- `IndexEntry`. -/
structure IndexEntry where
  key : Bytes
  offset : UInt64
  length : UInt32
  deriving DecidableEq, Repr

/-- One entry of an index. -/
def encodeIndexEntry (e : IndexEntry) : Bytes :=
  leBytes 4 e.key.length ++ (leBytes 8 e.offset.toNat ++ (leBytes 4 e.length.toNat ++ e.key))

/-- `EncodeIndex`. -/
def encodeIndex (entries : List IndexEntry) : Bytes := entries.flatMap encodeIndexEntry

/-- The loop of `DecodeIndex`; an entry takes at least a byte. -/
def decodeIndexLoop (data : Bytes) : ℕ → ℕ → Except Fault (List IndexEntry)
  | 0, _ => .ok []
  | fuel + 1, pos =>
    if data.length ≤ pos then .ok [] else do
    failIf (data.length - pos < indexHeaderSize) .badIndex
    let keyLen ← uint32At data pos
    let offset ← uint64At data (pos + 4)
    let length ← uint32At data (pos + 12)
    let pos := pos + indexHeaderSize
    failIf (data.length - pos < keyLen.toNat) .badIndex
    let key ← sub data pos (pos + keyLen.toNat)
    let entries ← decodeIndexLoop data fuel (pos + keyLen.toNat)
    return ⟨key, offset, length⟩ :: entries

/-- `DecodeIndex`. -/
def decodeIndex (data : Bytes) : Except Fault (List IndexEntry) :=
  decodeIndexLoop data data.length 0

/-! ## Metadata -/

abbrev metaHeaderSize : ℕ := 48

/-- `Meta`. -/
structure Meta where
  minKey : Bytes
  maxKey : Bytes
  entryCount : UInt64
  seqMin : UInt64
  seqMax : UInt64
  compression : Compression
  bloomBits : UInt16
  bloomK : UInt8
  bloomOffset : UInt64
  bloomLen : UInt32
  deriving DecidableEq, Repr

/-- `EncodeMeta`. -/
def encodeMeta (m : Meta) : Bytes :=
  leBytes 4 m.minKey.length ++ (leBytes 4 m.maxKey.length ++ (leBytes 8 m.entryCount.toNat ++
    (leBytes 8 m.seqMin.toNat ++ (leBytes 8 m.seqMax.toNat ++ ([compressionID m.compression] ++
      (leBytes 2 m.bloomBits.toNat ++ ([m.bloomK] ++ (leBytes 8 m.bloomOffset.toNat ++
        (leBytes 4 m.bloomLen.toNat ++ (m.minKey ++ m.maxKey))))))))))

/-- `DecodeMeta`. The two lengths are added in 32 bits. -/
def decodeMeta (data : Bytes) : Except Fault Meta := do
  failIf (data.length < metaHeaderSize) .badMeta
  let minLen ← uint32At data 0
  let maxLen ← uint32At data 4
  let entryCount ← uint64At data 8
  let seqMin ← uint64At data 16
  let seqMax ← uint64At data 24
  match compressionFromID (← byteAt data 32) with
  | .error _ => throw .badMeta
  | .ok comp =>
    let bloomBits ← uint16At data 33
    let bloomK ← byteAt data 35
    let bloomOffset ← uint64At data 36
    let bloomLen ← uint32At data 44
    failIf (data.length - metaHeaderSize < (minLen + maxLen).toNat) .badMeta
    let minEnd := metaHeaderSize + minLen.toNat
    let minKey ← sub data metaHeaderSize minEnd
    let maxKey ← sub data minEnd (minEnd + maxLen.toNat)
    return ⟨minKey, maxKey, entryCount, seqMin, seqMax, comp, bloomBits, bloomK, bloomOffset,
      bloomLen⟩

/-! ## The footer -/

/-- `Footer`. -/
structure Footer where
  flags : UInt8
  indexOffset : UInt64
  indexLen : UInt32
  metaOffset : UInt64
  metaLen : UInt32
  deriving DecidableEq, Repr

def footerFlagIndexPartitioned : UInt8 := 1
def footerFlagFilterPartitioned : UInt8 := 2

/-- What the checksum of the footer covers: the magic, the version, the
flags, two bytes of zero and the places of the index and metadata. -/
def footerBody (f : Footer) : Bytes :=
  fileMagic ++ ([1, f.flags, 0, 0] ++ (leBytes 8 f.indexOffset.toNat ++
    (leBytes 4 f.indexLen.toNat ++ (leBytes 8 f.metaOffset.toNat ++ leBytes 4 f.metaLen.toNat))))

/-- `EncodeFooter`. -/
def encodeFooter (f : Footer) : Bytes :=
  footerBody f ++ leBytes 4 (crc32c (footerBody f)).toNat

/-- `DecodeFooter`. -/
def decodeFooter (buf : Bytes) : Except Fault Footer := do
  failIf (buf.length ≠ footerSizeBytes) .badFooter
  failIf (buf.take 4 ≠ fileMagic) .badMagic
  let expected ← uint32At buf 32
  let body ← sub buf 0 32
  failIf (crc32c body ≠ expected) .badFooter
  let flags ← byteAt buf 5
  let indexOffset ← uint64At buf 8
  let indexLen ← uint32At buf 16
  let metaOffset ← uint64At buf 20
  let metaLen ← uint32At buf 28
  return ⟨flags, indexOffset, indexLen, metaOffset, metaLen⟩

end LSMEngine.Format
