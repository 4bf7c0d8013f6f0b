import LSMEngine.Common.Bytes
/-!
# CRC-32

The checksums of `hash/crc32`, bit by bit: a reflected polynomial, the
register started and finished with all ones. Writing to a hash in pieces
is hashing the concatenation, so a checksum over several buffers is that
of their append.
-/

namespace LSMEngine

/-- One shift of the CRC register. -/
def crcBit (poly c : UInt32) : UInt32 :=
  if c &&& 1 = 1 then (c >>> 1) ^^^ poly else c >>> 1

/-- The register after one byte. -/
def crcByte (poly c : UInt32) (b : UInt8) : UInt32 :=
  (crcBit poly)^[8] (c ^^^ b.toUInt32)

/-- The checksum by a polynomial. -/
def crc (poly : UInt32) (bs : Bytes) : UInt32 :=
  bs.foldl (crcByte poly) 0xFFFFFFFF ^^^ 0xFFFFFFFF

/-- `crc32.ChecksumIEEE`. -/
def crc32 (bs : Bytes) : UInt32 := crc 0xEDB88320 bs

/-- `crc32.Checksum` with the Castagnoli table. -/
def crc32c (bs : Bytes) : UInt32 := crc 0x82F63B78 bs

/-- The check values of the catalogue entries: the digits `123456789`. -/
example : crc32 [0x31, 0x32, 0x33, 0x34, 0x35, 0x36, 0x37, 0x38, 0x39] = 0xCBF43926 := by
  decide +kernel

example : crc32c [0x31, 0x32, 0x33, 0x34, 0x35, 0x36, 0x37, 0x38, 0x39] = 0xE3069283 := by
  decide +kernel

end LSMEngine
