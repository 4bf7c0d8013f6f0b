import LSMEngine.Format.Caches
import LSMEngine.Format.Fields
/-!
# Format — lookups with reads that fail

A read of a block may fail, and it may return bytes whose checksum does
not match (`Faulty`). `GetViewContext` over such a source returns an
error, or exactly what it returns over the intact one, from the same
state and leaving the same (`getViewContext_agrees`). The caches only
take what was read well, so the answer does not depend on what failed
before either (`getViewContext_bare`).
-/

namespace LSMEngine.Format

/-! ## Sources -/

/-- The checksum in the last bytes. -/
def storedChecksum (data : Bytes) : UInt32 := UInt32.ofNat (leNat (data.drop (data.length - 4)))

/-- Bytes that are not a frame: too few, or with a checksum that does not
match. -/
def Corrupt (data : Bytes) : Prop :=
  data.length < 5 ∨ crc32c (data.take (data.length - 4)) ≠ storedChecksum data

/-- A source that fails here and there: every read returns what the
intact one does, an error, or corrupt bytes. -/
def Faulty (good bad : Source) : Prop :=
  ∀ offset length, bad offset length = good offset length ∨
    (∃ f, f ≠ .panic ∧ bad offset length = .error f) ∨
    ∃ data, Corrupt data ∧ bad offset length = .ok data

theorem sub_of_le {b : Bytes} {i j : ℕ} (hij : i ≤ j) (hj : j ≤ b.length) :
    sub b i j = .ok ((b.drop i).take (j - i)) := by
  rw [sub, slice_of_le hij hj]

/-- **Corrupt bytes are detected.** -/
theorem decodeBlockPayload_corrupt {data : Bytes} (h : Corrupt data) (P : Platform)
    (typ : BlockType) (errBad : Fault) : decodeBlockPayload P data typ errBad = .error errBad := by
  have hthrow : ∀ {c : Prop} [Decidable c] {α : Type} {f : Unit → Except Fault α}, c →
      (failIf c errBad >>= f) = .error errBad := fun {c _ α f} hc => by
    rw [failIf, if_pos hc]
    rfl
  rw [decodeBlockPayload]
  by_cases hshort : data.length < blockTypeSize + blockCRCLen
  · exact hthrow hshort
  · rw [failIf_neg hshort, ok_bind]
    rw [blockTypeSize, blockCRCLen] at hshort ⊢
    obtain ⟨x, hx⟩ : ∃ x, byteAt data (data.length - 1 - 4) = .ok x := by
      rw [byteAt, List.getElem?_eq_getElem (by omega)]
      exact ⟨_, rfl⟩
    dsimp only
    rw [hx, ok_bind]
    by_cases htyp : x ≠ typ.byte
    · exact hthrow htyp
    · have hstored : uint32At data (data.length - 4) = .ok (storedChecksum data) := by
        rw [uint32At, sub_of_le (by omega) (by omega), ok_bind,
          List.take_of_length_le (by rw [List.length_drop]; omega)]
        rfl
      have hbody : sub data 0 (data.length - 4) = .ok (data.take (data.length - 4)) := by
        rw [sub_of_le (by omega) (by omega)]
        rfl
      rw [failIf_neg htyp, ok_bind, hstored, ok_bind, hbody, ok_bind]
      exact hthrow (h.resolve_left (by omega))

theorem Faulty.degrades {good bad : Source} (h : Faulty good bad) (P : Platform) :
    Degrades P good bad := by
  intro offset length typ errBad hbad
  rcases h offset length with heq | ⟨f, hf, herr⟩ | ⟨data, hdata, hok⟩
  · left
    rw [readBlockPayload, readBlockPayload, heq]
  · right
    by_cases heof : f = .eof
    · exact ⟨errBad, hbad, by rw [readBlockPayload, herr, heof]; rfl⟩
    · refine ⟨f, hf, ?_⟩
      have heofAs : eofAs errBad (.error f) = .error f := by
        unfold eofAs
        split
        · next hsame => exact absurd (Except.error.inj hsame) heof
        · rfl
      rw [readBlockPayload, herr, heofAs]
      rfl
  · right
    exact ⟨errBad, hbad, by rw [readBlockPayload, hok]; exact decodeBlockPayload_corrupt hdata ..⟩

/-! ## In lockstep -/

section

variable {P : Platform} {src src' : Source}

/-- Not a panic. -/
def IsError (f : Fault) : Prop := f ≠ .panic

/-- A read that fails leaves a cache hit as it is, and is the failure of
a miss. -/
theorem fetch_agrees {α : Type} (add : Lru UInt64 α → UInt64 → α → Lru UInt64 α) (key : UInt64)
    {read read' : Except Fault α} (h : Worse read' read) (c : Option (Lru UInt64 α)) :
    Lru.fetch c add key read' = Lru.fetch c add key read ∨
      ∃ f, IsError f ∧ (Lru.fetch c add key read').1 = .error f := by
  rcases h with rfl | ⟨f, hf, rfl⟩
  · exact .inl rfl
  · match c with
    | none => exact .inr ⟨f, hf, rfl⟩
    | some c =>
      rcases hget : c.get key with ⟨v | v, d⟩
      · refine .inr ⟨f, hf, ?_⟩
        simp only [Lru.fetch, hget]
      · refine .inl ?_
        simp only [Lru.fetch, hget]

/-- From one state to one state, or to a failure. -/
def lockstep : Prog.Link State Fault := ⟨(· = ·), IsError, fun _ => True⟩

theorem fetches_lockstep (h : Degrades P src src') (r : Reader) :
    Fetches lockstep P src' src r fun _ => True := by
  refine ⟨fun e _ => ?_, fun e _ _ => ?_, fun e _ => ?_, fun _ _ _ => trivial⟩
  · rintro s _ rfl
    rcases fetch_agrees addBlock e.offset (h.data e) s.blocks with heq | ⟨f, hf, herr⟩
    · simp only [fetchBlock, Prog.exec_mk, heq]
      exact .inl ⟨trivial, rfl, fun _ _ => trivial⟩
    · exact .inr ⟨f, hf, herr, trivial⟩
  · rintro s _ rfl
    rcases fetch_agrees addIndex e.offset (h.index e) s.indexes with heq | ⟨f, hf, herr⟩
    · simp only [fetchIndex, Prog.exec_mk, heq]
      exact .inl ⟨trivial, rfl, fun _ _ _ _ => trivial⟩
    · exact .inr ⟨f, hf, herr, trivial⟩
  · rintro s _ rfl
    rcases fetch_agrees addFilter e.offset (h.filter e) s.filters with heq | ⟨f, hf, herr⟩
    · simp only [fetchFilter, Prog.exec_mk, heq]
      exact .inl ⟨trivial, rfl, fun _ _ => trivial⟩
    · exact .inr ⟨f, hf, herr, trivial⟩

/-- **A lookup fails or agrees.** -/
theorem getViewContext_agrees (h : Degrades P src src') (r : Reader) (ctx : Option Fault)
    (key : Bytes) (s : State) :
    (r.getViewContext P src' ctx key).exec s = (r.getViewContext P src ctx key).exec s ∨
      ∃ f, IsError f ∧ ((r.getViewContext P src' ctx key).exec s).1 = .error f := by
  rcases getViewContext_refines (fetches_lockstep h r) ctx key s s rfl with
    ⟨hout, hstate, -⟩ | ⟨f, hf, herr, -⟩
  · exact .inl (Prod.ext hout hstate)
  · exact .inr ⟨f, hf, herr⟩

/-- **The caches do not matter.** A lookup fails, or finds what it finds
without them. -/
theorem getViewContext_bare {r : Reader} (hco : Coherent P src r) (h : Degrades P src src')
    (ctx : Option Fault) (key : Bytes) {s : State} (hs : Sound P src r s) :
    (((r.getViewContext P src' ctx key).exec s).1 = ((r.getViewContext P src ctx key).exec bare).1 ∨
        ∃ f, IsError f ∧ ((r.getViewContext P src' ctx key).exec s).1 = .error f) ∧
      Sound P src r ((r.getViewContext P src' ctx key).exec s).2 := by
  rcases getViewContext_refines (fetches_bare hco h (.inr fun _ hf => hf) fun _ => True) ctx key
      s bare ⟨⟨hs, trivial⟩, rfl⟩ with ⟨hout, hstate, -⟩ | ⟨f, hf, herr, hstate⟩
  · exact ⟨.inl hout, hstate.1.1⟩
  · exact ⟨.inr ⟨f, hf, herr⟩, hstate.1⟩

end

end LSMEngine.Format
