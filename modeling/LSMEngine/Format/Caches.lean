import LSMEngine.Format.Model.Reader
/-!
# Format — reads through the caches

A cache knows a block by its offset alone. In a reader whose index never
names one offset with two lengths (`Coherent`), caches that only hold
what the source has (`Sound`) stay so, and a read through them returns
what the source has, or what the read came to (`fetchBlock_keeps`,
`fetchIndex_keeps`, `fetchFilter_keeps`). The read may be one from a
worse source. Whatever relates the reads of blocks of two sources relates
the lookups over them (`getViewContext_refines`); the caches relate them
to the reads of a reader without any (`fetches_bare`).
-/

namespace LSMEngine.Format

/-! ## What the caches hold -/

/-- An entry of the index that names a data block. -/
def DataEntry (P : Platform) (src : Source) (r : Reader) (e : IndexEntry) : Prop :=
  if r.partitioned then ∃ t ∈ r.top, ∃ part, readIndexBlock P src t = .ok part ∧ e ∈ part
  else e ∈ r.top

/-- No offset is named with two lengths. -/
structure Coherent (P : Platform) (src : Source) (r : Reader) : Prop where
  data : ∀ e e', DataEntry P src r e → DataEntry P src r e' → e.offset = e'.offset →
    e.length = e'.length
  top : ∀ e ∈ r.top, ∀ e' ∈ r.top, e.offset = e'.offset → e.length = e'.length
  filters : ∀ e ∈ r.filterIndex, ∀ e' ∈ r.filterIndex, e.offset = e'.offset →
    e.length = e'.length

/-- The caches hold what the source has. -/
structure Sound (P : Platform) (src : Source) (r : Reader) (s : State) : Prop where
  blocks : ∀ c ∈ s.blocks, Lru.All (fun off v => ∀ e, DataEntry P src r e → e.offset = off →
    readDataBlock P src e = .ok v) c
  indexes : ∀ c ∈ s.indexes, Lru.All (fun off v => ∀ e ∈ r.top, e.offset = off →
    readIndexBlock P src e = .ok v) c
  filters : ∀ c ∈ s.filters, Lru.All (fun off v => ∀ e ∈ r.filterIndex, e.offset = off →
    readFilterBlock P src e = .ok v) c

/-- The worse of two outcomes: the same, or an error. -/
abbrev Worse {α : Type} (x' x : Except Fault α) : Prop :=
  x' = x ∨ ∃ f, f ≠ .panic ∧ x' = .error f

/-- The worse of two sources: a read of a block comes to the same, or
fails with an error. -/
def Degrades (P : Platform) (src src' : Source) : Prop :=
  ∀ offset length typ errBad, errBad ≠ .panic →
    Worse (readBlockPayload P src' offset length typ errBad)
      (readBlockPayload P src offset length typ errBad)

theorem Degrades.refl (P : Platform) (src : Source) : Degrades P src src :=
  fun _ _ _ _ _ => .inl rfl

theorem all_addBlock {Q : UInt64 → Block → Prop} {c : Lru UInt64 Block} {key : UInt64} {v : Block}
    (hc : c.All Q) (hv : Q key v) : (addBlock c key v).All Q := by
  unfold addBlock
  split
  · next s hs => exact hc.toFront (s := { s with value := v }) ((Lru.find_some hs).2 ▸ hv)
  · exact hc.push hv

theorem all_addSized {α : Type} {Q : UInt64 → α → Prop} {size : α → ℤ} {c : Lru UInt64 α}
    {key : UInt64} {v : α} (hc : c.All Q) (hv : Q key v) : (addSized size c key v).All Q := by
  unfold addSized
  split
  · exact Lru.All.evictLoop _ fun t ht => hc.toFront (s := ⟨key, v, size v⟩) hv t ht
  · exact hc.push hv

theorem all_addIndex {Q : UInt64 → List IndexEntry → Prop} {c : Lru UInt64 (List IndexEntry)}
    {key : UInt64} {v : List IndexEntry} (hc : c.All Q) (hv : Q key v) :
    (addIndex c key v).All Q := by
  unfold addIndex
  split
  · exact hc
  · exact all_addSized hc hv

/-! ## Reads -/

section Reads

variable {P : Platform} {src src' : Source} {r : Reader} {e : IndexEntry}

section

variable (h : Degrades P src src')
include h

/-- A read of a whole block of a worse source. -/
theorem Degrades.read {α : Type} (typ : BlockType) {errBad : Fault} (hbad : errBad ≠ .panic)
    (f : Bytes → Except Fault α) (offset : UInt64) (length : UInt32) :
    Worse (do f (← readBlockPayload P src' offset length typ errBad))
      (do f (← readBlockPayload P src offset length typ errBad)) := by
  rcases h offset length typ errBad hbad with heq | ⟨g, hg, herr⟩
  · exact .inl (by rw [heq])
  · exact .inr ⟨g, hg, by rw [herr]; rfl⟩

theorem Degrades.data (e : IndexEntry) :
    Worse (readDataBlock P src' e) (readDataBlock P src e) :=
  h.read .data (by decide) decode e.offset e.length

theorem Degrades.index (e : IndexEntry) :
    Worse (readIndexBlock P src' e) (readIndexBlock P src e) :=
  h.read .index (by decide) decodeIndex e.offset e.length

theorem Degrades.filter (e : IndexEntry) :
    Worse (readFilterBlock P src' e) (readFilterBlock P src e) :=
  h.read .filter (by decide) decodeFilterBlock e.offset e.length

end

/-- A successful read of a worse source is one of the better. -/
theorem ok_of_degraded {α : Type} {x' x : Except Fault α} (h : Worse x' x) {v : α}
    (hv : x' = .ok v) : x = .ok v := by
  rcases h with rfl | ⟨f, -, hf⟩
  · exact hv
  · rw [hf] at hv
    cases hv

/-- A worse source names no more blocks. -/
theorem DataEntry.of_degrades (h : Degrades P src src') (he : DataEntry P src' r e) :
    DataEntry P src r e := by
  unfold DataEntry at he ⊢
  split at he
  · next hpart =>
    obtain ⟨t, ht, part, hread, hmem⟩ := he
    rw [if_pos hpart]
    exact ⟨t, ht, part, ok_of_degraded (h.index t) hread, hmem⟩
  · next hpart =>
    rw [if_neg hpart]
    exact he

theorem Coherent.of_degrades (hco : Coherent P src r) (h : Degrades P src src') :
    Coherent P src' r :=
  ⟨fun e e' he he' => hco.data e e' (he.of_degrades h) (he'.of_degrades h), hco.top, hco.filters⟩

/-- A read through a cache of blocks of one kind, whose entries name no
offset with two lengths. -/
theorem fetch_good {α : Type} {S : IndexEntry → Prop} {read read' : IndexEntry → Except Fault α}
    {add : Lru UInt64 α → UInt64 → α → Lru UInt64 α}
    (hadd : ∀ (Q : UInt64 → α → Prop) c key v, c.All Q → Q key v → (add c key v).All Q)
    (hread : ∀ e e', e.offset = e'.offset → e.length = e'.length → read e = read e')
    (hlen : ∀ e e', S e → S e' → e.offset = e'.offset → e.length = e'.length)
    (hdeg : ∀ v, read' e = .ok v → read e = .ok v) (he : S e) {c : Option (Lru UInt64 α)}
    (hc : ∀ d ∈ c, Lru.All (fun off v => ∀ e, S e → e.offset = off → read e = .ok v) d) :
    ((Lru.fetch c add e.offset (read' e)).1 = read e ∨
        (Lru.fetch c add e.offset (read' e)).1 = read' e) ∧
      ∀ d ∈ (Lru.fetch c add e.offset (read' e)).2,
        Lru.All (fun off v => ∀ e, S e → e.offset = off → read e = .ok v) d := by
  obtain ⟨hval, hall⟩ := Lru.fetch_cases add e.offset (read' e) hc
    (fun v hv e' he' hoff => (hread e' e hoff (hlen e' e he' he hoff)).trans (hdeg v hv))
    fun d v => hadd _ d _ v
  refine ⟨?_, hall⟩
  rcases hval with ⟨v, hv, hQ⟩ | hval
  · exact .inl (hv.trans (hQ e he rfl).symm)
  · exact .inr hval

section

variable (hco : Coherent P src r) (hdeg : Degrades P src src')
include hco hdeg

theorem fetchBlock_keeps (he : DataEntry P src r e) :
    Prog.Keeps (Sound P src r) (fetchBlock P src' e)
      (fun x => x = readDataBlock P src e ∨ x = readDataBlock P src' e) := by
  intro s hs
  obtain ⟨hval, hall⟩ := fetch_good (fun _ _ _ _ hc hv => all_addBlock hc hv)
    (fun e e' hoff hlen => by rw [readDataBlock, readDataBlock, hoff, hlen]) hco.data
    (fun _ hv => ok_of_degraded (hdeg.data e) hv) he hs.blocks
  exact ⟨hval, ⟨hall, hs.indexes, hs.filters⟩⟩

theorem fetchIndex_keeps (he : e ∈ r.top) :
    Prog.Keeps (Sound P src r) (fetchIndex P src' e)
      (fun x => x = readIndexBlock P src e ∨ x = readIndexBlock P src' e) := by
  intro s hs
  obtain ⟨hval, hall⟩ := fetch_good (fun _ _ _ _ hc hv => all_addIndex hc hv)
    (fun e e' hoff hlen => by rw [readIndexBlock, readIndexBlock, hoff, hlen])
    (fun e e' he he' => hco.top e he e' he')
    (fun _ hv => ok_of_degraded (hdeg.index e) hv) he hs.indexes
  exact ⟨hval, ⟨hs.blocks, hall, hs.filters⟩⟩

theorem fetchFilter_keeps (he : e ∈ r.filterIndex) :
    Prog.Keeps (Sound P src r) (fetchFilter P src' e)
      (fun x => x = readFilterBlock P src e ∨ x = readFilterBlock P src' e) := by
  intro s hs
  obtain ⟨hval, hall⟩ := fetch_good (fun _ _ _ _ hc hv => all_addSized hc hv)
    (fun e e' hoff hlen => by rw [readFilterBlock, readFilterBlock, hoff, hlen])
    (fun e e' he he' => hco.filters e he e' he')
    (fun _ hv => ok_of_degraded (hdeg.filter e) hv) he hs.filters
  exact ⟨hval, ⟨hs.blocks, hs.indexes, hall⟩⟩

end

end Reads

/-! ## Lookups in lockstep -/

theorem mem_of_entryAt {entries : List IndexEntry} {i : ℕ} {e : IndexEntry}
    (h : entryAt entries i = .ok e) : e ∈ entries := by
  unfold entryAt at h
  split at h
  · next hget => exact Except.ok.inj h ▸ List.mem_of_getElem? hget
  · cases h

/-- Reads over one source that refine those over another, of the blocks in
`D`, which are those the index leads to. -/
structure Fetches (L : Prog.Link State Fault) (P : Platform) (src' src : Source) (r : Reader)
    (D : IndexEntry → Prop) : Prop where
  block : ∀ e, D e → Prog.Refines L (fetchBlock P src' e) (fetchBlock P src e) fun _ => True
  index : ∀ e ∈ r.top, r.partitioned = true →
    Prog.Refines L (fetchIndex P src' e) (fetchIndex P src e) fun part => ∀ d ∈ part, D d
  filter : ∀ e ∈ r.filterIndex,
    Prog.Refines L (fetchFilter P src' e) (fetchFilter P src e) fun _ => True
  top : ¬ r.partitioned = true → ∀ e ∈ r.top, D e

section Lockstep

variable {L : Prog.Link State Fault} {P : Platform} {src src' : Source} {r : Reader}
  {D : IndexEntry → Prop}

section

variable (h : Fetches L P src' src r D)
include h

theorem mayContain_refines (key : Bytes) :
    Prog.Refines L (r.mayContain P src' key) (r.mayContain P src key) fun _ => True := by
  unfold Reader.mayContain
  split
  · split
    · exact .pure trivial
    · refine .bind (Q := (· ∈ r.filterIndex)) (.lift fun e he => mem_of_entryAt he) fun e he => ?_
      exact (h.filter e he).bind fun f _ => .lift fun _ _ => trivial
  · split
    · exact .pure trivial
    · exact .lift fun _ _ => trivial

/-- The index leads to its own entries. -/
theorem find_refines (key : Bytes) :
    Prog.Refines L (r.find P src' key) (r.find P src key) fun found => ∀ e ∈ found, D e := by
  have hsome : ∀ {e}, D e → ∀ d ∈ some e, D d := fun {e} he d hd => Option.some.inj hd ▸ he
  unfold Reader.find
  split
  · exact .pure (by simp)
  · refine .bind (Q := (· ∈ r.top)) (.lift fun e he => mem_of_entryAt he) fun t ht => ?_
    split
    · next hpart =>
      refine (h.index t ht hpart).bind fun part hD => ?_
      split
      · exact .pure (by simp)
      · refine .bind (Q := (· ∈ part)) (.lift fun e he => mem_of_entryAt he) fun d hd => ?_
        exact .pure (hsome (hD d hd))
    · next hpart => exact .pure (hsome (h.top hpart t ht))

theorem readBlockEntry_refines {e : IndexEntry} (he : D e) :
    Prog.Refines L (r.readBlockEntry P src' e) (r.readBlockEntry P src e) fun _ => True :=
  .bind (Q := fun _ => True) (.lift fun _ _ => trivial) fun _ _ => h.block e he

theorem pipelineGet_refines (key : Bytes) :
    Prog.Refines L (r.pipelineGet P src' key) (r.pipelineGet P src key) fun _ => True := by
  refine (mayContain_refines h key).bind fun may _ => ?_
  split
  · refine (find_refines h key).bind fun found hfound => ?_
    split
    · exact .pure trivial
    · next e =>
      exact (readBlockEntry_refines h (hfound e rfl)).bind fun blk _ => .lift fun _ _ => trivial
  · exact .pure trivial

/-- **Lookups.** -/
theorem getViewContext_refines (ctx : Option Fault) (key : Bytes) :
    Prog.Refines L (r.getViewContext P src' ctx key) (r.getViewContext P src ctx key)
      fun _ => True := by
  unfold Reader.getViewContext
  split
  · exact .throw _
  · split
    · exact .pure trivial
    · exact pipelineGet_refines h key

end

end Lockstep

/-! ## Without the caches -/

section

variable {P : Platform} {src src' : Source} {r : Reader}

/-- A reader without caches. -/
def bare : State := ⟨false, none, none, none⟩

/-- **The caches do not matter**: a read comes to what it comes to without
them, or is the failure of a worse source. Reads leave the mark of a
dropped table alone. -/
theorem fetches_bare (hco : Coherent P src r) (h : Degrades P src src') {Bad : Fault → Prop}
    (hbad : src' = src ∨ ∀ f, f ≠ .panic → Bad f) (J : Bool → Prop) :
    Fetches (.fixed (fun s => Sound P src r s ∧ J s.dropped) bare Bad) P src' src r
      (DataEntry P src r) := by
  have hworse : ∀ {α : Type} (read : Source → Except Fault α),
      Worse (read src') (read src) → read src' = read src ∨ ∃ f, Bad f ∧ read src' = .error f := by
    intro α read hread
    rcases hbad with rfl | hbad
    · exact .inl rfl
    · exact hread.imp id fun ⟨f, hf, he⟩ => ⟨f, hbad f hf, he⟩
  refine ⟨fun e he => ?_, fun e he hpart => ?_, fun e he => ?_, fun hpart e he => ?_⟩
  · refine .of_keeps (fun s hs => ?_) (hworse (readDataBlock P · e) (h.data e)) rfl
      fun _ _ => trivial
    have hkeeps := fetchBlock_keeps hco h he s hs.1
    exact ⟨hkeeps.1, hkeeps.2, hs.2⟩
  · refine .of_keeps (fun s hs => ?_) (hworse (readIndexBlock P · e) (h.index e)) rfl
      fun part hread d hd => ?_
    · have hkeeps := fetchIndex_keeps hco h he s hs.1
      exact ⟨hkeeps.1, hkeeps.2, hs.2⟩
    · rw [DataEntry, if_pos hpart]
      exact ⟨e, he, part, hread, hd⟩
  · refine .of_keeps (fun s hs => ?_) (hworse (readFilterBlock P · e) (h.filter e)) rfl
      fun _ _ => trivial
    have hkeeps := fetchFilter_keeps hco h he s hs.1
    exact ⟨hkeeps.1, hkeeps.2, hs.2⟩
  · rw [DataEntry, if_neg hpart]
    exact he

/-- The caches hold what the source has, and the table is in use. -/
def Live (P : Platform) (src : Source) (r : Reader) (s : State) : Prop :=
  Sound P src r s ∧ s.dropped = false

/-- A reader in use, and one without caches. -/
abbrev live (P : Platform) (src : Source) (r : Reader) : Prog.Link State Fault :=
  .fixed (Live P src r) bare fun _ => False

theorem fetches_live (hco : Coherent P src r) :
    Fetches (live P src r) P src src r (DataEntry P src r) :=
  fetches_bare hco (.refl P src) (.inl rfl) (· = false)

end

end LSMEngine.Format
