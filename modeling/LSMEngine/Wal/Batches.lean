import LSMEngine.Wal.Async
/-!
# WAL — batches are appends

The writer of an async log packs the records of a batch into as few
blocks as there is room for; a synchronous log writes a block for each.
Both answer a request with what validation says of it, and a replay
delivers the same entries: those of the valid requests, in the order in
which the writer took them (`async_eq_sync`). That is so in every run of
the goroutines in which no I/O fails, however the requests are cut into
batches, and in the drain of a close as well.
-/

namespace LSMEngine.Wal

variable {σ : Type} {base : String} {s s' : World} {held pending es : List Entry} {e : Entry}

/-! ## One request -/

/-- The entries that validation lets through. -/
def accepted (blockSize : UInt32) (maxRecord : UInt64) (es : List Entry) : List Entry :=
  es.filter fun e => (validateEntry blockSize maxRecord e).isNone

/-- The log holds these entries, the last of them in the open block. -/
structure Carries (base : String) (s : World) (es : List Entry) : Prop where
  intact : ∃ held pending, Intact base s held [] pending ∧ held ++ pending = es
  noFault : s.disk.writeFaults = []

/-- All of them are in the files. -/
structure Flushed (base : String) (s : World) (es : List Entry) : Prop where
  intact : Intact base s es [] []
  noFault : s.disk.writeFaults = []

theorem Flushed.carries (h : Flushed base s es) : Carries base s es :=
  ⟨⟨es, [], h.intact, List.append_nil es⟩, h.noFault⟩

/-- A valid request joins the block, behind a flush where it has to. -/
theorem Carries.appendLocked (h : Carries base s es)
    (hv : validateEntry s.wal.blockSize s.wal.maxRecord e = none) :
    (∃ ctx s', appendLocked e s = (some (.io ctx), s')) ∨
      ∃ s', appendLocked e s = (none, s') ∧ Carries base s' (es ++ [e]) := by
  obtain ⟨⟨held, pending, hI, rfl⟩, hw⟩ := h
  have hf := hI.f_ne_none
  have hsize := recordSize_le_of_validateEntry hv
  by_cases hfit : s.wal.blockLen = 0 ∨ s.wal.blockLen + recordSize e ≤ s.wal.blockSize.toNat
  · refine Or.inr ⟨_, appendLocked_fits hf hv hfit,
      ⟨held, pending ++ [e], hI.push ?_, (List.append_assoc _ _ _).symm⟩, hw⟩
    omega
  obtain ⟨hpos, hfull⟩ := not_or.mp hfit
  have hp : pending ≠ [] := by
    rintro rfl
    exact hpos hI.blockLen
  have hwrite : s.disk.writeFault.1 = none := by rw [Disk.writeFault, hw]
  have hconf := (stable_sameConfig s).flushBlock (.refl s)
  obtain ⟨htail, hres⟩ := flushBlock_ok hI hp hwrite
  rw [appendLocked_full hf hv (Nat.pos_of_ne_zero hpos) (Nat.lt_of_not_le hfull)]
  obtain ⟨o, s', hflush⟩ : ∃ o s', flushBlock s = (o, s') := ⟨_, _, rfl⟩
  rw [hflush] at hconf htail hres ⊢
  rcases hres with ⟨rfl, hI'⟩ | ⟨⟨ctx, rfl⟩, -⟩
  · refine Or.inr ⟨_, rfl, ⟨held ++ pending, [] ++ [e], hI'.push ?_, rfl⟩, ?_⟩
    · have h0 : s'.wal.blockLen = 0 := hI'.blockLen
      rw [h0, hconf.blockSize]
      omega
    · rw [show (s'.push e).disk = s'.disk from rfl, htail, hw]
      rfl
  · exact Or.inl ⟨ctx, s', rfl⟩

/-! ## Batches -/

theorem accepted_cons (blockSize : UInt32) (maxRecord : UInt64) (e : Entry) (es : List Entry) :
    accepted blockSize maxRecord (e :: es) =
      (if validateEntry blockSize maxRecord e = none then [e] else []) ++
        accepted blockSize maxRecord es := by
  rw [accepted, accepted]
  cases hv : validateEntry blockSize maxRecord e with
  | none => rw [List.filter_cons_of_pos (by rw [hv]; rfl), if_pos rfl, List.singleton_append]
  | some err => rw [List.filter_cons_of_neg (by rw [hv]; exact Bool.false_ne_true),
      if_neg (Option.some_ne_none err), List.nil_append]

/-- **A batch adds its valid entries**, and tells each request what
validation says of it, unless a block of the batch cannot be written. -/
theorem Carries.appendBatch (h : Carries base s es) (batch : List Entry) :
    (∃ ctx, (appendBatch batch s).2.1 = some (.io ctx)) ∨
      (appendBatch batch s).1 = batch.map (validateEntry s.wal.blockSize s.wal.maxRecord) ∧
      (appendBatch batch s).2.1 = none ∧
      Carries base (appendBatch batch s).2.2
        (es ++ accepted s.wal.blockSize s.wal.maxRecord batch) := by
  induction batch generalizing s es with
  | nil =>
    refine Or.inr ⟨rfl, rfl, ?_⟩
    rw [show accepted s.wal.blockSize s.wal.maxRecord [] = [] from rfl, List.append_nil]
    exact h
  | cons e batch ih =>
    rw [accepted_cons, List.map_cons, Wal.appendBatch]
    cases hv : validateEntry s.wal.blockSize s.wal.maxRecord e with
    | some err =>
      -- the log is as it was for the rest of the batch
      obtain ⟨_, _, hI, -⟩ := h.intact
      simp only [appendLocked_invalid hI.f_ne_none hv, isFatalAppendError_of_validateEntry hv,
        Bool.false_eq_true, if_false, reduceCtorEq, List.nil_append]
      rcases ih h with hio | ⟨htold, hrest⟩
      · exact Or.inl hio
      · exact Or.inr ⟨congrArg _ htold, hrest⟩
    | none =>
      have hconf := (stable_sameConfig s).appendLocked e (.refl s)
      rcases h.appendLocked hv with ⟨ctx, s', happend⟩ | ⟨s', happend, h'⟩
      · refine Or.inl ⟨ctx, ?_⟩
        simp only [happend]
        rfl
      · rw [happend] at hconf
        simp only [happend, if_true, ← List.append_assoc]
        rw [← hconf.blockSize, ← hconf.maxRecord]
        rcases ih h' with hio | ⟨htold, hrest⟩
        · exact Or.inl hio
        · exact Or.inr ⟨congrArg _ htold, hrest⟩

/-- The flush behind a batch. -/
theorem Carries.flushAndSync (h : Carries base s es) (syncNow : Bool) :
    (∃ ctx, (flushAndSync syncNow s).1 = some (.io ctx)) ∨
      (flushAndSync syncNow s).1 = none ∧ Flushed base (flushAndSync syncNow s).2 es := by
  obtain ⟨⟨held, pending, hI, rfl⟩, hw⟩ := h
  by_cases hp : pending = []
  · subst hp
    rw [List.append_nil]
    simp only [Wal.flushAndSync, flushBlock_empty hI]
    cases syncNow with
    | false => exact Or.inr ⟨rfl, hI, hw⟩
    | true =>
      obtain ⟨hnone, hfaults, hI'⟩ := syncFile_spec hI
      exact Or.inr ⟨hnone, hI', hfaults.trans hw⟩
  · have hwrite : s.disk.writeFault.1 = none := by rw [Disk.writeFault, hw]
    obtain ⟨htail, ⟨hnone, hI'⟩ | ⟨hio, -⟩⟩ := flushAndSync_ok hI hp hwrite syncNow
    · exact Or.inr ⟨hnone, hI', by rw [htail, hw]; rfl⟩
    · exact Or.inl hio

/-- **A processed batch**: its answers are those of validation, and its
valid entries are in the files. -/
theorem Flushed.processBatch (h : Flushed base s es) (batch : List Entry) (syncNow : Bool) :
    (∃ ctx, (processBatch batch syncNow s).2.1 = some (.io ctx)) ∨
      (processBatch batch syncNow s).1.errs =
        batch.map (validateEntry s.wal.blockSize s.wal.maxRecord) ∧
      (processBatch batch syncNow s).2.1 = none ∧
      Flushed base (processBatch batch syncNow s).2.2
        (es ++ accepted s.wal.blockSize s.wal.maxRecord batch) := by
  rcases h.carries.appendBatch batch with ⟨ctx, hio⟩ | ⟨htold, hnone, hcarries⟩
  · refine Or.inl ⟨ctx, ?_⟩
    simp only [Wal.processBatch, hio]
  · simp only [Wal.processBatch, hnone]
    rcases hcarries.flushAndSync syncNow with hio | ⟨hdone, hflushed⟩
    · exact Or.inl hio
    · refine Or.inr ⟨?_, hdone, hflushed⟩
      rw [hdone, htold, List.map_map]
      refine List.map_congr_left fun e _ => ?_
      cases hv : validateEntry s.wal.blockSize s.wal.maxRecord e with
      | none => simp [hv]
      | some err => simp [hv]

/-- The end of a drain: what the files hold stays there. -/
theorem Flushed.finishClose (h : Flushed base s es) :
    ∃ w, Flushed base ⟨w, (finishClose s).2.disk⟩ es := by
  rcases h.carries.flushAndSync s.wal.sync with ⟨ctx, hio⟩ | ⟨-, hflushed⟩
  · -- nothing is left to write, so the flush cannot fail
    obtain ⟨hnone, -⟩ := syncFile_spec h.intact
    simp only [Wal.flushAndSync, flushBlock_empty h.intact] at hio
    split at hio
    · rw [hnone] at hio
      cases hio
    · cases hio
  · obtain ⟨k, hf⟩ := hflushed.intact.handle
    simp only [Wal.finishClose, closeFile, hf, close_of_nil hflushed.intact.noFault]
    exact ⟨_, hflushed⟩

namespace Async

variable {blockSize : UInt32} {maxRecord : UInt64} {t t' : State} {a : Step}

/-! ## The writer -/

/-- The replies a writer is about to give. -/
def Writer.telling : Writer → List (ℕ × Option Err)
  | .reply rest _ _ => rest
  | _ => []

/-- What the requests are told, those still to be told included. -/
def State.told (t : State) : List (ℕ × Option Err) := t.replies ++ t.writer.telling

/-- The requests that the step processes. -/
def State.served (t : State) : Step → List Request
  | .advance =>
    match t.writer with
    | .process batch _ => batch
    | _ => []
  | _ => []

/-- The requests that a run processes, in the order in which the writer
has taken them from the channel. -/
def processed (t : State) : List Step → List Request
  | [] => []
  | a :: as => t.served a ++ ((act t a).map fun t' => processed t' as).getD []

/-- What validation says of a request. -/
def Request.verdict (blockSize : UInt32) (maxRecord : UInt64) (r : Request) : ℕ × Option Err :=
  (r.call, validateEntry blockSize maxRecord r.entry)

/-- A batch has ended with an I/O error. -/
def Writer.failing : Writer → Bool
  | .reply _ (some (.io _)) _ => true
  | _ => false

/-- No batch ends so in this step. -/
def NoFailure (t : State) (a : Step) : Prop :=
  (act t a).all (fun t' => !t'.writer.failing) = true

instance (t : State) (a : Step) : Decidable (NoFailure t a) := inferInstanceAs (Decidable (_ = _))

/-- The writer has closed the file. -/
def Writer.hasClosed : Writer → Bool
  | .respond _ | .leave | .done => true
  | _ => false

/-- No batch has failed. -/
def Writer.calm : Writer → Bool
  | .reply _ (some _) _ | .abort _ => false
  | _ => true

/-- A log with these limits that has served the requests with these valid
entries, and nothing has failed. -/
structure Serves (base : String) (blockSize : UInt32) (maxRecord : UInt64) (t : State)
    (es : List Entry) : Prop where
  files : ∃ w, Flushed base ⟨w, t.world.disk⟩ es ∧ (t.writer.hasClosed = false → w = t.world.wal)
  blockSize : t.world.wal.blockSize = blockSize
  maxRecord : t.world.wal.maxRecord = maxRecord
  calm : t.writer.calm = true

namespace Serves

/-- A step that leaves the log alone. -/
theorem congr (h : Serves base blockSize maxRecord t es) (hworld : t'.world = t.world)
    (hclosed : t'.writer.hasClosed = false → t.writer.hasClosed = false)
    (hcalm : t'.writer.calm = true) : Serves base blockSize maxRecord t' es := by
  obtain ⟨w, hw, hsame⟩ := h.files
  refine ⟨⟨w, hworld ▸ hw, fun hc => ?_⟩, hworld ▸ h.blockSize, hworld ▸ h.maxRecord, hcalm⟩
  rw [hworld]
  exact hsame (hclosed hc)

theorem flushed (h : Serves base blockSize maxRecord t es) (hw : t.writer.hasClosed = false) :
    Flushed base t.world es := by
  obtain ⟨w, hflushed, hsame⟩ := h.files
  rw [hsame hw] at hflushed
  exact hflushed

/-- What a step comes to: the requests it processes are told what
validation says, and their valid entries are served. -/
def Next (base : String) (blockSize : UInt32) (maxRecord : UInt64) (t : State) (es : List Entry)
    (reqs : List Request) (t' : State) : Prop :=
  t'.told = t.told ++ reqs.map (Request.verdict blockSize maxRecord) ∧
    Serves base blockSize maxRecord t'
      (es ++ accepted blockSize maxRecord (reqs.map Request.entry))

section

variable (h : Serves base blockSize maxRecord t es)
include h

theorem next_of_idle (hworld : t'.world = t.world) (htold : t'.told = t.told)
    (hclosed : t'.writer.hasClosed = false → t.writer.hasClosed = false)
    (hcalm : t'.writer.calm = true) : Next base blockSize maxRecord t es [] t' := by
  refine ⟨by rw [htold, List.map_nil, List.append_nil], ?_⟩
  rw [show accepted blockSize maxRecord (List.map Request.entry []) = [] from rfl,
    List.append_nil]
  exact h.congr hworld hclosed hcalm

/-- The step that processes a batch. -/
theorem process {batch : List Request} {caller : Caller} (hw : t.writer = .process batch caller)
    (hok : (t.process batch caller).writer.failing = false) :
    Next base blockSize maxRecord t es batch (t.process batch caller) := by
  have hflushed := h.flushed (by rw [hw]; rfl)
  rcases hflushed.processBatch (batch.map Request.entry) (caller.syncNow t.world.wal) with
    ⟨ctx, hio⟩ | ⟨herrs, hnone, hnext⟩
  · rw [State.process, hio] at hok
    cases hok
  rw [h.blockSize, h.maxRecord] at herrs hnext
  have hwriter : (t.process batch caller).writer =
      .reply (batch.map (Request.verdict blockSize maxRecord)) none caller := by
    rw [State.process, hnone, herrs, List.map_map, List.zip_map']
    rfl
  have hconf := (stable_sameConfig t.world).processBatch (batch.map Request.entry)
    (caller.syncNow t.world.wal) (.refl _)
  refine ⟨?_, ⟨_, hnext, fun _ => rfl⟩, hconf.blockSize.trans h.blockSize,
    hconf.maxRecord.trans h.maxRecord, by rw [hwriter]; rfl⟩
  rw [State.told, State.told, hwriter, hw]
  simp only [State.process, Writer.telling, List.append_nil]

/-- The step that closes the file. -/
theorem finish (hw : t.writer = .finish) :
    Next base blockSize maxRecord t es [] { t with
      world := (finishClose t.world).2, writer := .respond (finishClose t.world).1 } := by
  have hconf := (stable_sameConfig t.world).finishClose (.refl _)
  obtain ⟨w, hflushed⟩ := (h.flushed (by rw [hw]; rfl)).finishClose
  refine ⟨?_, ⟨w, ?_, fun hc => Bool.noConfusion hc⟩, hconf.blockSize.trans h.blockSize,
    hconf.maxRecord.trans h.maxRecord, rfl⟩
  · rw [State.told, State.told, hw, List.map_nil, List.append_nil]
    rfl
  · rw [show accepted blockSize maxRecord (List.map Request.entry []) = [] from rfl,
      List.append_nil]
    exact hflushed

/-- **What the writer does in one step.** -/
theorem advance (hact : t.advance = some t') (hok : NoFailure t .advance) :
    Next base blockSize maxRecord t es (t.served .advance) t' := by
  have hcalm := h.calm
  cases hw : t.writer with
  | select | done => simp only [State.advance, hw, reduceCtorEq] at hact
  | abort err =>
    -- a writer aborts only after a failure
    rw [hw] at hcalm
    cases hcalm
  | process batch caller =>
    simp only [State.advance, hw] at hact
    obtain rfl := Option.some.inj hact
    rw [State.served, hw]
    refine h.process hw ?_
    simpa only [NoFailure, Async.act, State.advance, hw, Option.all_some, Bool.not_eq_true']
      using hok
  | finish =>
    simp only [State.advance, hw] at hact
    obtain rfl := Option.some.inj hact
    rw [State.served, hw]
    exact h.finish hw
  | reply rest fatal caller =>
    rw [hw] at hcalm
    rw [State.served, hw]
    cases fatal with
    | some err => cases hcalm
    | none =>
      cases rest with
      | nil =>
        simp only [State.advance, hw] at hact
        obtain rfl := Option.some.inj hact
        refine h.next_of_idle rfl ?_ (fun _ => by rw [hw]; rfl) (by cases caller <;> rfl)
        rw [State.told, State.told, hw]
        cases caller <;> rfl
      | cons told rest =>
        simp only [State.advance, hw] at hact
        obtain rfl := Option.some.inj hact
        refine h.next_of_idle rfl ?_ (fun _ => by rw [hw]; rfl) rfl
        rw [State.told, State.told, hw]
        simp only [Writer.telling, List.append_assoc, List.singleton_append]
  | collect batch | drain batch | respond answer | leave =>
    -- the remaining steps leave the world and the replies alone
    simp only [State.advance, hw] at hact
    rw [State.served, hw]
    repeat' split at hact
    all_goals
      obtain rfl := Option.some.inj hact
      refine h.next_of_idle rfl ?_ (fun hc => by first | rw [hw]; rfl | cases hc) rfl
      rw [State.told, State.told, hw]
      rfl

/-- **What a step does**, whoever takes it. -/
theorem act (hact : act t a = some t') (hok : NoFailure t a) :
    Next base blockSize maxRecord t es (t.served a) t' := by
  cases a with
  | advance => exact h.advance hact hok
  | takeRequest =>
    simp only [Async.act] at hact
    split at hact
    · next hw _ =>
      obtain rfl := Option.some.inj hact
      refine h.next_of_idle rfl ?_ (fun _ => by rw [hw]; rfl) rfl
      rw [State.told, State.told, hw]
      rfl
    · cases hact
  | takeClose =>
    simp only [Async.act] at hact
    split at hact
    · next hw =>
      obtain rfl := Option.some.inj hact
      refine h.next_of_idle rfl ?_ (fun _ => by rw [hw.1]; rfl) rfl
      rw [State.told, State.told, hw.1]
      rfl
    · cases hact
  | append e | send i | observe i | receive i | close | sendClose | closeReturn =>
    simp only [Async.act] at hact
    repeat' split at hact
    all_goals first
      | cases hact; done
      | obtain rfl := Option.some.inj hact
        exact h.next_of_idle rfl rfl id h.calm

/-- **What a run does** in which no I/O fails. -/
theorem run {as : List Step} (hrun : runs Async.act t as = some t')
    (hok : Along Async.act NoFailure t as) :
    Next base blockSize maxRecord t es (processed t as) t' := by
  induction as generalizing t es with
  | nil =>
    obtain rfl := Option.some.inj hrun
    exact h.next_of_idle rfl rfl id h.calm
  | cons a as ih =>
    obtain ⟨t₁, hact, hrest⟩ := Option.bind_eq_some_iff.mp hrun
    obtain ⟨htold, hserves⟩ := h.act hact (hok [] a as t rfl rfl)
    obtain ⟨htold', hserves'⟩ := ih hserves hrest (hok.tail hact)
    have hprocessed : processed t (a :: as) = t.served a ++ processed t₁ as := by
      rw [processed, hact]
      rfl
    rw [hprocessed]
    refine ⟨?_, ?_⟩
    · rw [htold', htold, List.map_append, List.append_assoc]
    · rw [List.map_append, accepted, List.filter_append, ← List.append_assoc]
      exact hserves'

end

end Serves

end Async

/-! ## The synchronous log -/

/-- Appends one by one are answered by validation too, and add the same
entries. -/
theorem Flushed.appendAll {reqs : List Entry} (h : Flushed base s es)
    (hok : ∀ p ∈ (appendAll reqs s).1, ∀ ctx, p.2 ≠ some (.io ctx)) :
    (appendAll reqs s).1.map Prod.snd =
        reqs.map (validateEntry s.wal.blockSize s.wal.maxRecord) ∧
      Flushed base (appendAll reqs s).2
        (es ++ accepted s.wal.blockSize s.wal.maxRecord reqs) := by
  induction reqs generalizing s es with
  | nil => exact ⟨rfl, by rw [accepted, List.filter_nil, List.append_nil]; exact h⟩
  | cons e reqs ih =>
    rw [accepted_cons, List.map_cons]
    have hok' := fun p hp => hok p (List.mem_cons_of_mem _ hp)
    cases hv : validateEntry s.wal.blockSize s.wal.maxRecord e with
    | some err =>
      have happend := append_invalid h.intact.f_ne_none hv
      simp only [Wal.appendAll, happend, reduceCtorEq, if_false, List.nil_append,
        List.map_cons] at hok' ⊢
      obtain ⟨htold, hflushed⟩ := ih h hok'
      exact ⟨congrArg _ htold, hflushed⟩
    | none =>
      have hconf := (stable_sameConfig s).append e (.refl s)
      obtain ⟨hfaults, ⟨hnone, hI⟩ | ⟨ctx, hio⟩⟩ := append_ok h.intact h.noFault hv
      · obtain ⟨htold, hflushed⟩ := ih ⟨hI, hfaults⟩ hok'
        rw [hconf.blockSize, hconf.maxRecord] at htold hflushed
        simp only [Wal.appendAll, hnone, List.map_cons, if_true, ← List.append_assoc]
        exact ⟨congrArg _ htold, hflushed⟩
      · exact absurd hio (hok _ List.mem_cons_self ctx)

/-! ## Both -/

/-- A log that `NewWAL` opens where none has been. -/
theorem flushed_of_newWAL {opts : Options} {d d' : Disk} {w : WAL}
    (hnew : newWAL opts d = (.ok w, d')) (hfresh : Fresh opts.path d)
    (hwrite : d.writeFaults = []) (hio : d.ioFaults = []) :
    Flushed opts.path ⟨w, d'⟩ [] ∧ w.blockSize = opts.blockSizeOrDefault ∧
      w.maxRecord = opts.maxRecordBytes := by
  obtain ⟨ho, hsize, hI⟩ := newWAL_rotated hio (rotated_of_fresh hfresh) List.Forall₂.nil hnew
  exact ⟨⟨hI, ho.writeFaults.trans hwrite⟩, hsize, ho.maxRecord⟩

namespace Async

/-- **Batches are appends.** In a run of an async log in which no I/O
fails, each request that the writer processes is told what validation
says of it, and a replay delivers the entries of the valid ones, in the
order in which the writer took them. Feeding the same requests one by
one to a synchronous log with the same options gives the same answers,
and its replay delivers the same entries. -/
theorem async_eq_sync {opts : Options} {d d' : Disk} {w : WAL} {s : World} {depth : ℕ}
    {as : List Step} {t : State} {reqs : List Request} (hfresh : Fresh opts.path d)
    (hwrite : d.writeFaults = []) (hio : d.ioFaults = [])
    (hnew : newWAL { opts with async := true } d = (.ok w, d'))
    (hrun : runs act (start depth ⟨w, d'⟩) as = some t)
    (hok : Along act NoFailure (start depth ⟨w, d'⟩) as)
    (hreqs : processed (start depth ⟨w, d'⟩) as = reqs) (hopen : openLog opts d = some s)
    (hok' : ∀ p ∈ (appendAll (reqs.map Request.entry) s).1, ∀ ctx, p.2 ≠ some (.io ctx)) :
    t.told = reqs.map (Request.verdict opts.blockSizeOrDefault opts.maxRecordBytes) ∧
    (appendAll (reqs.map Request.entry) s).1.map Prod.snd = t.told.map Prod.snd ∧
    ∀ (σ : Type) (fn : Callback σ Entry), Accepting fn → ∀ (repair : Bool) (st : σ),
      replay fn opts.path repair t.world.disk st =
        (.done, feed fn (accepted opts.blockSizeOrDefault opts.maxRecordBytes
          (reqs.map Request.entry)) st, t.world.disk) ∧
      replay fn opts.path repair (appendAll (reqs.map Request.entry) s).2.disk st =
        (.done, feed fn (accepted opts.blockSizeOrDefault opts.maxRecordBytes
          (reqs.map Request.entry)) st, (appendAll (reqs.map Request.entry) s).2.disk) := by
  subst hreqs
  obtain ⟨hflushed, hsize, hmax⟩ := flushed_of_newWAL hnew hfresh hwrite hio
  have hstart : Serves opts.path opts.blockSizeOrDefault opts.maxRecordBytes
      (start depth ⟨w, d'⟩) [] := ⟨⟨w, hflushed, fun _ => rfl⟩, hsize, hmax, rfl⟩
  obtain ⟨htold, hserves⟩ := hstart.run hrun hok
  obtain ⟨w', hfiles, -⟩ := hserves.files
  obtain ⟨hflushed', hsize', hmax'⟩ :=
    flushed_of_newWAL (newWAL_of_openLog hopen) hfresh hwrite hio
  obtain ⟨hanswers, hsync⟩ := hflushed'.appendAll hok'
  have hnil : (start depth ⟨w, d'⟩).told = [] := rfl
  rw [hsize', hmax'] at hanswers hsync
  rw [hnil, List.nil_append] at htold
  rw [List.nil_append] at hfiles hsync
  refine ⟨htold, ?_, fun σ fn hfn repair st => ⟨?_, ?_⟩⟩
  · rw [hanswers, htold, List.map_map, List.map_map]
    rfl
  · exact replay_of_intact hfn hfiles.intact repair st
  · exact replay_of_intact hfn hsync.intact repair st

/-- Three requests, one of them without a key, go into two batches, the
second of them in the drain. -/
def twoBatches : List Step :=
  [.append ⟨[1], [], true, 1⟩, .append ⟨[], [7], false, 2⟩, .append ⟨[3], [8], false, 3⟩, .send 0,
    .send 1, .takeRequest, .advance, .advance, .advance, .advance, .advance, .advance, .send 2,
    .close, .sendClose, .takeClose, .advance, .advance, .advance, .advance, .advance, .advance,
    .advance, .advance]

/-- The directory of a small log just opened. -/
def openedSmall : Disk := { (faultyLog 0).disk with writeFaults := [] }

theorem async_eq_sync_twoBatches :
    ∃ t, newWAL { smallLog with async := true } ⟨[], [], [], 0⟩ =
        (.ok (asyncLog 0).wal, openedSmall) ∧
      runs act (start 4 ⟨(asyncLog 0).wal, openedSmall⟩) twoBatches = some t ∧
      t.writer = .done ∧ t.told = [(0, none), (1, some .walEmptyKey), (2, none)] ∧
      replay collect "wal" false t.world.disk [] =
        (.done, [⟨[1], [], true, 1⟩, ⟨[3], [8], false, 3⟩], t.world.disk) := by
  have hnew : newWAL { smallLog with async := true } ⟨[], [], [], 0⟩ =
      (.ok (asyncLog 0).wal, openedSmall) := by decide +kernel
  have hopen : openLog smallLog ⟨[], [], [], 0⟩ = some ⟨(faultyLog 0).wal, openedSmall⟩ := by
    decide +kernel
  have hfinal : (runs act (start 4 ⟨(asyncLog 0).wal, openedSmall⟩) twoBatches).map
      State.writer = some .done := by decide +kernel
  obtain ⟨t, hrun, hdone⟩ := Option.map_eq_some_iff.mp hfinal
  have hreqs : processed (start 4 ⟨(asyncLog 0).wal, openedSmall⟩) twoBatches =
      [⟨0, ⟨[1], [], true, 1⟩⟩, ⟨1, ⟨[], [7], false, 2⟩⟩, ⟨2, ⟨[3], [8], false, 3⟩⟩] := by
    decide +kernel
  have hsync : (appendAll [⟨[1], [], true, 1⟩, ⟨[], [7], false, 2⟩, ⟨[3], [8], false, 3⟩]
      ⟨(faultyLog 0).wal, openedSmall⟩).1.map Prod.snd = [none, some .walEmptyKey, none] := by
    decide +kernel
  have hfresh : Fresh smallLog.path ⟨[], [], [], 0⟩ := fun f hf => by cases hf
  obtain ⟨htold, -, hreplay⟩ := async_eq_sync hfresh rfl rfl hnew hrun
    (along_of_check (by decide +kernel)) hreqs hopen fun p hp ctx hctx => by
      have hmem := List.mem_map_of_mem (f := Prod.snd) hp
      rw [List.map_cons, List.map_cons, List.map_cons, List.map_nil, hsync, hctx] at hmem
      simp at hmem
  have h := (hreplay (List Entry) collect accepting_collect false []).1
  rw [feed_collect, List.nil_append] at h
  exact ⟨t, hnew, hrun, hdone, htold.trans (by decide +kernel), h⟩

end Async

end LSMEngine.Wal
