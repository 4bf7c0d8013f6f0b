import LSMEngine.Wal.Replay
/-!
# WAL — replaying a file of any bytes

`DecodeRecords` compares the sum of a record's two lengths, taken in 32
bits, with what is left of the payload, and then slices with the lengths
themselves. A payload panics the decoder exactly if whole records lead to
a header whose sum has wrapped around (`decodeRecords_eq_panic_iff`).

A replay decodes the payloads it comes to, and which ones these are
depends on the callback as well: an error it returns can send the reader
in search of a block, as a damaged block does, or on to the next file.
`Comes` and `Ends` say what the reader can come to under any callback.
They are exact: a callback that answers from a script plays each of the
ways (`exists_script_of_ends`), and a replay takes no other
(`ends_of_replayBlocks`).
-/

namespace LSMEngine.Wal

variable {σ : Type} {p r rest : Bytes} {cap : UInt32} {o : Outcome}

/-! ## Payloads -/

/-- The payload starts with a header whose lengths fit what is left of it
only because their sum has wrapped around. -/
def LengthsWrap (p : Bytes) : Prop :=
  recordHeaderSize + (recordKeyLen p + recordValLen p) % 2 ^ 32 + recordCRCSize ≤ p.length ∧
    p.length < recordBodyLen p + recordCRCSize

instance (p : Bytes) : Decidable (LengthsWrap p) := inferInstanceAs (Decidable (_ ∧ _))

/-- The payload starts with a whole record. -/
def RecordWhole (p : Bytes) : Prop :=
  recordBodyLen p + recordCRCSize ≤ p.length ∧
    leNat ((p.drop (recordBodyLen p)).take recordCRCSize) = (crc32 (p.take (recordBodyLen p))).toNat

/-- Whole records lead to a header whose lengths wrap around. -/
inductive ReachesWrap : Bytes → Prop
  | here {p : Bytes} (h : LengthsWrap p) : ReachesWrap p
  | behind {p : Bytes} (h : RecordWhole p)
      (hrest : ReachesWrap (p.drop (recordBodyLen p + recordCRCSize))) : ReachesWrap p

theorem Records.cons_eq_panic {α : Type} {a : α} {rs : Records α} (h : rs.cons a = .panic) :
    rs = .panic := by
  cases rs with
  | panic => rfl
  | ok as => cases h
  | corrupt => cases h

/-- **What panics the decoder.** -/
theorem decodeRecords_eq_panic_iff : decodeRecords p = .panic ↔ ReachesWrap p := by
  constructor
  · intro h
    unfold decodeRecords at h
    fun_induction scanRecords Entry.mk p with
    | case1 => cases h
    | case2 => cases h
    | case3 => cases h
    | case4 p hne hhead hsum hlen => exact .here ⟨not_lt.mp hsum, hlen⟩
    | case5 => cases h
    | case6 p hne hhead hsum hlen hcrc ih =>
      exact .behind ⟨not_lt.mp hlen, not_not.mp hcrc⟩ (ih (Records.cons_eq_panic h))
  · intro h
    have hsize : recordHeaderSize = 17 := rfl
    have hcrcSize : recordCRCSize = 4 := rfl
    unfold decodeRecords
    induction h with
    | @here p h =>
      obtain ⟨hsum, hlen⟩ := h
      have hne : p ≠ [] := List.ne_nil_of_length_pos (by omega)
      rw [scanRecords, if_neg hne, if_neg (by omega), if_neg (by omega), if_pos hlen]
    | @behind p h hrest ih =>
      obtain ⟨hlen, hcrc⟩ := h
      have hbody : recordBodyLen p = 17 + recordKeyLen p + recordValLen p := rfl
      have hne : p ≠ [] := List.ne_nil_of_length_pos (by omega)
      have hmod := Nat.mod_le (recordKeyLen p + recordValLen p) (2 ^ 32)
      rw [scanRecords, if_neg hne, if_neg (by omega), if_neg (by omega), if_neg (by omega),
        if_neg (not_not.mpr hcrc), ih]
      rfl

/-! ## What a turn can come to -/

/-- How a block with this payload can be handled: its records are
delivered, the callback refuses one, or there are none. -/
inductive Handled (p : Bytes) : Outcome → Prop
  | done {es : List Entry} (h : decodeRecords p = .ok es) : Handled p .done
  | refused {es : List Entry} {e : Err} (h : decodeRecords p = .ok es) (hne : es ≠ []) :
      Handled p (.err e)
  | corrupt (h : decodeRecords p = .corrupt) : Handled p (.err .walCorrupt)
  | panic (h : ReachesWrap p) : Handled p .panic

/-- The reader goes in search of a block from here: what it has read was
no block, or one with an error that says so. -/
def Broken (cap : UInt32) (r rest : Bytes) : Prop :=
  decodeBlock r cap = .corrupt rest ∨
    ∃ p, decodeBlock r cap = .payload p rest ∧ Handled p (.err .walCorrupt)

/-- A turn can come to a block, handled like this and with this behind
it. -/
inductive Comes (cap : UInt32) (r : Bytes) : Outcome → Bytes → Prop
  | block {p rest : Bytes} {o : Outcome} (h : decodeBlock r cap = .payload p rest)
      (ho : Handled p o) (hne : o ≠ .err .walCorrupt) : Comes cap r o rest
  | resynced {p rest rest' : Bytes} {o : Outcome} (h : Broken cap r rest)
      (hf : findBlock cap rest = some (p, rest')) (ho : Handled p o) : Comes cap r o rest'

/-- A turn can come to the end of the file. -/
def Exhausted (cap : UInt32) (r : Bytes) : Prop :=
  decodeBlock r cap = .eof ∨ ∃ rest, Broken cap r rest ∧ findBlock cap rest = none

/-- The replay goes on with the next file. -/
def Outcome.Passed (o : Outcome) : Prop := o = .done ∨ o = .err .walCorruptSegment

theorem handled_deliver {α : Type} (fn : Callback σ α) (as : List α) (st : σ) :
    (deliver fn as st).1 = .done ∨ as ≠ [] ∧ ∃ e, (deliver fn as st).1 = .err e := by
  induction as generalizing st with
  | nil => exact .inl rfl
  | cons a as ih =>
    unfold deliver
    split
    · exact .inr ⟨List.cons_ne_nil a as, _, rfl⟩
    · next st' _ =>
      exact (ih st').imp_right fun h => ⟨List.cons_ne_nil a as, h.2⟩

/-- Every callback handles a block in one of the ways. -/
theorem handled_applyPayload (fn : Callback σ Entry) (p : Bytes) (st : σ) :
    Handled p (applyPayload decodeRecords fn p st).1 := by
  unfold applyPayload
  split
  · next es h =>
    rcases handled_deliver fn es st with hdone | ⟨hne, e, herr⟩
    · rw [hdone]
      exact .done h
    · rw [herr]
      exact .refused h hne
  · next h => exact .corrupt h
  · next h => exact .panic (decodeRecords_eq_panic_iff.mp h)

/-- What a turn comes to is among what it can come to. -/
def Turn.Allowed (cap : UInt32) (r : Bytes) : Turn σ → Prop
  | .again _ rest _ => Comes cap r .done rest
  | .stop o _ => Exhausted cap r ∧ o.Passed ∨ o ≠ .done ∧ ∃ rest, Comes cap r o rest

theorem allowed_replayFromResync (fn : Callback σ Entry) (st : σ) (h : Broken cap r rest) :
    (replayFromResync decodeRecords fn cap rest st).Allowed cap r := by
  unfold replayFromResync
  split
  · next hf => exact .inl ⟨.inr ⟨rest, h, hf⟩, .inr rfl⟩
  · next p rest' hf =>
    have hp := handled_applyPayload fn p st
    split
    · next st' heq =>
      rw [heq] at hp
      exact .resynced h hf hp
    · next o st' hne heq =>
      rw [heq] at hp
      exact .inr ⟨hne, rest', .resynced h hf hp⟩

/-- **A turn under any callback.** -/
theorem allowed_replayTurn (fn : Callback σ Entry) (cap : UInt32) (r : Bytes) (c : Bool) (st : σ) :
    (replayTurn decodeRecords fn cap r c st).Allowed cap r := by
  unfold replayTurn
  split
  · next h =>
    refine .inl ⟨.inl h, ?_⟩
    split
    · exact .inr rfl
    · exact .inl rfl
  · next rest h => exact allowed_replayFromResync fn st (.inl h)
  · next p rest h =>
    have hp := handled_applyPayload fn p st
    split
    · next st' heq =>
      rw [heq] at hp
      exact .block h hp (by simp)
    · next st' heq =>
      rw [heq] at hp
      exact allowed_replayFromResync fn st' (.inr ⟨p, h, hp⟩)
    · next o st' hne hne' heq =>
      rw [heq] at hp
      exact .inr ⟨hne, rest, .block h hp hne'⟩

/-! ## What a script makes of it -/

/-- The callback that answers from a script. -/
def scripted {α : Type} : Callback (List (Option Err)) α := fun st _ => (st.headD none, st.tail)

theorem deliver_scripted (es : List Entry) (t : List (Option Err)) :
    deliver scripted es (List.replicate es.length none ++ t) = (.done, t) := by
  induction es with
  | nil => rfl
  | cons e es ih => exact ih

/-- Every way to handle a block is played by a script. -/
theorem exists_script_of_handled (h : Handled p o) :
    ∃ s, ∀ t, applyPayload decodeRecords scripted p (s ++ t) = (o, t) := by
  cases h with
  | @done es h =>
    refine ⟨List.replicate es.length none, fun t => ?_⟩
    rw [applyPayload, h]
    exact deliver_scripted es t
  | @refused es e h hne =>
    refine ⟨[some e], fun t => ?_⟩
    obtain ⟨e', es, rfl⟩ := List.exists_cons_of_ne_nil hne
    rw [applyPayload, h]
    rfl
  | corrupt h =>
    refine ⟨[], fun t => ?_⟩
    rw [applyPayload, h]
    rfl
  | panic h =>
    refine ⟨[], fun t => ?_⟩
    rw [applyPayload, decodeRecords_eq_panic_iff.mpr h]
    rfl

/-- A script leads into a search. -/
theorem exists_script_of_broken (h : Broken cap r rest) (c : Bool) :
    ∃ s, ∀ t, replayTurn decodeRecords scripted cap r c (s ++ t) =
      replayFromResync decodeRecords scripted cap rest t := by
  rcases h with h | ⟨p, h, hp⟩
  · refine ⟨[], fun t => ?_⟩
    rw [replayTurn, h]
    rfl
  · obtain ⟨s, hs⟩ := exists_script_of_handled hp
    refine ⟨s, fun t => ?_⟩
    rw [replayTurn, h]
    dsimp only
    rw [hs]

/-- What the loop makes of a handled block. -/
def Outcome.turn (o : Outcome) (st : σ) (rest : Bytes) (c : Bool) : Turn σ :=
  match o with
  | .done => .again st rest c
  | o => .stop o st

theorem exists_script_of_comes (h : Comes cap r o rest) (c : Bool) :
    ∃ s c', ∀ t, replayTurn decodeRecords scripted cap r c (s ++ t) = o.turn t rest c' := by
  cases h with
  | @block p _ _ h ho hne =>
    obtain ⟨s, hs⟩ := exists_script_of_handled ho
    refine ⟨s, c, fun t => ?_⟩
    rw [replayTurn, h]
    dsimp only
    rw [hs]
    rcases o with _ | e | _
    · rfl
    · cases e <;> first | rfl | exact absurd rfl hne
    · rfl
  | @resynced p rest' _ _ h hf ho =>
    obtain ⟨s, hs⟩ := exists_script_of_broken h c
    obtain ⟨s', hs'⟩ := exists_script_of_handled ho
    refine ⟨s ++ s', true, fun t => ?_⟩
    rw [List.append_assoc, hs, replayFromResync, hf]
    dsimp only
    rw [hs']
    cases o <;> rfl

theorem exists_script_of_exhausted (h : Exhausted cap r) (c : Bool) :
    ∃ s o, Outcome.Passed o ∧
      ∀ t, replayTurn decodeRecords scripted cap r c (s ++ t) = .stop o t := by
  rcases h with h | ⟨rest, h, hf⟩
  · refine ⟨[], if c then .err .walCorruptSegment else .done, ?_, fun t => ?_⟩
    · cases c with
      | false => exact .inl rfl
      | true => exact .inr rfl
    · rw [replayTurn, h]
      rfl
  · obtain ⟨s, hs⟩ := exists_script_of_broken h c
    refine ⟨s, .err .walCorruptSegment, .inr rfl, fun t => ?_⟩
    rw [hs, replayFromResync, hf]

/-! ## Files -/

/-- The ends of a file that matter for the log: the replay goes on with
the next one, or it panics. -/
inductive Ending
  | passed
  | panicked
  deriving DecidableEq, Repr

/-- The outcomes that are this end. -/
def Ending.Of : Ending → Outcome → Prop
  | .passed, o => o.Passed
  | .panicked, o => o = .panic

/-- The reader can come to this end from here. -/
inductive Ends (cap : UInt32) : Bytes → Ending → Prop
  | exhausted {r : Bytes} (h : Exhausted cap r) : Ends cap r .passed
  | stops {r rest : Bytes} {o : Outcome} {k : Ending} (h : Comes cap r o rest) (ho : o ≠ .done)
      (hk : k.Of o) : Ends cap r k
  | onward {r rest : Bytes} {k : Ending} (h : Comes cap r .done rest) (hrest : Ends cap rest k) :
      Ends cap r k

/-- A segment file can come to this end. -/
inductive SegmentEnds : Option Bytes → Ending → Prop
  | missing : SegmentEnds none .passed
  | refused {bytes : Bytes} {e : Err} (h : readSegmentHeader bytes = .error e) :
      SegmentEnds (some bytes) .passed
  | blocks {bytes r : Bytes} {hdr : SegmentHeader} {k : Ending}
      (h : readSegmentHeader bytes = .ok (hdr, r)) (hr : Ends hdr.blockSize r k) :
      SegmentEnds (some bytes) k

/-- One of the files can panic the replay, and the ones before it let it
get there. -/
inductive FilesPanic (d : Disk) : List String → Prop
  | here {seg : String} {segs : List String} (h : SegmentEnds (d.content seg) .panicked) :
      FilesPanic d (seg :: segs)
  | later {seg : String} {segs : List String} (h : SegmentEnds (d.content seg) .passed)
      (hrest : FilesPanic d segs) : FilesPanic d (seg :: segs)

variable {k : Ending} {content : Option Bytes} {d : Disk}

theorem ends_of_replayBlocks (fn : Callback σ Entry) (cap : UInt32) (r : Bytes) (c : Bool)
    (lastGood : ℕ) (st : σ) (hk : k.Of (replayBlocks decodeRecords fn cap r c lastGood st).1) :
    Ends cap r k := by
  fun_induction replayBlocks decodeRecords fn cap r c lastGood st with
  | case1 r c lastGood st o st' h =>
    have hturn := allowed_replayTurn fn cap r c st
    rw [h] at hturn
    rcases hturn with ⟨hex, hpassed⟩ | ⟨hne, rest, hcomes⟩
    · cases k with
      | passed => exact .exhausted hex
      | panicked =>
        rcases hpassed with rfl | rfl
        · cases hk
        · cases hk
    · exact .stops hcomes hne hk
  | case2 r c lastGood st st' rest c' h ih =>
    have hturn := allowed_replayTurn fn cap r c st
    rw [h] at hturn
    exact .onward hturn (ih hk)

theorem replayBlocks_stop {fn : Callback σ Entry} {c : Bool} {lastGood : ℕ} {st st' : σ}
    (h : replayTurn decodeRecords fn cap r c st = .stop o st') :
    replayBlocks decodeRecords fn cap r c lastGood st = (o, st', lastGood) := by
  rw [replayBlocks]
  split
  · next heq =>
    cases heq.symm.trans h
    rfl
  · next heq => cases heq.symm.trans h

theorem replayBlocks_again {fn : Callback σ Entry} {c c' : Bool} {lastGood : ℕ} {st st' : σ}
    (h : replayTurn decodeRecords fn cap r c st = .again st' rest c') :
    replayBlocks decodeRecords fn cap r c lastGood st =
      replayBlocks decodeRecords fn cap rest c' rest.length st' := by
  rw [replayBlocks]
  split
  · next heq => cases heq.symm.trans h
  · next heq =>
    cases heq.symm.trans h
    rfl

/-- **Every end is played by a script.** -/
theorem exists_script_of_ends (h : Ends cap r k) (c : Bool) (lastGood : ℕ) :
    ∃ s o n, k.Of o ∧
      ∀ t, replayBlocks decodeRecords scripted cap r c lastGood (s ++ t) = (o, t, n) := by
  induction h generalizing c lastGood with
  | exhausted h =>
    obtain ⟨s, o, ho, hs⟩ := exists_script_of_exhausted h c
    exact ⟨s, o, lastGood, ho, fun t => replayBlocks_stop (hs t)⟩
  | @stops r rest o k h ho hk =>
    obtain ⟨s, c', hs⟩ := exists_script_of_comes h c
    refine ⟨s, o, lastGood, hk, fun t => replayBlocks_stop ?_⟩
    rw [hs]
    cases o with
    | done => exact absurd rfl ho
    | err e => rfl
    | panic => rfl
  | @onward r rest k h hrest ih =>
    obtain ⟨s, c', hs⟩ := exists_script_of_comes h c
    obtain ⟨s', o, n, ho, hs'⟩ := ih c' rest.length
    refine ⟨s ++ s', o, n, ho, fun t => ?_⟩
    rw [List.append_assoc, replayBlocks_again (hs (s' ++ t)), hs']

theorem segmentEnds_of_replaySegment (fn : Callback σ Entry) (content : Option Bytes) (st : σ)
    (hk : k.Of (replaySegment decodeRecords fn content st).1) : SegmentEnds content k := by
  unfold replaySegment at hk
  split at hk
  · cases k with
    | passed => exact .missing
    | panicked => cases hk
  · next bytes =>
    split at hk
    · next e h =>
      cases k with
      | passed => exact .refused h
      | panicked => cases hk
    · next hdr r h => exact .blocks h (ends_of_replayBlocks fn _ r false _ st hk)

theorem exists_script_of_segmentEnds (h : SegmentEnds content k) :
    ∃ s o n, k.Of o ∧
      ∀ t, replaySegment decodeRecords scripted content (s ++ t) = (o, t, n) := by
  cases h with
  | missing => exact ⟨[], .done, 0, .inl rfl, fun t => rfl⟩
  | @refused bytes e h =>
    refine ⟨[], .err .walCorruptSegment, 0, .inr rfl, fun t => ?_⟩
    rw [replaySegment, h]
    rfl
  | @blocks bytes r hdr _ h hr =>
    obtain ⟨s, o, n, ho, hs⟩ := exists_script_of_ends hr false r.length
    refine ⟨s, o, bytes.length - n, ho, fun t => ?_⟩
    rw [replaySegment, h]
    dsimp only
    rw [hs]

/-! ## The log -/

/-- The rotated segments: they panic the replay, or are all passed. -/
theorem filesPanic_of_replayRotated (fn : Callback σ Entry) (segs rest : List String) (c : Bool)
    (st : σ) :
    ((replayRotated decodeRecords fn d segs c st).1 = .panic → FilesPanic d (segs ++ rest)) ∧
      ((replayRotated decodeRecords fn d segs c st).1 = .done → FilesPanic d rest →
        FilesPanic d (segs ++ rest)) := by
  induction segs generalizing c st with
  | nil => exact ⟨fun h => Outcome.noConfusion h, fun _ hrest => hrest⟩
  | cons seg segs ih =>
    have hseg := fun k => @segmentEnds_of_replaySegment σ k fn (d.content seg) st
    unfold replayRotated
    split
    · next st' n heq =>
      have hpassed : SegmentEnds (d.content seg) .passed := hseg .passed (.inl (by rw [heq]))
      exact ⟨fun h => .later hpassed ((ih c st').1 h),
        fun h hrest => .later hpassed ((ih c st').2 h hrest)⟩
    · next st' n heq =>
      have hpassed : SegmentEnds (d.content seg) .passed := hseg .passed (.inr (by rw [heq]))
      exact ⟨fun h => .later hpassed ((ih true st').1 h),
        fun h hrest => .later hpassed ((ih true st').2 h hrest)⟩
    · next o st' n hne _ heq =>
      refine ⟨fun h => .here (hseg .panicked ?_), fun h => absurd h hne⟩
      rw [heq]
      exact h

/-- A script for the rotated segments and the active file behind them. -/
theorem exists_script_of_filesPanic {path : String} (segs : List String) (c : Bool)
    (h : FilesPanic d (segs ++ [path])) :
    (∃ s, ∀ t, (replayRotated decodeRecords scripted d segs c (s ++ t)).1 = .panic) ∨
      SegmentEnds (d.content path) .panicked ∧
        ∃ s c', ∀ t, replayRotated decodeRecords scripted d segs c (s ++ t) = (.done, t, c') := by
  induction segs generalizing c with
  | nil =>
    cases h with
    | here h => exact .inr ⟨h, [], c, fun t => rfl⟩
    | later _ hrest => cases hrest
  | cons seg segs ih =>
    cases h with
    | here h =>
      obtain ⟨s, o, n, rfl, hs⟩ := exists_script_of_segmentEnds h
      refine .inl ⟨s, fun t => ?_⟩
      rw [replayRotated, hs]
    | later h hrest =>
      obtain ⟨s, o, n, ho, hs⟩ := exists_script_of_segmentEnds h
      -- the flag is set if the segment was corrupt
      obtain ⟨c', hnext⟩ : ∃ c', ∀ t, replayRotated decodeRecords scripted d (seg :: segs) c
          (s ++ t) = replayRotated decodeRecords scripted d segs c' t := by
        rcases ho with rfl | rfl
        · refine ⟨c, fun t => ?_⟩
          rw [replayRotated, hs]
        · refine ⟨true, fun t => ?_⟩
          rw [replayRotated, hs]
      rcases ih c' hrest with ⟨s', hs'⟩ | ⟨hpath, s', c'', hs'⟩
      · refine .inl ⟨s ++ s', fun t => ?_⟩
        rw [List.append_assoc, hnext, hs']
      · refine .inr ⟨hpath, s ++ s', c'', fun t => ?_⟩
        rw [List.append_assoc, hnext, hs']

/-- The files of a log in the order of a replay. -/
def logFiles (d : Disk) (path : String) : List String := (listSegments d path).1 ++ [path]

theorem filesPanic_of_replay (fn : Callback σ Entry) {path : String} {repair : Bool} {st : σ}
    (h : (replay fn path repair d st).1 = .panic) : FilesPanic d (logFiles d path) := by
  obtain ⟨hpanic, hdone⟩ :=
    filesPanic_of_replayRotated (d := d) fn (listSegments d path).1 [path] false st
  unfold replay replayWith at h
  dsimp only at h
  split at h
  · next st' c heq =>
    refine hdone (by rw [heq]) (.here ?_)
    have hpath := @segmentEnds_of_replaySegment σ .panicked fn (d.content path) st'
    split at h
    · unfold replayEnd at h
      split at h
      · cases h
      · split at h <;> cases h
    · unfold replayEnd at h
      split at h
      · cases h
      · split at h <;> cases h
    · next o _ _ _ _ hseg =>
      refine hpath ?_
      rw [hseg]
      exact h
  · next heq =>
    refine hpanic ?_
    rw [heq]
    exact h

theorem exists_script_of_log {path : String} (h : FilesPanic d (logFiles d path)) (repair : Bool) :
    ∃ s, (replay scripted path repair d s).1 = .panic := by
  rcases exists_script_of_filesPanic _ false h with ⟨s, hs⟩ | ⟨hpath, s, c, hs⟩
  · refine ⟨s ++ [], ?_⟩
    have hrot := hs []
    unfold replay replayWith
    dsimp only
    split
    · next heq =>
      rw [heq] at hrot
      cases hrot
    · next heq =>
      rw [heq] at hrot
      exact hrot
  · obtain ⟨s', o, n, rfl, hs'⟩ := exists_script_of_segmentEnds hpath
    refine ⟨s ++ (s' ++ []), ?_⟩
    rw [replay, replayWith, hs]
    dsimp only
    rw [hs']

/-- **A replay never panics, unless lengths wrap around.** A payload is
decoded to entries or an error exactly if whole records do not lead to a
header whose lengths wrap, and by both decoders alike. The replay of a log
ends without a panic, whatever the callback, exactly if the reader cannot
come to a block with such a payload. -/
theorem replay_ne_panic_iff (p : Bytes) (path : String) (repair : Bool) (d : Disk) :
    (decodeRecords p ≠ .panic ↔ ¬ ReachesWrap p) ∧
    decodeRecordViews p = (decodeRecords p).map Entry.view ∧
    ((∀ (σ : Type) (fn : Callback σ Entry) (st : σ), (replay fn path repair d st).1 ≠ .panic) ↔
      ¬ FilesPanic d (logFiles d path)) ∧
    ((∀ (σ : Type) (fn : Callback σ EntryView) (st : σ),
        (replayViews fn path repair d st).1 ≠ .panic) ↔
      ¬ FilesPanic d (logFiles d path)) := by
  refine ⟨not_congr decodeRecords_eq_panic_iff, decodeRecordViews_eq p, ⟨?_, ?_⟩, ⟨?_, ?_⟩⟩
  · intro hne h
    obtain ⟨s, hs⟩ := exists_script_of_log h repair
    exact hne _ scripted s hs
  · intro h σ fn st hpanic
    exact h (filesPanic_of_replay fn hpanic)
  · intro hne h
    obtain ⟨s, hs⟩ := exists_script_of_log h repair
    refine hne _ scripted s ?_
    rw [replayViews_eq]
    exact hs
  · intro h σ fn st hpanic
    rw [replayViews_eq] at hpanic
    exact h (filesPanic_of_replay _ hpanic)

/-- A record header with a key of length 2³² − 1 and a value of length
one, and a checksum. -/
def wrappingPayload : Bytes :=
  List.replicate 9 0 ++ ([255, 255, 255, 255, 1, 0, 0, 0] ++ List.replicate 4 0)

/-- A directory with one segment of one block, with the right
checksums. -/
def wrappingDisk : Disk where
  files := [⟨some "wal", encodeSegmentHeader 0 1 0 ++ frameBlock wrappingPayload, 0⟩]
  writeFaults := []
  ioFaults := []
  clock := 0

/-- Both decoders and both replays panic on it. -/
theorem replay_wrappingDisk :
    decodeRecords wrappingPayload = .panic ∧ decodeRecordViews wrappingPayload = .panic ∧
    (replay collect "wal" false wrappingDisk []).1 = .panic ∧
    (replayViews collect "wal" false wrappingDisk []).1 = .panic := by
  have hdecode : decodeRecords wrappingPayload = .panic :=
    decodeRecords_eq_panic_iff.mpr (.here (by decide))
  -- the first block panics, before any callback
  have hreplay : ∀ (σ : Type) (fn : Callback σ Entry) (st : σ),
      (replay fn "wal" false wrappingDisk st).1 = .panic := by
    intro σ fn st
    have hsegs : listSegments wrappingDisk "wal" = ([], false) := by decide +kernel
    have hheader : readSegmentHeader (encodeSegmentHeader 0 1 0 ++ frameBlock wrappingPayload) =
        .ok (⟨1, 0, 1, 0⟩, frameBlock wrappingPayload) := by decide +kernel
    have hblock : decodeBlock (frameBlock wrappingPayload) 0 = .payload wrappingPayload [] := by
      decide +kernel
    have hturn : replayTurn decodeRecords fn 0 (frameBlock wrappingPayload) false st =
        .stop .panic st := by
      rw [replayTurn, hblock]
      dsimp only
      rw [applyPayload, hdecode]
    have hcontent : wrappingDisk.content "wal" =
        some (encodeSegmentHeader 0 1 0 ++ frameBlock wrappingPayload) := rfl
    rw [replay, replayWith, hsegs, hcontent]
    dsimp only [replayRotated]
    rw [replaySegment, hheader]
    dsimp only
    rw [replayBlocks_stop hturn]
  refine ⟨hdecode, ?_, hreplay _ collect [], ?_⟩
  · rw [decodeRecordViews_eq, hdecode]
    rfl
  · rw [replayViews_eq]
    exact hreplay _ _ []

end LSMEngine.Wal
