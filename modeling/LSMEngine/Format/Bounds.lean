import LSMEngine.Common.Results
import LSMEngine.Format.Fields
import LSMEngine.Format.Model.Block
/-!
# Format — a data block is read within its bounds

`Decode` checks what it reads of a payload, whoever wrote it, and the
block it returns can be scanned: a cursor checks the lengths of an entry
against its limit, and the number of bytes the key shares against the key
before, so a read never leaves the data. Every entry takes the bytes of
its header at least, so a scan is over after as many entries as there are
bytes.
-/

namespace LSMEngine.Format

/-- The result is as required, or an error the code returns. -/
abbrev Safe {α : Type} (Q : α → Prop) (x : Except Fault α) : Prop := Returns (· ≠ Fault.panic) Q x

theorem Safe.ne_panic {α : Type} {Q : α → Prop} {x : Except Fault α} (h : Safe Q x) :
    x ≠ .error .panic :=
  fun hx => h.2 .panic hx rfl

/-! ## Reading a buffer -/

variable {b data payload key : Bytes} {i j : ℕ}

theorem returns_failIf {E : Fault → Prop} {c : Prop} [Decidable c] {f : Fault} (hf : c → E f) :
    Returns E (fun _ => ¬ c) (failIf c f) :=
  .ite (fun h => .error (hf h)) fun h => .ok h

theorem safe_failIf {c : Prop} [Decidable c] {f : Fault} (hf : f ≠ .panic) :
    Safe (fun _ => ¬ c) (failIf c f) :=
  returns_failIf fun _ => hf

/-- The four bytes of a word. -/
def wordAt (b : Bytes) (i : ℕ) : ℕ := leNat ((b.drop i).take 4)

section Reads

variable {E : Fault → Prop}

theorem returns_sub (hij : i ≤ j) (hj : j ≤ b.length) :
    Returns E (fun s : Bytes => s.length = j - i) (sub b i j) := by
  rw [sub, slice_of_le hij hj]
  refine .ok ?_
  rw [List.length_take, List.length_drop]
  omega

theorem returns_byteAt (hi : i < b.length) :
    Returns E (fun x => b[i]? = some x) (byteAt b i) := by
  rw [byteAt, List.getElem?_eq_getElem hi]
  exact .ok rfl

theorem returns_uint16At (hi : i + 2 ≤ b.length) : Returns E (fun _ => True) (uint16At b i) :=
  (returns_sub (Nat.le_add_right _ _) hi).bind fun _ _ => .pure trivial

theorem returns_uint32At (hi : i + 4 ≤ b.length) :
    Returns E (fun v => v.toNat = wordAt b i) (uint32At b i) := by
  rw [uint32At, sub, slice_of_le (Nat.le_add_right _ _) hi, Nat.add_sub_cancel_left]
  refine .pure (toNat_ofNat_uint32 ?_)
  have hlt := leNat_lt ((b.drop i).take 4)
  rw [List.length_take, List.length_drop, Nat.min_eq_left (by omega)] at hlt
  exact hlt

theorem returns_uint64At (hi : i + 8 ≤ b.length) : Returns E (fun _ => True) (uint64At b i) :=
  (returns_sub (Nat.le_add_right _ _) hi).bind fun _ _ => .pure trivial

end Reads

/-! ## The decoder -/

theorem safe_readRestarts {dataLen n pos : ℕ} (h : pos + n * 4 ≤ payload.length) :
    Safe (fun offs : List UInt32 => offs.length = n) (readRestarts payload dataLen n pos) := by
  have hsize : blockOffsetSize = 4 := rfl
  induction n generalizing pos with
  | zero => exact .ok rfl
  | succ n ih =>
    refine (returns_uint32At (by omega)).bind fun off _ => ?_
    refine (safe_failIf (by decide)).bind fun _ _ => ?_
    refine (ih (by omega)).bind fun offs hoffs => .pure ?_
    rw [List.length_cons, hoffs]

theorem safe_restartKey (data : Bytes) (pos : ℕ) : Safe (fun _ => True) (restartKey data pos) := by
  have hsize : entryHeaderSize = 21 := rfl
  refine (safe_failIf (by decide)).bind fun _ hlen => ?_
  refine (returns_uint32At (by omega)).bind fun shared _ => ?_
  refine (returns_uint32At (by omega)).bind fun unshared _ => ?_
  refine (returns_uint32At (by omega)).bind fun valLen _ => ?_
  refine (safe_failIf (by decide)).bind fun _ _ => ?_
  refine (safe_failIf (by decide)).bind fun _ hend => ?_
  exact (returns_sub (by omega) (by omega)).mono fun _ _ => trivial

theorem safe_readRestartKeys (data : Bytes) (offs : List UInt32) :
    Safe (fun keys : List Bytes => keys.length = offs.length) (readRestartKeys data offs) := by
  induction offs with
  | nil => exact .ok rfl
  | cons off offs ih =>
    refine (safe_restartKey data off.toNat).bind fun k _ => ?_
    refine ih.bind fun keys hkeys => .pure ?_
    rw [List.length_cons, List.length_cons, hkeys]

/-- A decoded block: its data is a part of the payload, and every restart
point has its key. -/
structure Decoded (payload : Bytes) (blk : Block) : Prop where
  length_le : blk.data.length ≤ payload.length
  keys : blk.restartKeys.length = blk.restarts.length

/-- **`Decode` stays within the payload.** -/
theorem safe_decode (payload : Bytes) : Safe (Decoded payload) (decode payload) := by
  have hcountSize : blockCountSize = 4 := rfl
  refine (safe_failIf (by decide)).bind fun _ hlen => ?_
  refine (returns_uint32At (by omega)).bind fun count _ => ?_
  refine (safe_failIf (by decide)).bind fun _ hcount => ?_
  rw [show blockOffsetSize = 4 from rfl] at hcount ⊢
  refine (returns_sub (Nat.zero_le _) (by omega)).bind fun data hdata => ?_
  refine (safe_failIf (by decide)).bind fun _ _ => ?_
  refine (safe_readRestarts (by omega)).bind fun restarts _ => ?_
  refine (safe_readRestartKeys data restarts).bind fun keys hkeys => .pure ⟨?_, hkeys⟩
  exact (by omega : data.length ≤ payload.length)

/-! ## The cursor -/

/-- **A call of `Next` stays within the data** and moves on by a header at
least, up to the limit. -/
theorem safe_next {c : Cursor} (hlimit : c.limit ≤ data.length) :
    Safe (fun r : Option (EntryView × Cursor) => ∀ e c', r = some (e, c') →
      c.offset + 21 ≤ c'.offset ∧ c'.offset ≤ c'.limit ∧ c'.limit = c.limit) (c.next data) := by
  have hsize : entryHeaderSize = 21 := rfl
  refine .ite (fun _ => .ok (by simp)) fun hlt => ?_
  refine (safe_failIf (by decide)).bind fun _ hlen => ?_
  refine (returns_uint32At (by omega)).bind fun shared _ => ?_
  refine (returns_uint32At (by omega)).bind fun unshared _ => ?_
  refine (returns_uint32At (by omega)).bind fun valLen _ => ?_
  refine (returns_uint64At (by omega)).bind fun seq _ => ?_
  refine (returns_byteAt (by omega)).bind fun flags _ => ?_
  refine (safe_failIf (by decide)).bind fun _ hend => ?_
  refine (safe_failIf (by decide)).bind fun _ _ => ?_
  refine (returns_sub (by omega) (by omega)).bind fun suffix _ => ?_
  refine (returns_sub (by omega) (by omega)).bind fun value _ => .pure ?_
  intro e c' heq
  obtain ⟨-, rfl⟩ := Prod.mk.inj (Option.some.inj heq)
  exact ⟨by dsimp only; omega, by dsimp only; omega, rfl⟩

/-- How repeated calls of `Next` end. -/
inductive ScanEnd
  /-- They have not ended. -/
  | more
  | done
  | failed (f : Fault)
  deriving DecidableEq, Repr

/-- A number of calls of `Next`: the entries they return, and how they
end. -/
def Cursor.scan (data : Bytes) : ℕ → Cursor → List EntryView × ScanEnd
  | 0, _ => ([], .more)
  | calls + 1, c =>
    match c.next data with
    | .error f => ([], .failed f)
    | .ok none => ([], .done)
    | .ok (some (e, c')) => (e :: (scan data calls c').1, (scan data calls c').2)

/-- A scan has ended, and not by a panic. -/
def ScanEnd.Sound (o : ScanEnd) : Prop := o = .done ∨ ∃ f, o = .failed f ∧ f ≠ .panic

/-- **A scan ends.** It returns at most an entry for every header that
fits, and is over with the call after. -/
theorem scan_ends (calls : ℕ) {c : Cursor} (hlimit : c.limit ≤ data.length) :
    21 * (c.scan data calls).1.length ≤ c.limit - c.offset ∧
      (c.limit - c.offset < 21 * calls → (c.scan data calls).2.Sound) := by
  induction calls generalizing c with
  | zero => exact ⟨Nat.zero_le _, fun h => absurd h (by omega)⟩
  | succ calls ih =>
    have hnext := safe_next hlimit
    unfold Cursor.scan
    split
    · next f hf => exact ⟨Nat.zero_le _, fun _ => .inr ⟨f, rfl, hnext.2 f hf⟩⟩
    · exact ⟨Nat.zero_le _, fun _ => .inl rfl⟩
    · next e c' hok =>
      obtain ⟨hoff, hle, heq⟩ := hnext.1 _ hok e c' rfl
      obtain ⟨hlen, hsound⟩ := ih (c := c') (by omega)
      refine ⟨?_, fun hlt => hsound (by omega)⟩
      rw [List.length_cons]
      omega

theorem newCursor_limit_le (blk : Block) (offset limit : ℕ) :
    (newCursor blk offset limit).limit ≤ blk.data.length := by
  unfold newCursor
  dsimp only
  split <;> omega

/-- However often `Next` is called, a scan returns no more entries than
this, and it is over with the call after. -/
def EndsWithin (data : Bytes) (n : ℕ) (c : Cursor) : Prop :=
  ∀ calls, (c.scan data calls).1.length ≤ n ∧ (n < calls → (c.scan data calls).2.Sound)

theorem endsWithin_of_le {n : ℕ} {c : Cursor} (hlimit : c.limit ≤ data.length)
    (hn : c.limit - c.offset ≤ n) : EndsWithin data n c := by
  intro calls
  obtain ⟨hlen, hsound⟩ := scan_ends calls hlimit
  exact ⟨by omega, fun hlt => hsound (by omega)⟩

/-! ## The loops of `FindView` and `Seek`

Both call `Next` until an entry decides the search.
-/

/-- Calling `Next` until an entry is an answer. -/
def Cursor.until {β : Type} (data : Bytes) (answer : EntryView → Cursor → Option (Option β)) :
    ℕ → Cursor → Except Fault (Option β)
  | 0, _ => .ok none
  | fuel + 1, c => do
    match ← c.next data with
    | none => return none
    | some (e, c) =>
      match answer e c with
      | some r => return r
      | none => Cursor.until data answer fuel c

section Until

variable {β : Type} {answer : EntryView → Cursor → Option (Option β)} {fuel fuel' : ℕ} {c : Cursor}

/-- An answer is given at a cursor within the data. -/
theorem safe_until (hlimit : c.limit ≤ data.length) :
    Safe (fun r : Option β => ∀ b, r = some b → ∃ e c', c'.limit ≤ data.length ∧
      answer e c' = some (some b)) (c.until data answer fuel) := by
  induction fuel generalizing c with
  | zero => exact .ok (by simp)
  | succ fuel ih =>
    refine (safe_next hlimit).bind fun r hr => ?_
    rcases r with _ | ⟨e, c'⟩
    · exact .pure (by simp)
    · obtain ⟨-, -, heq⟩ := hr e c' rfl
      cases hanswer : answer e c' with
      | none => simpa only [hanswer] using ih (c := c') (by omega)
      | some r =>
        simp only [hanswer]
        refine .pure fun b hb => ⟨e, c', by omega, ?_⟩
        rw [hanswer, hb]

/-- Without a byte left, `Next` returns nothing. -/
theorem until_of_le (hle : c.limit ≤ c.offset) : c.until data answer fuel = .ok none := by
  cases fuel with
  | zero => rfl
  | succ fuel =>
    rw [Cursor.until, Cursor.next, if_pos hle]
    rfl

/-- **The loop is never cut short**: with as many calls as there are bytes
left, a larger number makes no difference. -/
theorem until_congr (hlimit : c.limit ≤ data.length) (hfuel : c.limit - c.offset ≤ fuel)
    (hfuel' : c.limit - c.offset ≤ fuel') :
    c.until data answer fuel = c.until data answer fuel' := by
  induction fuel generalizing c fuel' with
  | zero => rw [until_of_le (by omega), until_of_le (by omega)]
  | succ fuel ih =>
    rcases fuel' with _ | fuel'
    · rw [until_of_le (by omega), until_of_le (by omega)]
    · rw [Cursor.until, Cursor.until]
      cases hnext : c.next data with
      | error f => rfl
      | ok r =>
        rcases r with _ | ⟨e, c'⟩
        · rfl
        · obtain ⟨hoff, hle, heq⟩ := (safe_next hlimit).1 _ hnext e c' rfl
          cases hanswer : answer e c' with
          | some r => simp only [bind, Except.bind, hanswer]
          | none =>
            simp only [bind, Except.bind, hanswer]
            exact ih (c := c') (by omega) (by omega) (by omega)

end Until

/-- What decides `FindView`. -/
def findAnswer (key : Bytes) (e : EntryView) (_ : Cursor) : Option (Option EntryView) :=
  if e.key = key then some (some e) else if key < e.key then some none else none

/-- What decides `Seek`. -/
def seekAnswer (key : Bytes) (e : EntryView) (c : Cursor) : Option (Option (Cursor × EntryView)) :=
  if key ≤ e.key then some (some (c, e)) else none

theorem findLoop_eq (fuel : ℕ) (c : Cursor) :
    Block.findLoop data key fuel c = c.until data (findAnswer key) fuel := by
  induction fuel generalizing c with
  | zero => rfl
  | succ fuel ih =>
    refine congrArg (c.next data >>= ·) (funext fun r => ?_)
    rcases r with _ | ⟨e, c'⟩
    · rfl
    · dsimp only
      rw [findAnswer, ih]
      split
      · rfl
      · split <;> rfl

theorem seekLoop_eq (fuel : ℕ) (c : Cursor) :
    Block.seekLoop data key fuel c = c.until data (seekAnswer key) fuel := by
  induction fuel generalizing c with
  | zero => rfl
  | succ fuel ih =>
    refine congrArg (c.next data >>= ·) (funext fun r => ?_)
    rcases r with _ | ⟨e, c'⟩
    · rfl
    · dsimp only
      rw [seekAnswer, ih]
      split <;> rfl

/-! ## The searches -/

variable {blk : Block}

theorem safe_restartAt (hi : i < blk.restarts.length) : Safe (fun _ => True) (blk.restartAt i) := by
  rw [Block.restartAt, List.getElem?_eq_getElem hi]
  exact .ok trivial

/-- The binary search picks a restart point. -/
theorem restartIndex_lt (h : Decoded payload blk) (hne : blk.restarts ≠ []) (key : Bytes) :
    blk.restartIndex key < blk.restarts.length := by
  have hpos := List.length_pos_of_ne_nil hne
  have hle := search_le blk.restartKeys.length
    (fun i => (blk.restartKeys[i]?).any fun x => decide (key < x))
  rw [h.keys] at hle
  rw [Block.restartIndex, h.keys]
  omega

theorem safe_findView (h : Decoded payload blk) (key : Bytes) :
    Safe (fun _ => True) (blk.findView key) := by
  refine .ite (fun _ => .ok trivial) fun hne => ?_
  have hidx := restartIndex_lt h hne key
  refine (safe_restartAt hidx).bind fun offset _ => ?_
  refine Returns.bind (Q := fun _ => True) ?_ fun limit _ => ?_
  · exact .ite (fun hlt => safe_restartAt hlt) fun _ => .ok trivial
  · rw [findLoop_eq]
    exact (safe_until (newCursor_limit_le blk offset limit)).mono fun _ _ => trivial

/-- The cursor that `Seek` returns is within the data as well. -/
theorem safe_seek (h : Decoded payload blk) (key : Bytes) :
    Safe (fun r : Option (Cursor × EntryView) => ∀ c e, r = some (c, e) →
      c.limit ≤ blk.data.length) (blk.seek key) := by
  refine .ite (fun _ => .ok (by simp)) fun hne => ?_
  refine (safe_restartAt (restartIndex_lt h hne key)).bind fun offset _ => ?_
  rw [seekLoop_eq]
  refine (safe_until (newCursor_limit_le blk offset _)).mono fun r hr c e heq => ?_
  obtain ⟨e', c', hle, hanswer⟩ := hr (c, e) heq
  unfold seekAnswer at hanswer
  split at hanswer
  · obtain ⟨rfl, -⟩ := Prod.mk.inj (Option.some.inj (Option.some.inj hanswer))
    exact hle
  · cases hanswer

/-- **A data block is read within its bounds, and every scan of it ends.**
Whatever the payload, it is refused or the block it holds can be searched
for any key: the searches and the calls of `Next` from any restart point
read nothing outside the data, return no more entries than there are bytes,
and the loops of the searches run to their end. -/
theorem decode_scannable (payload key : Bytes) :
    decode payload ≠ .error .panic ∧
      ∀ blk, decode payload = .ok blk →
        blk.findView key ≠ .error .panic ∧
        blk.seek key ≠ .error .panic ∧
        (∀ off ∈ blk.restarts, ∀ limit,
          EndsWithin blk.data payload.length (newCursor blk off.toNat limit)) ∧
        (∀ c e, blk.seek key = .ok (some (c, e)) → EndsWithin blk.data payload.length c) ∧
        ∀ offset limit fuel, blk.data.length ≤ fuel →
          Block.findLoop blk.data key fuel (newCursor blk offset limit) =
            Block.findLoop blk.data key blk.data.length (newCursor blk offset limit) ∧
          Block.seekLoop blk.data key fuel (newCursor blk offset limit) =
            Block.seekLoop blk.data key blk.data.length (newCursor blk offset limit) := by
  refine ⟨(safe_decode payload).ne_panic, fun blk hok => ?_⟩
  have hdec := (safe_decode payload).1 blk hok
  have hends : ∀ c : Cursor, c.limit ≤ blk.data.length →
      EndsWithin blk.data payload.length c := by
    intro c hc
    have hlen := hdec.length_le
    exact endsWithin_of_le hc (by omega)
  refine ⟨(safe_findView hdec key).ne_panic, (safe_seek hdec key).ne_panic, ?_, ?_, ?_⟩
  · intro off _ limit
    exact hends _ (newCursor_limit_le blk _ limit)
  · intro c e hseek
    exact hends c ((safe_seek hdec key).1 _ hseek c e rfl)
  · intro offset limit fuel hfuel
    have hle := newCursor_limit_le blk offset limit
    rw [findLoop_eq, findLoop_eq, seekLoop_eq, seekLoop_eq]
    exact ⟨until_congr hle (by omega) (by omega), until_congr hle (by omega) (by omega)⟩

end LSMEngine.Format
