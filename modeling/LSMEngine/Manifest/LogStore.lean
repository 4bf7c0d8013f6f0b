import LSMEngine.Manifest.Model.LogStore
/-!
# Manifest — crashes of the log store

The log is a list of whole lines, and possibly the beginning of one more
that a crash left (`Shaped`). A beginning that is not a whole record is
passed over when the store is opened, so one crash loses nothing. But
the next append goes right behind it, and makes one line of both that
is no record: this update and all that follow are lost at the next
opening (`not_loaded_behind_torn`), until a checkpoint cuts the log.

As long as no update starts on a log that ends in the middle of a line,
an opened store loads what the last operation left, or the operation
that was in flight (`loaded_eq_expected`).
-/

namespace LSMEngine.Manifest

variable {M : Type} [Inhabited M] {J : Json M} {m : M} {files : Files}

/-! ## Reading the files -/

/-- What a store that is opened loads. -/
def diskState (J : Json M) (files : Files) : M :=
  readLog J files.log (readCheckpoint J files.checkpoint)

/-- The bytes of the log. -/
def Files.bytes (files : Files) : Bytes := files.log.getD []

/-- The beginning of a line that a crash may leave. -/
def Torn (J : Json M) (bytes : Bytes) : Prop :=
  bytes = [] ∨ ∃ m n, bytes = (J.marshal ⟨.snapshot, m⟩).take n

/-- Whole lines, and the beginning of one more. -/
def Shaped (J : Json M) (files : Files) (ms : List M) (torn : Bytes) : Prop :=
  files.bytes = ms.flatMap (recordLine J) ++ torn ∧ Torn J torn

omit [Inhabited M] in
/-- Record texts are not empty: two of them would be the same. -/
theorem marshal_ne_nil (J : Json M) (r : LogRecord M) : J.marshal r ≠ [] := by
  rcases J.marshal_ne_nil r with h | h
  · exact h
  · have hsame : J.unmarshal (J.marshal ⟨.snapshot, r.manifest⟩) =
        J.unmarshal (J.marshal ⟨.other, r.manifest⟩) := by rw [h, h]
    rw [J.unmarshal_marshal, J.unmarshal_marshal] at hsame
    cases hsame

omit [Inhabited M] in
theorem readLog_bytes (log : Option Bytes) (c : M) :
    readLog J log c = J.replay readRecord (splitLines (log.getD [])) c := by
  cases log <;> rfl

omit [Inhabited M] in
/-- The last whole line decides. -/
theorem foldl_readRecord (ms : List M) (c : M) :
    (ms.map (LogRecord.mk .snapshot)).foldl readRecord c = ms.getLast?.getD c := by
  induction ms generalizing c with
  | nil => rfl
  | cons m ms ih =>
    rw [List.map_cons, List.foldl_cons, ih]
    cases ms <;> rfl

omit [Inhabited M] in
theorem replay_shaped (ms : List M) (torn : Bytes) (c : M) :
    J.replay readRecord (splitLines (ms.flatMap (recordLine J) ++ torn)) c =
      J.replay readRecord (splitLines torn) (ms.getLast?.getD c) := by
  have hlines : ms.flatMap (recordLine J) = (ms.map (LogRecord.mk .snapshot)).flatMap J.line := by
    rw [List.flatMap_map]
    rfl
  rw [hlines, J.replay_lines, foldl_readRecord]

/-- Without a torn line, the last whole line is loaded, or the checkpoint. -/
theorem diskState_of_lines {ms : List M} (h : files.bytes = ms.flatMap (recordLine J)) :
    diskState J files = ms.getLast?.getD (readCheckpoint J files.checkpoint) := by
  have hreplay := replay_shaped (J := J) ms [] (readCheckpoint J files.checkpoint)
  rw [List.append_nil, ← h] at hreplay
  rw [diskState, readLog_bytes]
  exact hreplay

omit [Inhabited M] in
/-- A torn line changes nothing, or it is whole but for its break. -/
theorem replay_tornLine (m : M) (n : ℕ) (c : M) :
    J.replay readRecord (splitLines ((J.marshal ⟨.snapshot, m⟩).take n)) c =
      if n < (J.marshal ⟨.snapshot, m⟩).length then c else m := by
  split
  · next hn => exact J.replay_torn readRecord hn c
  · next hn =>
    rw [List.take_of_length_le (by omega), J.replay_untorn readRecord (marshal_ne_nil J _)]
    rfl

theorem readCheckpoint_marshalIndent (m : M) : readCheckpoint J (some (J.marshalIndent m)) = m := by
  rw [readCheckpoint, if_neg (J.marshalIndent_ne_nil m), J.unmarshal_marshalIndent]
  rfl

/-! ## Lines that end -/

/-- The log is empty, or its last line has its break. -/
def endsLine (files : Files) : Bool := files.bytes.getLast?.all (· == newline)

/-- No update starts in the middle of a line. -/
def tidy (s : State M) : Step M → Bool
  | .run (.update _) | .crash (.update _) _ _ => endsLine s.files
  | .run (.save _) | .crash (.save _) _ _ | .reopen _ => true

omit [Inhabited M] in
/-- A torn line has no break. -/
theorem torn_eq_nil {ms : List M} {torn : Bytes} (h : Shaped J files ms torn)
    (hend : endsLine files = true) : torn = [] := by
  by_contra hne
  rcases h.2 with htorn | ⟨m, n, htorn⟩
  · exact hne htorn
  · have hlast : files.bytes.getLast? = some (torn.getLast hne) := by
      rw [h.1, List.getLast?_append_of_ne_nil _ hne, List.getLast?_eq_some_getLast hne]
    rw [endsLine, hlast] at hend
    have hmem : newline ∈ J.marshal ⟨.snapshot, m⟩ := by
      have hget := List.getLast_mem hne
      rw [beq_iff_eq.mp hend] at hget
      exact List.mem_of_mem_take (htorn ▸ hget)
    exact J.newline_not_mem _ hmem

/-- What holds of a store and its files. -/
structure State.Sound (J : Json M) (s : State M) : Prop where
  shaped : ∃ ms torn, Shaped J s.files ms torn
  disk : diskState J s.files = s.expected
  memory : s.store.loaded = true → s.store.state = s.expected

theorem State.Sound.load {s : State M} (h : s.Sound J) :
    (load J s.store s.files).state = s.expected := by
  unfold Manifest.load
  split
  · next hl => exact h.memory hl
  · exact h.disk

theorem State.Sound.loaded {s : State M} (h : s.Sound J) : s.loaded J = s.expected := h.load

theorem loaded_newLogStore (n : ℤ) (files : Files) (x : M) :
    (⟨newLogStore n, files, x⟩ : State M).loaded J = diskState J files := rfl

/-! ## What the operations leave -/

section Files

variable {ms : List M}

omit [Inhabited M] in
theorem bytes_append (files : Files) (bytes : Bytes) :
    (files.append bytes).bytes = files.bytes ++ bytes := rfl

omit [Inhabited M] in
theorem bytes_truncateLog (files : Files) : files.truncateLog.bytes = [] := by
  cases h : files.log <;> simp only [Files.bytes, Files.truncateLog, h] <;> rfl

/-- A checkpoint on an empty log. -/
theorem diskState_checkpoint (files : Files) (m : M) :
    diskState J (files.writeCheckpoint J m).truncateLog = m := by
  have hbytes : (files.writeCheckpoint J m).truncateLog.bytes =
      ([] : List M).flatMap (recordLine J) := bytes_truncateLog _
  rw [diskState_of_lines hbytes]
  exact readCheckpoint_marshalIndent m

omit [Inhabited M] in
theorem shaped_truncateLog (files : Files) : Shaped J files.truncateLog [] [] :=
  ⟨bytes_truncateLog _, .inl rfl⟩

omit [Inhabited M] in
theorem bytes_recordLine (h : files.bytes = ms.flatMap (recordLine J)) (m : M) :
    (files.append (recordLine J m)).bytes = (ms ++ [m]).flatMap (recordLine J) := by
  rw [bytes_append, h, List.flatMap_append, List.flatMap_singleton]

/-- A whole line is loaded. -/
theorem diskState_recordLine (h : files.bytes = ms.flatMap (recordLine J)) (m : M) :
    diskState J (files.append (recordLine J m)) = m := by
  rw [diskState_of_lines (bytes_recordLine h m), List.getLast?_concat]
  rfl

/-- An append that stops somewhere leaves the manifest before it or its
own. -/
theorem append_take (h : files.bytes = ms.flatMap (recordLine J)) (m : M) (n : ℕ) :
    (∃ ms' torn, Shaped J (files.append ((recordLine J m).take n)) ms' torn) ∧
      (diskState J (files.append ((recordLine J m).take n)) = diskState J files ∨
        diskState J (files.append ((recordLine J m).take n)) = m) := by
  by_cases hn : n ≤ (J.marshal ⟨.snapshot, m⟩).length
  · have htake : (recordLine J m).take n = (J.marshal ⟨.snapshot, m⟩).take n :=
      List.take_append_of_le_length hn
    have hbytes : (files.append ((recordLine J m).take n)).bytes =
        ms.flatMap (recordLine J) ++ (J.marshal ⟨.snapshot, m⟩).take n := by
      rw [bytes_append, h, htake]
    refine ⟨⟨ms, _, hbytes, .inr ⟨m, n, rfl⟩⟩, ?_⟩
    have hread : diskState J (files.append ((recordLine J m).take n)) =
        J.replay readRecord (splitLines (files.append ((recordLine J m).take n)).bytes)
          (readCheckpoint J files.checkpoint) := readLog_bytes _ _
    rw [hread, hbytes, replay_shaped, replay_tornLine, diskState_of_lines h]
    split
    · exact .inl rfl
    · exact .inr rfl
  · have htake : (recordLine J m).take n = recordLine J m := by
      refine List.take_of_length_le ?_
      rw [recordLine, LineCodec.line, List.length_append, List.length_singleton]
      omega
    rw [htake]
    exact ⟨⟨ms ++ [m], [], (bytes_recordLine h m).trans (List.append_nil _).symm, .inl rfl⟩,
      .inr (diskState_recordLine h m)⟩

/-- A checkpoint under an old log is hidden by it, or loaded. -/
theorem writeCheckpoint_cases {torn : Bytes} (h : Shaped J files ms torn) (m : M) :
    diskState J (files.writeCheckpoint J m) = diskState J files ∨
      diskState J (files.writeCheckpoint J m) = m := by
  have hread : ∀ c, readLog J files.log c =
      J.replay readRecord (splitLines torn) (ms.getLast?.getD c) := fun c => by
    rw [readLog_bytes, ← replay_shaped, ← h.1]
    rfl
  have hnew : diskState J (files.writeCheckpoint J m) = readLog J files.log m :=
    congrArg (readLog J files.log) (readCheckpoint_marshalIndent m)
  rw [hnew, diskState, hread, hread]
  rcases List.eq_nil_or_concat ms with rfl | ⟨init, last, rfl⟩
  · rcases h.2 with rfl | ⟨m', n, rfl⟩
    · exact .inr rfl
    · rw [replay_tornLine, replay_tornLine]
      split
      · exact .inr rfl
      · exact .inl rfl
  · rw [List.concat_eq_append, List.getLast?_concat]
    exact .inl rfl

end Files

/-! ## Steps and runs -/

variable {s s' : State M}

/-- **An operation that completes.** -/
theorem sound_run (h : s.Sound J) (op : Op M) (htidy : tidy s (.run op) = true) :
    (⟨(op.run J s.store s.files).1, (op.run J s.store s.files).2,
      op.result J s.store s.files⟩ : State M).Sound J := by
  cases op with
  | save m =>
    exact ⟨⟨[], [], shaped_truncateLog _⟩, diskState_checkpoint s.files m, fun _ => rfl⟩
  | update fn =>
    obtain ⟨ms, torn, hshaped⟩ := h.shaped
    obtain rfl := torn_eq_nil hshaped htidy
    have hlines : s.files.bytes = ms.flatMap (recordLine J) :=
      hshaped.1.trans (List.append_nil _)
    simp only [Op.run, LogStore.update, Op.result]
    split
    · exact ⟨⟨[], [], shaped_truncateLog _⟩, diskState_checkpoint _ _, fun _ => rfl⟩
    · refine ⟨⟨ms ++ [fn (load J s.store s.files).state], [], ?_, .inl rfl⟩,
        diskState_recordLine hlines _, fun _ => rfl⟩
      exact (bytes_recordLine hlines _).trans (List.append_nil _).symm

/-- What a crash leaves can be loaded: the manifest before the operation
or the one it was to produce. -/
theorem crash_cases (h : s.Sound J) {op : Op M} {point : Point} {n : ℤ} {files : Files}
    (htidy : tidy s (.crash op point n) = true)
    (hcrash : op.crash J point s.store s.files = some files) :
    (∃ ms torn, Shaped J files ms torn) ∧
      (diskState J files = s.expected ∨ diskState J files = op.result J s.store s.files) := by
  obtain ⟨ms, torn, hshaped⟩ := h.shaped
  cases op with
  | save m =>
    cases point with
    | renamed =>
      obtain rfl := Option.some.inj hcrash
      refine ⟨⟨ms, torn, hshaped⟩, ?_⟩
      have hcases := writeCheckpoint_cases hshaped m
      rwa [h.disk] at hcases
    | appended k =>
      cases k with
      | zero =>
        obtain rfl := Option.some.inj hcrash
        exact ⟨⟨ms, torn, hshaped⟩, .inl h.disk⟩
      | succ k => cases hcrash
  | update fn =>
    -- without a torn line the log is whole records, and the crash tears the new one
    obtain rfl := torn_eq_nil hshaped htidy
    have hlines : s.files.bytes = ms.flatMap (recordLine J) :=
      hshaped.1.trans (List.append_nil _)
    cases point with
    | appended k =>
      obtain rfl := Option.some.inj hcrash
      have hcases := append_take hlines (fn (load J s.store s.files).state) k
      rwa [h.disk] at hcases
    | renamed =>
      simp only [Op.crash] at hcrash
      split at hcrash
      · obtain rfl := Option.some.inj hcrash
        have hbytes := bytes_recordLine hlines (fn (load J s.store s.files).state)
        refine ⟨⟨_, [], hbytes.trans (List.append_nil _).symm, .inl rfl⟩, .inr ?_⟩
        have hbytes' : ((s.files.append (recordLine J (fn (load J s.store s.files).state)))
            |>.writeCheckpoint J (fn (load J s.store s.files).state)).bytes = _ := hbytes
        rw [diskState_of_lines hbytes', List.getLast?_concat]
        rfl
      · cases hcrash

theorem sound_start (n : ℤ) : (start n : State M).Sound J :=
  ⟨⟨[], [], rfl, .inl rfl⟩, rfl, fun hl => by cases hl⟩

variable [DecidableEq M]

/-- **One step.** -/
theorem sound_act {a : Step M} (h : s.Sound J) (htidy : tidy s a = true)
    (hact : act J s a = some s') : s'.Sound J := by
  cases a with
  | run op =>
    obtain rfl := Option.some.inj hact
    exact sound_run h op htidy
  | reopen n =>
    obtain rfl := Option.some.inj hact
    exact ⟨h.shaped, h.disk, fun hl => by cases hl⟩
  | crash op point n =>
    obtain ⟨files, hcrash, rfl⟩ := Option.map_eq_some_iff.mp hact
    obtain ⟨hshaped, hdisk⟩ := crash_cases h htidy hcrash
    dsimp only
    rw [loaded_newLogStore]
    split
    · next heq => exact ⟨hshaped, heq, fun hl => by cases hl⟩
    · next hne => exact ⟨hshaped, hdisk.resolve_right hne, fun hl => by cases hl⟩

/-- **Crashes lose nothing where every update starts on a whole line.**
In every run of updates, saves, crashes and openings, a store loads the
manifest of the last operation that completed, or of the one in flight
at the crash. -/
theorem loaded_eq_expected {n : ℤ} {as : List (Step M)}
    (hrun : runs (act J) (start n) as = some s)
    (htidy : Along (act J) (fun s a => tidy s a = true) (start n) as) :
    s.loaded J = s.expected :=
  (runs_induction (P := State.Sound J) (fun _ _ _ h ht => sound_act h ht) (sound_start n) hrun
    htidy).loaded

/-! ## An update behind a torn line -/

/-- A number in JSON. -/
def digits (n : UInt64) : Bytes := (Nat.toDigits 10 n.toNat).map fun c => UInt8.ofNat c.toNat

def readDigits (text : Bytes) : UInt64 :=
  UInt64.ofNat (Nat.ofDigitChars 10 (text.map fun b => Char.ofNat b.toNat) 0)

theorem isDigit_toNat {c : Char} (h : c.isDigit = true) : 48 ≤ c.toNat ∧ c.toNat ≤ 57 := by
  rw [Char.isDigit, Bool.and_eq_true, decide_eq_true_eq, decide_eq_true_eq] at h
  exact ⟨h.1, h.2⟩

theorem readDigits_digits (n : UInt64) : readDigits (digits n) = n := by
  have hchars : (digits n).map (fun b => Char.ofNat b.toNat) = Nat.toDigits 10 n.toNat := by
    rw [digits, List.map_map]
    refine (List.map_congr_left fun c hc => ?_).trans (List.map_id _)
    have hdigit := isDigit_toNat (Nat.isDigit_of_mem_toDigits (by decide) (by decide) hc)
    show Char.ofNat (UInt8.ofNat c.toNat).toNat = c
    rw [UInt8.toNat_ofNat', Nat.mod_eq_of_lt (by omega), Char.ofNat_toNat]
  rw [readDigits, hchars, Nat.ofDigitChars_ten_toDigits, UInt64.ofNat_toNat]

theorem not_mem_digits {b : UInt8} (hb : ¬ (48 ≤ b.toNat ∧ b.toNat ≤ 57)) (n : UInt64) :
    b ∉ digits n := by
  intro h
  obtain ⟨c, hc, rfl⟩ := List.mem_map.mp h
  have hdigit := isDigit_toNat (Nat.isDigit_of_mem_toDigits (by decide) (by decide) hc)
  rw [UInt8.toNat_ofNat', Nat.mod_eq_of_lt (by omega)] at hb
  exact hb hdigit

/-- The number between two texts. -/
def readBetween (ahead behind text : Bytes) : Option UInt64 :=
  let n := readDigits ((text.drop ahead.length).take (text.length - ahead.length - behind.length))
  if text = ahead ++ (digits n ++ behind) then some n else none

theorem readBetween_text (ahead behind : Bytes) (n : UInt64) :
    readBetween ahead behind (ahead ++ (digits n ++ behind)) = some n := by
  have hmiddle : ((ahead ++ (digits n ++ behind)).drop ahead.length).take
      ((ahead ++ (digits n ++ behind)).length - ahead.length - behind.length) = digits n := by
    rw [List.drop_left, List.length_append, List.length_append, Nat.add_sub_cancel_left,
      Nat.add_sub_cancel, List.take_left]
  rw [readBetween, hmiddle, readDigits_digits, if_pos rfl]

theorem eq_of_readBetween {ahead behind text : Bytes} {n : UInt64}
    (h : readBetween ahead behind text = some n) : text = ahead ++ (digits n ++ behind) := by
  unfold readBetween at h
  dsimp only at h
  split at h
  · next htext => exact Option.some.inj h ▸ htext
  · cases h

/-- What stands ahead of `wal_seq` in a record, by its type. -/
def ahead (type : RecordType) : Bytes :=
  match type with
  | .snapshot => "\x7b\"type\":\"snapshot\",\"manifest\":\x7b\"wal_seq\":".toUTF8.toList
  | .other => "\x7b\"type\":\"\",\"manifest\":\x7b\"wal_seq\":".toUTF8.toList

/-- What stands behind it, if there are no tables. -/
def behind : Bytes := ",\"tables\":null\x7d\x7d".toUTF8.toList

def recordText (r : LogRecord UInt64) : Bytes := ahead r.type ++ (digits r.manifest ++ behind)

def readRecordText (text : Bytes) : Option (LogRecord UInt64) :=
  match readBetween (ahead .snapshot) behind text with
  | some n => some ⟨.snapshot, n⟩
  | none => (readBetween (ahead .other) behind text).map (LogRecord.mk .other)

theorem readRecordText_recordText (r : LogRecord UInt64) :
    readRecordText (recordText r) = some r := by
  obtain ⟨type, n⟩ := r
  rw [readRecordText]
  cases type with
  | snapshot =>
    have hread : readBetween (ahead .snapshot) behind (recordText ⟨.snapshot, n⟩) = some n :=
      readBetween_text _ _ _
    rw [hread]
  | other =>
    have hread : readBetween (ahead .other) behind (recordText ⟨.other, n⟩) = some n :=
      readBetween_text _ _ _
    split
    · next m hm =>
      -- the two kinds of texts differ in their tenth byte
      have htake : (ahead .other ++ (digits n ++ behind)).take 10 =
        (ahead .snapshot ++ (digits m ++ behind)).take 10 := by rw [← eq_of_readBetween hm, recordText]
      rw [List.take_append_of_le_length (by decide +kernel),
        List.take_append_of_le_length (by decide +kernel)] at htake
      exact absurd htake (by decide +kernel)
    · rw [hread]
      rfl

theorem eq_of_readRecordText {text : Bytes} {r : LogRecord UInt64}
    (h : readRecordText text = some r) : text = recordText r := by
  unfold readRecordText at h
  split at h
  · next n hn => exact Option.some.inj h ▸ eq_of_readBetween hn
  · obtain ⟨n, hn, rfl⟩ := Option.map_eq_some_iff.mp h
    exact eq_of_readBetween hn

/-- A record opens two braces and closes them. -/
theorem count_recordText (r : LogRecord UInt64) :
    (recordText r).count 123 = 2 ∧ (recordText r).count 125 = 2 := by
  have hahead : ∀ type, (ahead type).count 123 = 2 ∧ (ahead type).count 125 = 0 := by
    intro type
    cases type <;> decide +kernel
  have hdigits : ∀ b : UInt8, ¬ (48 ≤ b.toNat ∧ b.toNat ≤ 57) → (digits r.manifest).count b = 0 :=
    fun b hb => List.count_eq_zero.mpr (not_mem_digits hb _)
  have hbehind : behind.count 123 = 0 ∧ behind.count 125 = 2 := by decide +kernel
  rw [recordText, List.count_append, List.count_append, List.count_append, List.count_append,
    (hahead _).1, (hahead _).2, hdigits 123 (by decide), hdigits 125 (by decide), hbehind.1,
    hbehind.2]
  exact ⟨rfl, rfl⟩

theorem readRecordText_take (r : LogRecord UInt64) (n : ℕ) (hn : n < (recordText r).length) :
    readRecordText ((recordText r).take n) = none := by
  by_contra hsome
  obtain ⟨t, ht⟩ := Option.ne_none_iff_exists'.mp hsome
  -- the last brace is missing
  have hcount := congrArg (List.count 125) (List.take_append_drop n (recordText r))
  rw [List.count_append, eq_of_readRecordText ht, (count_recordText t).2,
    (count_recordText r).2] at hcount
  have hlast : (recordText r).getLast? = some 125 := by
    have hbehind : behind.getLast? = some 125 := by decide +kernel
    rw [recordText, List.getLast?_append, List.getLast?_append, hbehind]
    rfl
  have hmem : (125 : UInt8) ∈ (recordText r).drop n := by
    refine List.mem_of_getLast? ?_
    rw [List.getLast?_drop, if_neg (not_le.mpr hn), hlast]
  have := List.count_pos_iff.mpr hmem
  omega

theorem readRecordText_behind (r t : LogRecord UInt64) (n : ℕ) (h0 : 0 < n)
    (_ : n ≤ (recordText r).length) :
    readRecordText ((recordText r).take n ++ recordText t) = none := by
  by_contra hsome
  obtain ⟨u, hu⟩ := Option.ne_none_iff_exists'.mp hsome
  -- there is one opening brace more
  have hcount := congrArg (List.count 123) (eq_of_readRecordText hu)
  rw [List.count_append, (count_recordText t).1, (count_recordText u).1] at hcount
  have hmem : (123 : UInt8) ∈ (recordText r).take n := by
    have hahead : ∀ type, (ahead type).head? = some 123 := by
      intro type
      cases type <;> decide +kernel
    refine List.mem_of_head? ?_
    rw [List.head?_take, if_neg h0.ne', recordText, List.head?_append, hahead]
    rfl
  have := List.count_pos_iff.mpr hmem
  omega

theorem newline_not_mem_recordText (r : LogRecord UInt64) : newline ∉ recordText r := by
  have hahead : ∀ type, newline ∉ ahead type := by
    intro type
    cases type <;> decide +kernel
  rw [recordText, List.mem_append, List.mem_append]
  rintro (h | h | h)
  · exact hahead _ h
  · exact not_mem_digits (by decide) _ h
  · exact absurd h (by decide +kernel)

/-- The texts of manifests without tables, by their `wal_seq`. -/
def walSeqTexts : Json UInt64 where
  marshal := recordText
  unmarshal := readRecordText
  unmarshal_marshal := readRecordText_recordText
  newline_not_mem := newline_not_mem_recordText
  unmarshal_take := readRecordText_take
  unmarshal_behind := readRecordText_behind
  marshalIndent n := "\x7b\n  \"wal_seq\": ".toUTF8.toList ++
    (digits n ++ ",\n  \"tables\": null\n\x7d".toUTF8.toList)
  unmarshalManifest := readBetween "\x7b\n  \"wal_seq\": ".toUTF8.toList
    ",\n  \"tables\": null\n\x7d".toUTF8.toList
  marshalIndent_ne_nil n h := by
    have hnil := (List.append_eq_nil_iff.mp h).1
    exact absurd hnil (by decide +kernel)
  unmarshal_marshalIndent := readBetween_text _ _

/-- An update, one that a crash stops in its third byte, and a save. -/
def saveAfterCrash : List (Step UInt64) :=
  [.run (.update fun _ => 1), .crash (.update fun _ => 2) (.appended 3) 2, .run (.save 3),
    .run (.update fun m => m + 1), .reopen 2]

theorem loaded_saveAfterCrash :
    Along (act walSeqTexts) (fun s a => tidy s a = true) (start 2) saveAfterCrash ∧
      ∃ s, runs (act walSeqTexts) (start 2) saveAfterCrash = some s ∧ s.expected = 4 ∧
        s.loaded walSeqTexts = s.expected := by
  have htidy : Along (act walSeqTexts) (fun s a => tidy s a = true) (start 2) saveAfterCrash :=
    along_of_check (by decide +kernel)
  have hfinal : (runs (act walSeqTexts) (start 2) saveAfterCrash).map State.expected = some 4 := by
    decide +kernel
  obtain ⟨s, hrun, hexpected⟩ := Option.map_eq_some_iff.mp hfinal
  exact ⟨htidy, s, hrun, hexpected, loaded_eq_expected hrun htidy⟩

omit [DecidableEq M] in
/-- A line that begins with a piece of another is no record. -/
theorem diskState_behind_torn {a b c : M} {n : ℕ} (h0 : 0 < n)
    (hn : n ≤ (J.marshal ⟨.snapshot, b⟩).length)
    (hbytes : files.bytes =
      recordLine J a ++ ((recordLine J b).take n ++ recordLine J c)) :
    diskState J files = a := by
  have htake : (recordLine J b).take n = (J.marshal ⟨.snapshot, b⟩).take n :=
    List.take_append_of_le_length hn
  have hline : newline ∉ (J.marshal ⟨.snapshot, b⟩).take n ++ J.marshal ⟨.snapshot, c⟩ := by
    intro h
    rcases List.mem_append.mp h with h | h
    · exact J.newline_not_mem _ (List.mem_of_mem_take h)
    · exact J.newline_not_mem _ h
  have hlines : splitLines ((recordLine J b).take n ++ recordLine J c) =
      [(J.marshal ⟨.snapshot, b⟩).take n ++ J.marshal ⟨.snapshot, c⟩] := by
    rw [htake, recordLine, LineCodec.line, ← List.append_assoc, splitLines_line hline]
    rfl
  have hfirst : recordLine J a = [a].flatMap (recordLine J) := (List.flatMap_singleton _ _).symm
  have hread : diskState J files = J.replay readRecord (splitLines files.bytes)
      (readCheckpoint J files.checkpoint) := readLog_bytes _ _
  rw [hread, hbytes, hfirst, replay_shaped, hlines, LineCodec.replay,
    J.unmarshal_behind _ _ n h0 hn]
  rfl

theorem act_crash {s : State M} {op : Op M} {point : Point} {n : ℤ} {files : Files}
    (h : op.crash J point s.store s.files = some files) :
    ∃ x, act J s (.crash op point n) = some ⟨newLogStore n, files, x⟩ := by
  simp only [act, h, Option.map_some]
  split
  · exact ⟨_, rfl⟩
  · exact ⟨_, rfl⟩

/-- **An update behind a torn line is lost.** Whatever the texts of the
records are: the second update stops after its first byte, the third
completes, and the store that is opened next loads the first. -/
theorem not_loaded_behind_torn (J : Json UInt64) :
    ¬ ∀ (n : ℤ) (as : List (Step UInt64)) (s : State UInt64),
      runs (act J) (start n) as = some s → s.loaded J = s.expected := by
  intro hall
  have hfirst : act J (start 128) (.run (.update fun _ => 1)) =
      some ⟨⟨128, true, 1, 1⟩, ⟨none, some (recordLine J 1)⟩, 1⟩ := rfl
  have hcrash : (Op.update fun _ => 2).crash J (.appended 1) ⟨128, true, 1, 1⟩
      ⟨none, some (recordLine J 1)⟩ =
        some ⟨none, some (recordLine J 1 ++ (recordLine J 2).take 1)⟩ := rfl
  obtain ⟨x, hsecond⟩ : ∃ x, act J ⟨⟨128, true, 1, 1⟩, ⟨none, some (recordLine J 1)⟩, 1⟩
      (.crash (.update fun _ => 2) (.appended 1) 128) = some ⟨newLogStore 128,
        ⟨none, some (recordLine J 1 ++ (recordLine J 2).take 1)⟩, x⟩ := act_crash hcrash
  have hthird : act J ⟨newLogStore 128,
      ⟨none, some (recordLine J 1 ++ (recordLine J 2).take 1)⟩, x⟩ (.run (.update fun _ => 3)) =
        some ⟨⟨128, true, 3, 1⟩,
          ⟨none, some (recordLine J 1 ++ (recordLine J 2).take 1 ++ recordLine J 3)⟩, 3⟩ := rfl
  have hrun : runs (act J) (start 128) [.run (.update fun _ => 1),
      .crash (.update fun _ => 2) (.appended 1) 128, .run (.update fun _ => 3), .reopen 128] =
        some ⟨newLogStore 128,
          ⟨none, some (recordLine J 1 ++ (recordLine J 2).take 1 ++ recordLine J 3)⟩, 3⟩ := by
    rw [runs, hfirst, Option.bind_some, runs, hsecond, Option.bind_some, runs, hthird,
      Option.bind_some]
    rfl
  have hloaded := hall 128 _ _ hrun
  rw [loaded_newLogStore, diskState_behind_torn Nat.one_pos
    (List.length_pos_iff.mpr (marshal_ne_nil J _)) (List.append_assoc _ _ _)] at hloaded
  have hsame : (1 : UInt64) = 3 := hloaded
  exact absurd hsame (by decide)

/-- Not every run of the store loads what it is to hold. -/
theorem torn_line_hides_update :
    ¬ ∀ (J : Json UInt64) (n : ℤ) (as : List (Step UInt64)) (s : State UInt64),
      runs (act J) (start n) as = some s → s.loaded J = s.expected :=
  fun hall => not_loaded_behind_torn walSeqTexts (hall walSeqTexts)

end LSMEngine.Manifest
