import LSMEngine.Engine.Model.GetContext
import LSMEngine.Format.Faults
import LSMEngine.Format.Get
/-!
# Engine — `GetContext` fails closed

Whatever reads of the tables fail or return corrupt bytes, `GetContext`
returns an error or exactly what it returns if every read succeeds
(`getContext_failsClosed`). This holds from any state of the caches, and
what failed in earlier calls does not matter either: the caches hold what
the intact sources have.
-/

namespace LSMEngine.Engine

open Format (Platform Source State Fault Faulty Coherent Sound IsError bare)

variable {P : Platform} {good bad : ℕ → Source}

/-- A result that is an error the caller is told of. -/
def Fails {α : Type} (res : Except Fault α) : Prop := ∃ f, IsError f ∧ res = .error f

/-! ## One call -/

theorem searchTables_agrees (h : ∀ i, Faulty (good i) (bad i)) (ctx : ℕ → Option Fault) (k : Bytes)
    (i : ℕ) (ts : List Opened) :
    searchTables P bad ctx k i ts = searchTables P good ctx k i ts ∨
      Fails (searchTables P bad ctx k i ts).1 := by
  induction ts generalizing i with
  | nil => exact .inl rfl
  | cons t ts ih =>
    rcases Format.getViewContext_agrees ((h i).degrades P) t.reader (ctx i) k t.state with
      heq | ⟨f, hf, herr⟩
    · rw [searchTables, searchTables, heq]
      rcases (t.reader.getViewContext P (good i) (ctx i) k).exec t.state with ⟨res, s⟩
      match res with
      | .error f => exact .inl rfl
      | .ok (some v) => exact .inl rfl
      | .ok none => exact (ih (i + 1)).imp (fun heq => by rw [heq]) id
    · right
      refine ⟨f, hf, ?_⟩
      rw [searchTables]
      rcases hexec : (t.reader.getViewContext P (bad i) (ctx i) k).exec t.state with ⟨res, s⟩
      rw [hexec] at herr
      obtain rfl : res = .error f := herr
      rfl

/-- Beyond the tables a call does the same. -/
theorem getContext_agrees (h : ∀ i, Faulty (good i) (bad i)) (sig : Signals) (mems : List Memtable)
    (k : Bytes) (ts : List Opened) :
    getContext P bad sig mems k ts = getContext P good sig mems k ts ∨
      Fails (getContext P bad sig mems k ts).1 := by
  unfold getContext
  split
  · exact .inl rfl
  · split
    · exact .inl rfl
    · rcases searchTables_agrees h sig.table k 0 ts with heq | ⟨f, hf, herr⟩
      · exact .inl (by rw [heq])
      · exact .inr ⟨f, hf, by simp only [herr]⟩

/-! ## Earlier calls -/

/-- A call of `GetContext`: what is read from, and what is asked. -/
structure Call where
  src : ℕ → Source
  sig : Signals
  mems : List Memtable
  key : Bytes

/-- The tables after some calls. -/
def afterCalls (P : Platform) (calls : List Call) (ts : List Opened) : List Opened :=
  calls.foldl (fun ts c => (getContext P c.src c.sig c.mems c.key ts).2) ts

/-- The tables without their caches. -/
def uncached (ts : List Opened) : List Opened := ts.map fun t => { t with state := bare }

/-- The caches of the tables hold what the intact sources have. -/
def Intact (P : Platform) (good : ℕ → Source) : ℕ → List Opened → Prop
  | _, [] => True
  | i, t :: ts => (Coherent P (good i) t.reader ∧ Sound P (good i) t.reader t.state) ∧
    Intact P good (i + 1) ts

theorem searchTables_intact (h : ∀ i, Faulty (good i) (bad i)) (ctx : ℕ → Option Fault) (k : Bytes)
    {i : ℕ} {ts : List Opened} (hts : Intact P good i ts) :
    ((searchTables P bad ctx k i ts).1 = (searchTables P good ctx k i (uncached ts)).1 ∨
        Fails (searchTables P bad ctx k i ts).1) ∧
      Intact P good i (searchTables P bad ctx k i ts).2 ∧
      uncached (searchTables P bad ctx k i ts).2 = uncached ts := by
  induction ts generalizing i with
  | nil => exact ⟨.inl rfl, trivial, rfl⟩
  | cons t ts ih =>
    obtain ⟨⟨hco, hsound⟩, hrest⟩ := hts
    obtain ⟨hout, hkeep⟩ := Format.getViewContext_bare hco ((h i).degrades P) (ctx i) k hsound
    obtain ⟨hans, hintact, huncached⟩ := ih hrest
    have hcons : uncached (t :: ts) = { t with state := bare } :: uncached ts := rfl
    rw [hcons, searchTables, searchTables]
    rcases hexec : (t.reader.getViewContext P (bad i) (ctx i) k).exec t.state with ⟨res, s⟩
    rcases hexec₀ : (t.reader.getViewContext P (good i) (ctx i) k).exec bare with ⟨res₀, s₀⟩
    rw [hexec, hexec₀] at hout
    rw [hexec] at hkeep
    have htail : ∀ x : Except Fault (Option EntryView), Intact P good i
        (x, { t with state := s } :: ts).2 ∧ uncached (x, { t with state := s } :: ts).2 =
          { t with state := bare } :: uncached ts :=
      fun _ => ⟨⟨⟨hco, hkeep⟩, hrest⟩, rfl⟩
    rcases hout with hsame | ⟨f, hf, herr⟩
    · obtain rfl : res = res₀ := hsame
      match res with
      | .error f => exact ⟨.inl rfl, htail _⟩
      | .ok (some v) => exact ⟨.inl rfl, htail _⟩
      | .ok none =>
        refine ⟨hans, ⟨⟨hco, hkeep⟩, hintact⟩, ?_⟩
        exact congrArg ({ t with state := bare } :: ·) huncached
    · obtain rfl : res = .error f := herr
      exact ⟨.inr ⟨f, hf, rfl⟩, htail _⟩

theorem getContext_intact (h : ∀ i, Faulty (good i) (bad i)) (sig : Signals) (mems : List Memtable)
    (k : Bytes) {ts : List Opened} (hts : Intact P good 0 ts) :
    ((getContext P bad sig mems k ts).1 = (getContext P good sig mems k (uncached ts)).1 ∨
        Fails (getContext P bad sig mems k ts).1) ∧
      Intact P good 0 (getContext P bad sig mems k ts).2 ∧
      uncached (getContext P bad sig mems k ts).2 = uncached ts := by
  unfold getContext
  split
  · exact ⟨.inl rfl, hts, rfl⟩
  · split
    · exact ⟨.inl rfl, hts, rfl⟩
    · obtain ⟨hans, hintact, huncached⟩ := searchTables_intact h sig.table k hts
      refine ⟨hans.imp (fun heq => ?_) fun ⟨f, hf, herr⟩ => ⟨f, hf, ?_⟩, hintact, huncached⟩
      · simp only [heq]
      · simp only [herr]

/-- **Earlier calls do not matter**, whatever failed in them. -/
theorem intact_afterCalls {calls : List Call} (h : ∀ c ∈ calls, ∀ i, Faulty (good i) (c.src i))
    {ts : List Opened} (hts : Intact P good 0 ts) :
    Intact P good 0 (afterCalls P calls ts) ∧ uncached (afterCalls P calls ts) = uncached ts := by
  induction calls generalizing ts with
  | nil => exact ⟨hts, rfl⟩
  | cons c calls ih =>
    obtain ⟨-, hintact, huncached⟩ :=
      getContext_intact (h c List.mem_cons_self) c.sig c.mems c.key hts
    obtain ⟨hafter, hbare⟩ := ih (fun d hd => h d (List.mem_cons_of_mem _ hd)) hintact
    exact ⟨hafter, hbare.trans huncached⟩

/-! ## The result -/

/-- **`GetContext` fails closed.** From any state of the tables it
returns an error or what it returns if every read succeeds; and over
caches that were filled by calls with any failures, what it returns
without the caches. -/
theorem getContext_failsClosed (h : ∀ i, Faulty (good i) (bad i)) (sig : Signals)
    (mems : List Memtable) (k : Bytes) (ts : List Opened) :
    (Fails (getContext P bad sig mems k ts).1 ∨
        (getContext P bad sig mems k ts).1 = (getContext P good sig mems k ts).1) ∧
      (Intact P good 0 ts → ∀ calls : List Call, (∀ c ∈ calls, ∀ i, Faulty (good i) (c.src i)) →
        Fails (getContext P bad sig mems k (afterCalls P calls ts)).1 ∨
          (getContext P bad sig mems k (afterCalls P calls ts)).1 =
            (getContext P good sig mems k (uncached ts)).1) := by
  refine ⟨?_, fun hts calls hcalls => ?_⟩
  · exact (getContext_agrees h sig mems k ts).symm.imp id (congrArg Prod.fst)
  · obtain ⟨hintact, hbare⟩ := intact_afterCalls hcalls hts
    have hans := (getContext_intact h sig mems k hintact).1
    rw [hbare] at hans
    exact hans.symm

/-- Nothing is cancelled or closed. -/
def Signals.quiet : Signals := ⟨none, false, none, false, none, none, fun _ => none, none⟩

/-- The sources of two tables. -/
def sources (t t' : Format.Table) (i : ℕ) : Source :=
  Format.fileSource (if i = 0 then t.file else t'.file)

/-- The same where nothing can be read of the first one. -/
def firstTorn (t' : Format.Table) (i : ℕ) : Source :=
  if i = 0 then fun _ _ => .ok [0] else Format.fileSource t'.file

theorem faulty_firstTorn (t t' : Format.Table) (i : ℕ) :
    Faulty (sources t t' i) (firstTorn t' i) := by
  intro offset length
  rw [sources, firstTorn]
  split
  · exact .inr (.inr ⟨[0], .inl (by decide), rfl⟩)
  · exact .inl rfl

/-- A newer table that cannot be read, above one with an older version:
that version is not returned. -/
theorem getContext_failsClosed_newer :
    ∃ t t', Format.flush .plain .plain [⟨[1], [8], false, 2⟩] = .ok t ∧
      Format.flush .plain .plain [⟨[1], [7], false, 1⟩] = .ok t' ∧
      ∀ calls : List Call, (∀ c ∈ calls, ∀ i, Faulty (sources t t' i) (c.src i)) →
        Fails (getContext .plain (firstTorn t') .quiet [] [1]
            (afterCalls .plain calls [⟨t.reader, t.state⟩, ⟨t'.reader, t'.state⟩])).1 ∨
          (getContext .plain (firstTorn t') .quiet [] [1]
            (afterCalls .plain calls [⟨t.reader, t.state⟩, ⟨t'.reader, t'.state⟩])).1 =
            .ok (⟨[1], [8], false, 2⟩, true) := by
  have hgood : (do
      let t ← Format.flush .plain .plain [⟨[1], [8], false, 2⟩]
      let t' ← Format.flush .plain .plain [⟨[1], [7], false, 1⟩]
      (getContext .plain (sources t t') .quiet [] [1]
        (uncached [⟨t.reader, t.state⟩, ⟨t'.reader, t'.state⟩])).1) =
      .ok (⟨[1], [8], false, 2⟩, true) := by decide +kernel
  obtain ⟨t, hflush, hco, hsound⟩ := @Format.flush_coherent .plain .plain
    [⟨[1], [8], false, 2⟩] rfl (by decide) (by decide)
    ⟨fun _ _ => ⟨_, _, rfl⟩, by decide +kernel, by decide +kernel, by decide +kernel, rfl⟩
  obtain ⟨t', hflush', hco', hsound'⟩ := @Format.flush_coherent .plain .plain
    [⟨[1], [7], false, 1⟩] rfl (by decide) (by decide)
    ⟨fun _ _ => ⟨_, _, rfl⟩, by decide +kernel, by decide +kernel, by decide +kernel, rfl⟩
  rw [hflush, hflush'] at hgood
  refine ⟨t, t', hflush, hflush', fun calls hcalls => ?_⟩
  rw [← show _ = Except.ok _ from hgood]
  have hintact : Intact .plain (sources t t') 0 [⟨t.reader, t.state⟩, ⟨t'.reader, t'.state⟩] :=
    ⟨⟨hco, hsound⟩, ⟨hco', hsound'⟩, trivial⟩
  exact (getContext_failsClosed (faulty_firstTorn t t') .quiet [] [1] _).2 hintact calls hcalls

end LSMEngine.Engine
