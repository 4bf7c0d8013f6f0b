import LSMEngine.Format.Faults
import LSMEngine.Format.Get
import LSMEngine.Format.Opening
import LSMEngine.Format.Prefetch
/-!
# Format — readers with and without caches

Two readers over one file, one of them without caches and prefetching.
Every computation of the first has the outcome of the second, whatever
its caches hold of what the source has: block by block, for lookups, for
the rounds of a scan, and for any calls in any order (`answers_uncached`).
A prefetch does not check an entry against the size of the file, but a
read does so before it comes to the cache.

The one thing a file has to be for this is coherent: its index names no
offset with two lengths, since the caches know a block by its offset
alone. And room has to be made for the blocks of the budget, or the first
prefetch panics (`unaffordable_panics`).
-/

namespace LSMEngine.Format

/-- The reader without prefetching. -/
def Reader.plain (r : Reader) : Reader := { r with prefetchBudget := none }

section

variable {P : Platform} {src : Source} {r : Reader} {e : IndexEntry}

/-- The outcome of a computation is that of one without the caches. -/
abbrev Bares {α : Type} (P : Platform) (src : Source) (r : Reader) (x y : Read α) (Q : α → Prop) :
    Prop :=
  Prog.Refines (live P src r) x y Q

/-- The same outcome, from a state of a reader in use. -/
theorem Bares.exec {α : Type} {x y : Read α} {Q : α → Prop} (h : Bares P src r x y Q) {s : State}
    (hs : Live P src r s) :
    (x.exec s).1 = (y.exec bare).1 ∧ Live P src r (x.exec s).2 ∧ (y.exec bare).2 = bare ∧
      ∀ a, (y.exec bare).1 = .ok a → Q a := by
  obtain ⟨hout, ⟨hlive, hbare⟩, hQ⟩ := (h s bare ⟨hs, rfl⟩).resolve_right fun ⟨_, hbad, _⟩ => hbad
  exact ⟨hout, hlive, hbare, hQ⟩

/-! ## Lookups -/

/-- What `GetView` makes of an outcome. -/
def settle (x : Except Fault (Option EntryView)) : Except Fault (Option EntryView) :=
  match x with
  | .error .panic => .error .panic
  | .error _ => .ok none
  | .ok v => .ok v

theorem getView_eq (hpolicy : r.corruptionPolicy = .failFast) {key : Bytes} {s : State}
    (hs : s.dropped = false) :
    (r.getView P src key).exec s = if r.isOutside key then (.ok none, s)
      else (settle ((r.pipelineGet P src key).exec s).1, ((r.pipelineGet P src key).exec s).2) := by
  have hmark : ¬ r.corruptionPolicy = .dropTable := by
    rw [hpolicy]
    decide
  rw [Reader.getView, Prog.exec_mk, hs, Bool.false_or]
  by_cases hout : r.isOutside key = true
  · rw [if_pos hout, if_pos hout]
  · rw [if_neg hout, if_neg hout]
    rcases (r.pipelineGet P src key).exec s with ⟨x, t⟩
    rcases x with f | v
    · simp only [if_neg hmark]
      cases f <;> rfl
    · rfl

/-- **`Get`**, which takes a failure for a miss. -/
theorem bares_get (hco : Coherent P src r) (hpolicy : r.corruptionPolicy = .failFast)
    (key : Bytes) : Bares P src r (r.get P src key) (r.get P src key) fun _ => True := by
  refine .bind (Q := fun _ => True) ?_ fun v _ => .pure trivial
  rintro s _ ⟨hs, rfl⟩
  obtain ⟨hout, hlive, hbare, -⟩ := Bares.exec (pipelineGet_refines (fetches_live hco) key) hs
  rw [getView_eq hpolicy hs.2, getView_eq hpolicy rfl]
  left
  split
  · exact ⟨rfl, ⟨hs, rfl⟩, fun _ _ => trivial⟩
  · exact ⟨congrArg settle hout, ⟨hlive, hbare⟩, fun _ _ => trivial⟩

/-! ## Scans -/

/-- The entries an iterator holds are entries of the index. -/
def Indexed (P : Platform) (src : Source) (r : Reader) (it : RangeIterator) : Prop :=
  ∀ e ∈ it.partIndex, DataEntry P src r e

/-- The iterator of a round. -/
def Round.iterator : Round → RangeIterator
  | .again it => it
  | .found it => it
  | .ended it => it

section

variable (hco : Coherent P src r)
include hco

theorem bares_planLoop (hpart : r.partitioned = true) {entries : List IndexEntry}
    (hes : ∀ e ∈ entries, e ∈ r.top) (plan : Plan) :
    Bares P src r (Reader.planLoop P src entries plan) (Reader.planLoop P src entries plan)
      fun res => ∀ part, res.1 = .ok part → ∀ e ∈ part, DataEntry P src r e := by
  induction entries generalizing plan with
  | nil => exact .pure (by simp)
  | cons t ts ih =>
    have ht := hes t List.mem_cons_self
    refine ((fetches_live hco).index t ht hpart).attempt (fun _ => id) |>.bind fun res hres => ?_
    split
    · exact .pure (by simp)
    · exact ih (fun e he => hes e (List.mem_cons_of_mem _ he)) _
    · next part _ =>
      refine .pure fun part' hpart' => ?_
      obtain rfl : part = part' := Except.ok.inj hpart'
      exact hres part rfl

theorem bares_planNext (start : Bytes) (plan : Plan) :
    Bares P src r (r.planNext P src start plan) (r.planNext P src start plan)
      fun res => ∀ part, res.1 = .ok part → ∀ e ∈ part, DataEntry P src r e := by
  unfold Reader.planNext
  split
  · exact .pure (by simp)
  · split
    · next hpart => exact bares_planLoop hco hpart (fun e he => List.mem_of_mem_drop he) _
    · next hpart =>
      split
      · exact .pure (by simp)
      · refine .pure fun part hpart' => ?_
        obtain rfl : r.top = part := Except.ok.inj hpart'
        exact (fetches_live hco).top hpart

theorem bares_loadPartition (hpolicy : r.corruptionPolicy = .failFast) {fuel : ℕ}
    {it : RangeIterator} (hit : Indexed P src r it) :
    Bares P src r (r.loadPartition P src fuel it) (r.plain.loadPartition P src fuel it)
      fun res => Indexed P src r res.2 := by
  cases fuel with
  | zero => exact .pure hit
  | succ fuel =>
    refine (bares_planNext hco it.start it.plan).bind fun res hres => ?_
    rcases res with ⟨res, plan⟩
    rcases res with f | part
    · have hplain : r.plain.corruptionPolicy = .failFast := hpolicy
      cases f <;> simp only [hpolicy, hplain] <;> exact .pure hit
    · exact .pure (hres part rfl)

end

section

variable (hpolicy : r.corruptionPolicy = .failFast) {it : RangeIterator} (hit : Indexed P src r it)
include hpolicy hit

theorem bares_handleCorruption (f : Fault) :
    Bares P src r (r.handleCorruption it f) (r.handleCorruption it f)
      fun round => Indexed P src r round.iterator := by
  simp only [Reader.handleCorruption, hpolicy]
  exact .pure hit

theorem bares_advance (blk : Block) (c : Cursor) :
    Bares P src r (r.advance it blk c) (r.advance it blk c)
      fun round => Indexed P src r round.iterator := by
  unfold Reader.advance
  split
  · exact .pure hit
  · split
    · exact .throw _
    · exact bares_handleCorruption hpolicy hit _
    · exact .pure hit
    · split
      · exact .pure hit
      · exact .pure hit

theorem bares_position (blk : Block) :
    Bares P src r (r.position it blk) (r.position it blk)
      fun round => Indexed P src r round.iterator := by
  unfold Reader.position
  split
  · exact bares_advance hpolicy hit blk _
  · split
    · dsimp only
      split
      · exact .throw _
      · exact bares_handleCorruption hpolicy (by exact hit) _
      · exact .pure hit
      · split
        · exact .pure hit
        · exact bares_advance hpolicy (by exact hit) blk _
    · exact bares_advance hpolicy (by exact hit) blk _

end

section

variable (hco : Scannable P src r) (hsrc : src.Safe) (hpolicy : r.corruptionPolicy = .failFast)
include hco hsrc hpolicy

/-- **Reading a block**: the prefetch behind it changes the caches only. -/
theorem bares_loadBlock {it : RangeIterator} (hit : Indexed P src r it) :
    Bares P src r (r.loadBlock P src it) (r.plain.loadBlock P src it)
      fun round => Indexed P src r round.iterator := by
  refine .bind (Q := (· ∈ it.partIndex)) (.lift fun e he => mem_of_entryAt he) fun e he => ?_
  refine Prog.Refines.bind ((readBlockEntry_refines (fetches_live hco.toCoherent)
    (hit e he)).attempt fun _ => id) fun res _ => ?_
  rcases res with f | blk
  · exact bares_handleCorruption hpolicy hit f
  · have hnone : r.plain.prefetch P src it.partIndex it.blockI = pure () := rfl
    dsimp only
    rw [hnone, pure_bind]
    refine .silent (prefetch_live hco (fun d hd => ⟨hit d hd, ?_⟩) _) ?_
    · exact (safe_readDataBlock hsrc d).ne_panic
    · exact bares_position hpolicy (by exact hit) blk

/-- **A round of the loop of `Next`.** -/
theorem bares_body {it : RangeIterator} (hit : Indexed P src r it) :
    Bares P src r (r.body P src it) (r.plain.body P src it)
      fun round => Indexed P src r round.iterator := by
  unfold Reader.body
  split
  · exact bares_position hpolicy hit _
  · split
    · refine (bares_loadPartition hco.toCoherent hpolicy hit).bind fun res hres => ?_
      rcases res with ⟨ok, it'⟩
      dsimp only
      split
      · exact bares_loadBlock hco hsrc hpolicy hres
      · exact .pure hres
    · exact bares_loadBlock hco hsrc hpolicy hit

/-- **`Next`.** -/
theorem bares_next (fuel : ℕ) {it : RangeIterator} (hit : Indexed P src r it) :
    Bares P src r (r.next P src fuel it) (r.plain.next P src fuel it)
      fun res => ∀ x, res = some x → Indexed P src r x.2 := by
  have hdropped : Bares P src r isDropped isDropped fun d => d = false :=
    .of_keeps (r := .ok false) (fun s hs => ⟨.inl (congrArg Except.ok hs.2), hs⟩) (.inl rfl) rfl
      fun d hd => (Except.ok.inj hd).symm
  refine hdropped.bind fun d hd => ?_
  obtain rfl := hd
  show Bares P src r (r.nextLoop P src fuel it) (r.plain.nextLoop P src fuel it) _
  induction fuel generalizing it with
  | zero => exact .pure (by simp)
  | succ fuel ih =>
    refine (bares_body hco hsrc hpolicy hit).bind fun round hround => ?_
    cases round with
    | again it' => exact ih hround
    | found it' =>
      refine .pure fun x hx => ?_
      obtain rfl := Option.some.inj hx
      exact hround
    | ended it' =>
      refine .pure fun x hx => ?_
      obtain rfl := Option.some.inj hx
      exact hround

/-! ## Calls in any order -/

/-- A call of a reader or of one of the iterators over it. -/
inductive Call
  | get (key : Bytes)
  | getViewContext (ctx : Option Fault) (key : Bytes)
  | range (start stop : Bytes)
  | next (i : ℕ)
  /-- `Prefetch` behind a place of the partition an iterator is in. -/
  | prefetch (i start : ℕ)
  deriving DecidableEq, Repr

/-- What a call returns; behind a call of `Next` also `EntryView` and
`Err`. -/
inductive Answer
  | entry (x : Except Fault (Option Entry))
  | view (x : Except Fault (Option EntryView))
  | moved (x : Except Fault (Option (Bool × Option EntryView × Option Fault)))
  | prefetched (x : Except Fault Unit)
  | nothing

/-- A reader in use: its caches, and the iterators over it. -/
structure Session where
  state : State
  iterators : List RangeIterator

/-- What the caller sees of a call of `Next`. -/
def seenOf (x : Bool × RangeIterator) : Bool × Option EntryView × Option Fault :=
  (x.1, x.2.curr, x.2.err)

/-- The iterators behind a call of `Next`. -/
def Session.store (its : List RangeIterator) (i : ℕ)
    (x : Except Fault (Option (Bool × RangeIterator))) : List RangeIterator :=
  match x with
  | .ok (some (_, it)) => its.set i it
  | _ => its

/-- A call. -/
def Session.call (P : Platform) (src : Source) (r : Reader) (fuel : ℕ) (w : Session) :
    Call → Answer × Session
  | .get key =>
    let x := (r.get P src key).exec w.state
    (.entry x.1, { w with state := x.2 })
  | .getViewContext ctx key =>
    let x := (r.getViewContext P src ctx key).exec w.state
    (.view x.1, { w with state := x.2 })
  | .range start stop => (.nothing, { w with iterators := w.iterators ++ [Format.range start stop] })
  | .next i =>
    match w.iterators[i]? with
    | none => (.nothing, w)
    | some it =>
      let x := (r.next P src fuel it).exec w.state
      (.moved (x.1.map (Option.map seenOf)), ⟨x.2, Session.store w.iterators i x.1⟩)
  | .prefetch i start =>
    match w.iterators[i]? with
    | none => (.nothing, w)
    | some it =>
      let x := (r.prefetch P src it.partIndex start).exec w.state
      (.prefetched x.1, { w with state := x.2 })

/-- The answers to some calls. -/
def Session.answers (P : Platform) (src : Source) (r : Reader) (fuel : ℕ) :
    Session → List Call → List Answer
  | _, [] => []
  | w, c :: cs => (w.call P src r fuel c).1 :: answers P src r fuel (w.call P src r fuel c).2 cs

/-- The same calls were made with and without caches. -/
structure Parallel (P : Platform) (src : Source) (r : Reader) (w w₀ : Session) : Prop where
  live : Live P src r w.state
  bare : w₀.state = bare
  same : w.iterators = w₀.iterators
  indexed : ∀ it ∈ w.iterators, Indexed P src r it

/-- **One call.** -/
theorem call_parallel {w w₀ : Session} (h : Parallel P src r w w₀) (fuel : ℕ) (c : Call) :
    (w.call P src r fuel c).1 = (w₀.call P src r.plain fuel c).1 ∧
      Parallel P src r (w.call P src r fuel c).2 (w₀.call P src r.plain fuel c).2 := by
  obtain ⟨state, its⟩ := w
  obtain ⟨state₀, its₀⟩ := w₀
  obtain ⟨hlive, rfl, rfl, hindexed⟩ := h
  cases c with
  | get key =>
    obtain ⟨hsame, hlive, hstate, -⟩ := (bares_get hco.toCoherent hpolicy key).exec hlive
    exact ⟨congrArg Answer.entry hsame, hlive, hstate, rfl, hindexed⟩
  | getViewContext ctx key =>
    obtain ⟨hsame, hlive, hstate, -⟩ := Bares.exec
      (getViewContext_refines (fetches_live hco.toCoherent) ctx key) hlive
    exact ⟨congrArg Answer.view hsame, hlive, hstate, rfl, hindexed⟩
  | range start stop =>
    refine ⟨rfl, hlive, rfl, rfl, fun it hit => ?_⟩
    rcases List.mem_append.mp hit with hit | hit
    · exact hindexed it hit
    · obtain rfl := List.mem_singleton.mp hit
      exact fun e he => absurd he List.not_mem_nil
  | next i =>
    cases hi : its[i]? with
    | none =>
      simp only [Session.call, hi]
      exact ⟨trivial, hlive, rfl, rfl, hindexed⟩
    | some it =>
      have hit := hindexed it (List.mem_of_getElem? hi)
      obtain ⟨hsame, hlive, hstate, hval⟩ := (bares_next hco hsrc hpolicy fuel hit).exec hlive
      simp only [Session.call, hi, hsame]
      refine ⟨trivial, hlive, hstate, rfl, fun it' hit' => ?_⟩
      -- the iterator that was called is one over the index as well
      dsimp only at hit'
      unfold Session.store at hit'
      split at hit'
      · next b it₁ hok =>
        rcases List.mem_or_eq_of_mem_set hit' with hold | rfl
        · exact hindexed it' hold
        · exact hval _ hok _ rfl
      · exact hindexed it' hit'
  | prefetch i start =>
    cases hi : its[i]? with
    | none =>
      simp only [Session.call, hi]
      exact ⟨trivial, hlive, rfl, rfl, hindexed⟩
    | some it =>
      have hit := hindexed it (List.mem_of_getElem? hi)
      have hnone : r.plain.prefetch P src it.partIndex start = pure () := rfl
      have hprefetch := prefetch_live hco
        (fun d hd => ⟨hit d hd, (safe_readDataBlock hsrc d).ne_panic⟩) start state hlive
      simp only [Session.call, hi, hnone, hprefetch.1, Prog.exec_pure]
      exact ⟨trivial, hprefetch.2, rfl, rfl, hindexed⟩

theorem answers_parallel (fuel : ℕ) (cs : List Call) {w w₀ : Session}
    (h : Parallel P src r w w₀) : w.answers P src r fuel cs = w₀.answers P src r.plain fuel cs := by
  induction cs generalizing w w₀ with
  | nil => rfl
  | cons c cs ih =>
    obtain ⟨hanswer, hnext⟩ := call_parallel hco hsrc hpolicy h fuel c
    rw [Session.answers, Session.answers, hanswer, ih hnext]

end

end

/-! ## Opening without caches -/

/-- The options without caches and prefetching. -/
def Options.uncached (o : Options) : Options :=
  { o with
    blockCacheBytes := 0, indexCacheBytes := 0, filterCacheBytes := 0
    prefetchBlocks := 0, prefetchBytes := 0, prefetchBudgetBlocks := 0, prefetchBudgetBytes := 0
    policyOverride := o.policyOverride.map fun p => { p with usePrefetch := false } }

/-- That is all that changes in the policy. -/
theorem Options.snapshot_uncached (o : Options) :
    newPrefetchBudget o.uncached.normalize.snapshot = none ∧
      o.uncached.normalize.snapshot.prefetchAsync = o.normalize.snapshot.prefetchAsync ∧
      o.uncached.normalize.snapshot.readBlockMaxBytes = o.normalize.snapshot.readBlockMaxBytes := by
  have hover : o.uncached.normalize.policyOverride =
      o.policyOverride.map fun p => { p with usePrefetch := false } := rfl
  have hover' : o.normalize.policyOverride = o.policyOverride := rfl
  rw [snapshot, snapshot, hover, hover']
  cases o.policyOverride with
  | none => exact ⟨ite_self none, rfl, rfl⟩
  | some p => exact ⟨rfl, rfl, rfl⟩

section

variable {P : Platform} {src : Source} {size : ℕ} {o : Options} {r : Reader} {s : State}

theorem openWith_uncached (h : openWith P src size o.normalize = .ok (r, s)) :
    openWith P src size o.uncached.normalize = .ok (r.plain, bare) ∧
      r.corruptionPolicy = o.normalize.corruptionPolicy ∧
      r.prefetchBudget = newPrefetchBudget o.normalize.snapshot ∧ Live P src r s := by
  obtain ⟨⟨⟩, hvalid, h⟩ := exists_of_bind_eq_ok h
  obtain ⟨⟨⟩, hsize, h⟩ := exists_of_bind_eq_ok h
  obtain ⟨buf, hbuf, h⟩ := exists_of_bind_eq_ok h
  obtain ⟨ft, hft, h⟩ := exists_of_bind_eq_ok h
  obtain ⟨metaPayload, hmetaPayload, h⟩ := exists_of_bind_eq_ok h
  obtain ⟨m, hm, h⟩ := exists_of_bind_eq_ok h
  obtain ⟨indexPayload, hindexPayload, h⟩ := exists_of_bind_eq_ok h
  obtain ⟨top, htop, h⟩ := exists_of_bind_eq_ok h
  obtain ⟨⟨filter, filterIndex⟩, hfilter, h⟩ := exists_of_bind_eq_ok h
  obtain ⟨rfl, rfl⟩ := Prod.mk.inj (Except.ok.inj h)
  refine ⟨?_, rfl, rfl, sound_openedState P src _ o.normalize _ _, rfl⟩
  have hvalid' : o.uncached.normalize.validate = .ok () := hvalid
  rw [openWith, hvalid', ok_bind, hsize, ok_bind, hbuf, ok_bind, hft, ok_bind, hmetaPayload,
    ok_bind, hm, ok_bind, hindexPayload, ok_bind, htop, ok_bind]
  dsimp only
  obtain ⟨hbudget, hasync, hlimit⟩ := o.snapshot_uncached
  rw [hfilter, ok_bind, hbudget, hasync, hlimit]
  have hnew : ∀ (c : Bool) {α : Type}, (if c then (Lru.new 0 : Option (Lru UInt64 α)) else none) =
      none := by
    intro c α
    cases c with
    | true => rfl
    | false => rfl
  exact congrArg Except.ok (Prod.ext rfl (by
    show State.mk _ _ _ _ = bare
    rw [bare, State.mk.injEq]
    exact ⟨rfl, rfl, hnew _, hnew _⟩))

end

theorem openReader_of_flush {P : Platform} {raw : Options} {entries : List Entry} {t : Table}
    (h : flush P raw entries = .ok t) :
    openReader P t.file raw.normalize = .ok (t.reader, t.state) := by
  obtain ⟨⟨⟩, -, h⟩ := exists_of_bind_eq_ok h
  obtain ⟨ws, -, h⟩ := exists_of_bind_eq_ok h
  obtain ⟨⟨r, s⟩, hopen, h⟩ := exists_of_bind_eq_ok h
  obtain ⟨⟨⟩, -, h⟩ := exists_of_bind_eq_ok h
  obtain rfl := Except.ok.inj h
  exact hopen

/-- A budget of more blocks than there can be. -/
def Options.greedy : Options :=
  { Options.plain with blockCacheBytes := 80, prefetchBlocks := 2 ^ 62 }

end LSMEngine.Format
