import LSMEngine.Common.Merge
/-!
# Merging iterators that can fail

An iterator that yields entries and then ends, perhaps with an error. A
merge over such iterators stops where one of a group cannot move on: its
error comes up before the key it would have gone to. So a merge over an
iterator with an error fails (`isSome_of_fault`), and one over iterators
without is the merge of their entries (`mergeUntil_eq`).
-/

namespace LSMEngine

/-- An iterator: what it yields, and the error it ends with. -/
structure Feed (α ε : Type) where
  entries : List α
  err : Option ε
  deriving DecidableEq, Repr

variable {α κ ε : Type} [LinearOrder κ]
variable {k : κ} {group h h' : List (Cursor α)} {c : Cursor α} {its : List (Feed α ε)}

/-- The error of the iterator in a place. -/
def faultAt (its : List (Feed α ε)) (place : ℕ) : Option ε := (its[place]?).bind Feed.err

/-- The first call of each iterator in turn, from a place on: the ones
that stand at an entry, or the first error. -/
def starts (place : ℕ) : List (Feed α ε) → Except ε (List (Cursor α))
  | [] => .ok []
  | it :: its =>
    match Cursor.start place it.entries with
    | some c => (starts (place + 1) its).map (c :: ·)
    | none =>
      match it.err with
      | some e => .error e
      | none => starts (place + 1) its

section Merge

variable (key : α → κ) (le : Cursor α → Cursor α → Prop) [DecidableRel le] (skips : Bool)
variable (fault : ℕ → Option ε)

/-- The queue once the group has moved on, if none of it fails. -/
def requeueUnless (k : κ) : List (Cursor α) → List (Cursor α) → Except ε (List (Cursor α))
  | [], h => .ok h
  | c :: group, h =>
    match c.advance key skips k with
    | some c' => requeueUnless k group (h.orderedInsert le c')
    | none =>
      match fault c.place with
      | some e => .error e
      | none => requeueUnless k group h

variable {key le skips fault} in
theorem requeueUnless_eq_ok (hok : requeueUnless key le skips fault k group h = .ok h') :
    h' = requeue key le skips k group h := by
  induction group generalizing h with
  | nil => exact (Except.ok.inj hok).symm
  | cons c group ih =>
    unfold requeueUnless at hok
    cases hadv : c.advance key skips k with
    | some c' =>
      simp only [hadv] at hok
      rw [ih hok, requeue, requeue, List.filterMap_cons_some hadv, List.foldl_cons]
    | none =>
      simp only [hadv] at hok
      cases hf : fault c.place with
      | some e => simp [hf] at hok
      | none =>
        simp only [hf] at hok
        rw [ih hok, requeue, requeue, List.filterMap_cons_none hadv]

theorem backlog_requeueUnless_lt
    (hok : requeueUnless key le skips fault (key c.head)
      (c :: h.takeWhile fun d => key d.head = key c.head)
      (h.dropWhile fun d => key d.head = key c.head) = .ok h') :
    backlog h' < backlog (c :: h) := by
  rw [requeueUnless_eq_ok hok]
  exact backlog_requeue_lt key le skips c h

/-- **The groups of a merge until one of them fails to move on**, and the
error if one does. -/
def mergeUntil (h : List (Cursor α)) : List (List (Cursor α)) × Option ε :=
  match h with
  | [] => ([], none)
  | c :: h =>
    let group := c :: h.takeWhile fun d => key d.head = key c.head
    match _hok : requeueUnless key le skips fault (key c.head) group
      (h.dropWhile fun d => key d.head = key c.head) with
    | .error e => ([group], some e)
    | .ok h' => (group :: (mergeUntil h').1, (mergeUntil h').2)
termination_by backlog h
decreasing_by all_goals exact backlog_requeueUnless_lt key le skips fault _hok

end Merge

section Spec

variable {key : α → κ} {le : Cursor α → Cursor α → Prop} [DecidableRel le] {skips : Bool}
variable {fault : ℕ → Option ε}

/-! ## Without errors -/

theorem requeueUnless_of_no_fault (hf : ∀ c ∈ group, fault c.place = none) :
    requeueUnless key le skips fault k group h = .ok (requeue key le skips k group h) := by
  induction group generalizing h with
  | nil => rfl
  | cons c group ih =>
    have hrest := fun h => ih (h := h) fun d hd => hf d (List.mem_cons_of_mem _ hd)
    unfold requeueUnless
    cases hadv : c.advance key skips k with
    | some c' =>
      simp only [hrest]
      rw [requeue, requeue, List.filterMap_cons_some hadv, List.foldl_cons]
    | none =>
      simp only [hf c List.mem_cons_self, hrest]
      rw [requeue, requeue, List.filterMap_cons_none hadv]

/-- The places of a queue that has moved on were there before. -/
theorem place_mem_requeue {d : Cursor α} (hd : d ∈ requeue key le skips k group h) :
    ∃ c ∈ group ++ h, c.place = d.place := by
  rcases List.mem_append.mp ((requeue_perm key le skips k group h).mem_iff.mp hd) with hd | hd
  · exact ⟨d, List.mem_append_right _ hd, rfl⟩
  · obtain ⟨c, hc, hadv⟩ := List.mem_filterMap.mp hd
    exact ⟨c, List.mem_append_left _ hc, (advance_eq_some hadv).1.symm⟩

theorem mem_of_mem_group {d : Cursor α}
    (hd : d ∈ (c :: h.takeWhile fun x => key x.head = k) ++ h.dropWhile fun x => key x.head = k) :
    d ∈ c :: h := by
  rwa [List.cons_append, List.takeWhile_append_dropWhile] at hd

theorem mem_group_of_mem {d : Cursor α} (hd : d ∈ c :: h) :
    d ∈ (c :: h.takeWhile fun x => key x.head = k) ++ h.dropWhile fun x => key x.head = k := by
  rwa [List.cons_append, List.takeWhile_append_dropWhile]

/-- **Without errors** the groups are those of the merge. -/
theorem mergeUntil_eq (hf : ∀ c ∈ h, fault c.place = none) :
    mergeUntil key le skips fault h = (mergeGroups key le skips h, none) := by
  fun_induction mergeUntil key le skips fault h with
  | case1 => rw [mergeGroups]
  | case2 c h group e herr =>
    have hgroup : ∀ d ∈ group, fault d.place = none :=
      fun d hd => hf d (mem_of_mem_group (List.mem_append_left _ hd))
    rw [requeueUnless_of_no_fault hgroup] at herr
    cases herr
  | case3 c h group h' hok ih =>
    have hh' := requeueUnless_eq_ok hok
    have hnext : ∀ d ∈ h', fault d.place = none := by
      intro d hd
      rw [hh'] at hd
      obtain ⟨x, hx, hplace⟩ := place_mem_requeue hd
      rw [← hplace]
      exact hf x (mem_of_mem_group hx)
    rw [ih hnext, mergeGroups, hh']

/-! ## With an error -/

/-- An iterator that ends with an error stays in the queue until it
fails. -/
theorem exists_place_of_requeueUnless (hok : requeueUnless key le skips fault k group h = .ok h')
    (hc : c ∈ group ++ h) (hf : fault c.place ≠ none) : ∃ d ∈ h', d.place = c.place := by
  induction group generalizing h c with
  | nil =>
    obtain rfl := Except.ok.inj hok
    exact ⟨c, hc, rfl⟩
  | cons g group ih =>
    unfold requeueUnless at hok
    cases hadv : g.advance key skips k with
    | some g' =>
      simp only [hadv] at hok
      have hplace := (advance_eq_some hadv).1
      have hins : ∀ {x}, x ∈ h ∨ x = g' → x ∈ group ++ h.orderedInsert le g' := by
        intro x hx
        exact List.mem_append_right _ ((List.mem_orderedInsert le).mpr hx.symm)
      rcases List.mem_cons.mp hc with rfl | hc
      · obtain ⟨d, hd, hdp⟩ := ih hok (hins (.inr rfl)) (by rwa [hplace])
        exact ⟨d, hd, hdp.trans hplace⟩
      · rcases List.mem_append.mp hc with hc | hc
        · exact ih hok (List.mem_append_left _ hc) hf
        · exact ih hok (hins (.inl hc)) hf
    | none =>
      simp only [hadv] at hok
      cases hg : fault g.place with
      | some e => simp [hg] at hok
      | none =>
        simp only [hg] at hok
        rcases List.mem_cons.mp hc with rfl | hc
        · exact absurd hg hf
        · exact ih hok hc hf

/-- **A merge over an iterator that ends with an error fails.** -/
theorem isSome_of_fault (hf : ∃ c ∈ h, fault c.place ≠ none) :
    (mergeUntil key le skips fault h).2.isSome := by
  fun_induction mergeUntil key le skips fault h with
  | case1 =>
    obtain ⟨c, hc, -⟩ := hf
    cases hc
  | case2 => rfl
  | case3 c h group h' hok ih =>
    obtain ⟨d, hd, hfd⟩ := hf
    obtain ⟨d', hd', hplace⟩ := exists_place_of_requeueUnless hok (mem_group_of_mem hd) hfd
    exact ih ⟨d', hd', by rwa [hplace]⟩

/-! ## From the first call on -/

variable (key le skips) in
/-- **The merge of iterators that can fail**, from their first calls on. -/
def mergeFeeds (its : List (Feed α ε)) : List (List (Cursor α)) × Option ε :=
  match starts 0 its with
  | .error e => ([], some e)
  | .ok cs => mergeUntil key le skips (faultAt its) (cs.insertionSort le)

/-- **What the first calls come to**: an error, or every iterator that
has an entry, none of those without one having failed. -/
theorem starts_eq_ok {place : ℕ} {cs : List (Cursor α)} (h : starts place its = .ok cs) :
    cs = cursorsFrom place (its.map Feed.entries) ∧
      ∀ it ∈ its, it.entries = [] → it.err = none := by
  induction its generalizing place cs with
  | nil =>
    obtain rfl := Except.ok.inj h
    exact ⟨rfl, by simp⟩
  | cons it its ih =>
    unfold starts at h
    cases hs : Cursor.start place it.entries with
    | some c =>
      simp only [hs] at h
      cases hrest : starts (place + 1) its with
      | error e => simp [hrest, Except.map] at h
      | ok cs' =>
        simp only [hrest, Except.map, Except.ok.injEq] at h
        obtain ⟨heq, hnone⟩ := ih hrest
        refine ⟨?_, ?_⟩
        · rw [← h, heq, List.map_cons, cursorsFrom_cons, hs]
          rfl
        · intro x hx hnil
          rcases List.mem_cons.mp hx with rfl | hx
          · rw [hnil] at hs
            cases hs
          · exact hnone x hx hnil
    | none =>
      simp only [hs] at h
      cases herr : it.err with
      | some e => simp [herr] at h
      | none =>
        simp only [herr] at h
        obtain ⟨heq, hnone⟩ := ih h
        refine ⟨?_, ?_⟩
        · rw [heq, List.map_cons, cursorsFrom_cons, hs]
          rfl
        · intro x hx hnil
          rcases List.mem_cons.mp hx with rfl | hx
          · exact herr
          · exact hnone x hx hnil

theorem starts_eq_error {place : ℕ} {e : ε} (h : starts place its = .error e) :
    ∃ it ∈ its, it.err = some e := by
  induction its generalizing place with
  | nil => cases h
  | cons it its ih =>
    unfold starts at h
    cases hs : Cursor.start place it.entries with
    | some c =>
      simp only [hs] at h
      cases hrest : starts (place + 1) its with
      | ok cs => simp [hrest, Except.map] at h
      | error e' =>
        simp only [hrest, Except.map, Except.error.injEq] at h
        obtain ⟨x, hx, hxe⟩ := ih (h ▸ hrest)
        exact ⟨x, List.mem_cons_of_mem _ hx, hxe⟩
    | none =>
      simp only [hs] at h
      cases herr : it.err with
      | some e' =>
        simp only [herr, Except.error.injEq] at h
        exact ⟨it, List.mem_cons_self, h ▸ herr⟩
      | none =>
        simp only [herr] at h
        obtain ⟨x, hx, hxe⟩ := ih h
        exact ⟨x, List.mem_cons_of_mem _ hx, hxe⟩

theorem faultAt_eq_none (hn : ∀ it ∈ its, it.err = none) (place : ℕ) :
    faultAt its place = none := by
  unfold faultAt
  cases hit : its[place]? with
  | none => rfl
  | some it => exact hn it (List.mem_of_getElem? hit)

/-- **Without errors** the merge is the merge of what the iterators
yield. -/
theorem mergeFeeds_eq (hn : ∀ it ∈ its, it.err = none) :
    mergeFeeds key le skips its =
      (mergeGroups key le skips (mergeQueue le (its.map Feed.entries)), none) := by
  unfold mergeFeeds
  cases hs : starts 0 its with
  | error e =>
    obtain ⟨it, hit, herr⟩ := starts_eq_error hs
    rw [hn it hit] at herr
    cases herr
  | ok cs =>
    obtain ⟨rfl, -⟩ := starts_eq_ok hs
    exact mergeUntil_eq fun c _ => faultAt_eq_none hn c.place

theorem exists_mem_cursorsFrom (place i : ℕ) (its : List (List α)) (as : List α)
    (hi : its[i]? = some as) (hne : as ≠ []) :
    ∃ c ∈ cursorsFrom place its, c.place = place + i := by
  induction its generalizing place i with
  | nil => cases hi
  | cons bs its ih =>
    rw [cursorsFrom_cons]
    cases i with
    | zero =>
      obtain rfl : bs = as := by simpa using hi
      cases bs with
      | nil => exact absurd rfl hne
      | cons b bs => exact ⟨⟨place, b, bs⟩, List.mem_cons_self, rfl⟩
    | succ i =>
      obtain ⟨c, hc, hplace⟩ := ih (place + 1) i (by simpa using hi)
      exact ⟨c, List.mem_append_right _ hc, by omega⟩

/-- **An iterator that ends with an error makes the merge fail.** -/
theorem isSome_mergeFeeds (he : ∃ it ∈ its, it.err ≠ none) :
    (mergeFeeds key le skips its).2.isSome := by
  unfold mergeFeeds
  cases hs : starts 0 its with
  | error e => rfl
  | ok cs =>
    obtain ⟨rfl, hnone⟩ := starts_eq_ok hs
    obtain ⟨it, hit, herr⟩ := he
    obtain ⟨i, hi⟩ := List.mem_iff_getElem?.mp hit
    obtain ⟨c, hc, hplace⟩ := exists_mem_cursorsFrom 0 i (its.map Feed.entries)
      it.entries (by simp [hi])
      fun hnil => herr (hnone it hit hnil)
    refine isSome_of_fault ⟨c, (List.mem_insertionSort le).mpr hc, ?_⟩
    rw [hplace, Nat.zero_add, faultAt, hi]
    exact herr

end Spec

end LSMEngine
