import LSMEngine.Wal.Model.Disk
/-!
# WAL — the files of a log

What the directory of a log looks like: the rotated segments under the
numbers `1, …, n`, in any order and among any other files, and the active
file (`Rotated`, `Layout`). On such a directory `ListSegments` finds the
rotated segments in order with none missing, a write reaches the active
file only, and a rotation turns the active file into segment `n + 1`.

Numbers stay within an `int` because the directory does: a segment is a
file, and there are at most `maxEntries` of them.
-/

namespace LSMEngine.Wal

variable {base : String}
variable {pre post : List File} {active : Bytes}

/-! ## Segment names -/

theorem digitsNat_toDigits (n : ℕ) : digitsNat (Nat.toDigits 10 n) = some n := by
  have hall : (Nat.toDigits 10 n).all Char.isDigit = true := by
    rw [List.all_eq_true]
    exact fun c hc => Nat.isDigit_of_mem_toDigits (by decide) (by decide) hc
  rw [digitsNat, if_pos ⟨Nat.toDigits_ne_nil, hall⟩, Nat.ofDigitChars_ten_toDigits]

/-- A number reads back from its digits. -/
theorem atoi_toDigits {n : ℕ} (h : n < 2 ^ 63) : atoi (Nat.toDigits 10 n) = some (n : ℤ) := by
  have hhead : ∀ c cs, Nat.toDigits 10 n = c :: cs → c.isDigit = true := by
    intro c cs hc
    exact Nat.isDigit_of_mem_toDigits (b := 10) (n := n) (by decide) (by decide)
      (hc ▸ List.mem_cons_self)
  unfold atoi
  split
  · next ds hds => exact absurd (hhead _ _ hds) (by decide)
  · next ds hds => exact absurd (hhead _ _ hds) (by decide)
  · rw [digitsNat_toDigits]
    simp only [if_pos h]

theorem toList_segmentName (n : ℕ) :
    (segmentName base n).toList = (base ++ ".").toList ++ Nat.toDigits 10 n := by
  have hn : toString (n : ℤ) = n.repr := rfl
  rw [segmentName, String.toList_append, hn, Nat.toList_repr]

/-- **The number of a segment reads back from its name.** -/
theorem segmentNumber_segmentName {n : ℕ} (h : n < 2 ^ 63) :
    segmentNumber base (segmentName base n) = some (n : ℤ) := by
  rw [segmentNumber, toList_segmentName, if_pos (List.isPrefixOf_iff_prefix.mpr
    (List.prefix_append _ _)), List.drop_left, atoi_toDigits h]

theorem segmentNumber_self : segmentNumber base base = none := by
  rw [segmentNumber, if_neg]
  intro hp
  have hle := (List.isPrefixOf_iff_prefix.mp hp).length_le
  rw [String.toList_append, List.length_append] at hle
  have hdot : ".".toList.length = 1 := rfl
  omega

theorem segmentName_ne_self {n : ℕ} (h : n < 2 ^ 63) : segmentName base n ≠ base := by
  intro he
  have hn : segmentNumber base (segmentName base n) = some (n : ℤ) := segmentNumber_segmentName h
  rw [he, segmentNumber_self] at hn
  cases hn

theorem segmentName_inj {m n : ℕ} (hm : m < 2 ^ 63) (hn : n < 2 ^ 63)
    (h : segmentName base m = segmentName base n) : m = n := by
  have hm' : segmentNumber base (segmentName base m) = some (m : ℤ) :=
    segmentNumber_segmentName hm
  rw [h, segmentNumber_segmentName hn] at hm'
  injection hm' with hm'
  omega

/-! ## Consecutive numbers -/

/-- The `n` numbers from `k` on. -/
def numbersFrom (k : ℤ) : ℕ → List ℤ
  | 0 => []
  | n + 1 => k :: numbersFrom (k + 1) n

theorem mem_numbersFrom {k x : ℤ} {n : ℕ} : x ∈ numbersFrom k n ↔ k ≤ x ∧ x < k + n := by
  induction n generalizing k with
  | zero =>
    simp only [numbersFrom, List.not_mem_nil, false_iff]
    omega
  | succ n ih =>
    simp only [numbersFrom, List.mem_cons, ih]
    omega

theorem numbersFrom_succ (k : ℤ) (n : ℕ) : numbersFrom k (n + 1) = numbersFrom k n ++ [k + n] := by
  induction n generalizing k with
  | zero => simp [numbersFrom]
  | succ n ih =>
    rw [numbersFrom, ih (k + 1), numbersFrom, List.cons_append]
    have hk : k + 1 + (n : ℤ) = k + ((n + 1 : ℕ) : ℤ) := by omega
    rw [hk]

@[simp] theorem length_numbersFrom (k : ℤ) (n : ℕ) : (numbersFrom k n).length = n := by
  induction n generalizing k with
  | zero => rfl
  | succ n ih => rw [numbersFrom, List.length_cons, ih]

theorem pairwise_numbersFrom (k : ℤ) (n : ℕ) : (numbersFrom k n).Pairwise (· ≤ ·) := by
  induction n generalizing k with
  | zero => exact List.Pairwise.nil
  | succ n ih =>
    refine List.Pairwise.cons (fun x hx => ?_) (ih (k + 1))
    rw [mem_numbersFrom] at hx
    omega

theorem consecutive_numbersFrom (k : ℤ) (n : ℕ) : consecutive k (numbersFrom k n) = true := by
  induction n generalizing k with
  | zero => rfl
  | succ n ih => simp only [numbersFrom, consecutive, ih, decide_true, Bool.and_self]

theorem foldl_max_eq {m : ℤ} {l : List ℤ} {a : ℤ} (hle : ∀ x ∈ l, x ≤ m) (ha : a ≤ m)
    (hm : m ∈ l ∨ m = a) : l.foldl max a = m := by
  induction l generalizing a with
  | nil => rcases hm with hm | hm
           · cases hm
           · exact hm.symm
  | cons x l ih =>
    have hx := hle x List.mem_cons_self
    refine ih (fun y hy => hle y (List.mem_cons_of_mem x hy)) (max_le ha hx) ?_
    rcases hm with hm | rfl
    · rcases List.mem_cons.mp hm with rfl | hm
      · exact .inr (max_eq_right ha).symm
      · exact .inl hm
    · exact .inr (max_eq_left hx).symm

/-! ## Listing the directory -/

/-- The segment numbers among the names of some files. -/
def segmentNumbers (base : String) (files : List File) : List ℤ :=
  files.filterMap fun f => f.name.bind (segmentNumber base)

theorem filterMap_names (d : Disk) :
    d.names.filterMap (segmentNumber base) = segmentNumbers base d.files :=
  List.filterMap_filterMap

theorem mem_segmentNumbers {files : List File} {f : File} {name : String} {n : ℤ} (hf : f ∈ files)
    (hname : f.name = some name) (hn : segmentNumber base name = some n) :
    n ∈ segmentNumbers base files :=
  List.mem_filterMap.mpr ⟨f, hf, by rw [hname]; exact hn⟩

section Listing

variable {d : Disk} {n : ℕ} (h : (segmentNumbers base d.files).Perm (numbersFrom 1 n))
include h

/-- **The rotated segments are listed in order**, none of them missing. -/
theorem listSegments_eq :
    listSegments d base = ((numbersFrom 1 n).map (segmentName base), false) := by
  have hsort : (d.names.filterMap (segmentNumber base)).insertionSort (· ≤ ·)
      = numbersFrom 1 n := by
    rw [filterMap_names]
    refine List.Perm.eq_of_pairwise (fun a b _ _ => le_antisymm)
      (List.pairwise_insertionSort _ _) (pairwise_numbersFrom 1 n)
      ((List.perm_insertionSort _ _).trans h)
  simp only [listSegments, hsort, consecutive_numbersFrom, Bool.not_true]

/-- **The next segment takes the number behind the last.** -/
theorem nextSegmentID_eq : nextSegmentID d base = UInt64.ofNat (n + 1) := by
  have hmax : (segmentNumbers base d.files).foldl max 0 = (n : ℤ) := by
    refine foldl_max_eq (fun x hx => ?_) (by omega) ?_
    · have := mem_numbersFrom.mp (h.mem_iff.mp hx); omega
    · rcases Nat.eq_zero_or_pos n with rfl | hpos
      · exact .inr rfl
      · exact .inl (h.mem_iff.mpr (mem_numbersFrom.mpr (by omega)))
  rw [nextSegmentID, filterMap_names, hmax]
  rfl

end Listing

/-! ## Layout -/

/-- The files around the active one: the rotated segments hold `segs`,
under the numbers from `1` on. -/
structure Rotated (base : String) (files : List File) (segs : List Bytes) : Prop where
  noActive : ∀ f ∈ files, f.name ≠ some base
  numbers : (segmentNumbers base files).Perm (numbersFrom 1 segs.length)
  content : ∀ i (h : i < segs.length),
    (files.find? fun f => f.name = some (segmentName base (i + 1 : ℕ))).map File.bytes
      = some segs[i]

/-- The files of a log: `segs` rotated, and `active` in the file behind
handle `k`. -/
structure Layout (base : String) (files : List File) (k : ℕ) (segs : List Bytes)
    (active : Bytes) : Prop where
  split : ∃ pre post dur, files = pre ++ ⟨some base, active, dur⟩ :: post ∧ pre.length = k ∧
    Rotated base (pre ++ post) segs
  bounded : files.length ≤ maxEntries

/-- Taking out a file does not change what is found under other names. -/
theorem find?_skip {act : File} {p : File → Bool} (h : p act = false) :
    (pre ++ act :: post).find? p = (pre ++ post).find? p := by
  rw [List.find?_append, List.find?_append, List.find?_cons, h]

theorem find?_self {dur : ℕ} (h : ∀ f ∈ pre, f.name ≠ some base) :
    (pre ++ ⟨some base, active, dur⟩ :: post).find? (fun f => f.name = some base)
      = some ⟨some base, active, dur⟩ := by
  have hpre : pre.find? (fun f => f.name = some base) = none := by
    rw [List.find?_eq_none]
    exact fun f hf => by simpa using h f hf
  rw [List.find?_append, hpre, List.find?_cons]
  simp

theorem segmentNumbers_skip {dur : ℕ} :
    segmentNumbers base (pre ++ ⟨some base, active, dur⟩ :: post)
      = segmentNumbers base (pre ++ post) := by
  simp [segmentNumbers, List.filterMap_append, segmentNumber_self]

namespace Rotated

variable {files : List File} {segs : List Bytes}

theorem length_le (h : Rotated base files segs) : segs.length ≤ files.length := by
  have hlen := h.numbers.length_eq
  rw [length_numbersFrom] at hlen
  rw [← hlen]
  exact List.length_filterMap_le _ _

/-- No file is under the number of the next segment. -/
theorem name_ne (h : Rotated base files segs) (hn : segs.length + 1 < 2 ^ 63) :
    ∀ f ∈ files, f.name ≠ some (segmentName base (segs.length + 1 : ℕ)) := by
  intro f hf hname
  have hmem := mem_segmentNumbers hf hname (segmentNumber_segmentName hn)
  have := mem_numbersFrom.mp (h.numbers.mem_iff.mp hmem)
  omega

/-- A file that takes the next number joins the rotated segments. -/
theorem insert {dur : ℕ} (h : Rotated base (pre ++ post) segs) (hn : segs.length + 1 < 2 ^ 63) :
    Rotated base (pre ++ ⟨some (segmentName base (segs.length + 1 : ℕ)), active, dur⟩ :: post)
      (segs ++ [active]) where
  noActive f hf := by
    rcases List.mem_append.mp hf with hf | hf
    · exact h.noActive f (List.mem_append_left _ hf)
    · rcases List.mem_cons.mp hf with rfl | hf
      · exact fun he => segmentName_ne_self hn (Option.some.inj he)
      · exact h.noActive f (List.mem_append_right _ hf)
  numbers := by
    have hnum : segmentNumbers base
        (pre ++ ⟨some (segmentName base (segs.length + 1 : ℕ)), active, dur⟩ :: post)
        = segmentNumbers base pre ++ ((segs.length + 1 : ℕ) : ℤ) :: segmentNumbers base post := by
      simp only [segmentNumbers, List.filterMap_append, List.filterMap_cons, Option.bind_some,
        segmentNumber_segmentName hn]
    have hold : segmentNumbers base pre ++ segmentNumbers base post
        = segmentNumbers base (pre ++ post) := by
      simp only [segmentNumbers, List.filterMap_append]
    rw [hnum, List.length_append, List.length_singleton, numbersFrom_succ]
    refine List.perm_middle.trans ?_
    rw [hold]
    refine (List.Perm.cons _ h.numbers).trans ?_
    have hone : (1 : ℤ) + (segs.length : ℤ) = ((segs.length + 1 : ℕ) : ℤ) := by omega
    rw [hone]
    exact (List.perm_append_singleton _ _).symm
  content i hi := by
    rw [List.length_append, List.length_singleton] at hi
    rcases Nat.lt_or_ge i segs.length with hlt | hge
    · -- an older segment is found where it was
      have hne : (decide (some (segmentName base (segs.length + 1 : ℕ))
          = some (segmentName base (i + 1 : ℕ)))) = false := by
        rw [decide_eq_false_iff_not]
        intro he
        have := segmentName_inj hn (by omega) (Option.some.inj he)
        omega
      rw [find?_skip hne, h.content i hlt, List.getElem_append_left hlt]
    · obtain rfl : i = segs.length := by omega
      have hpre : ∀ f ∈ pre, f.name ≠ some (segmentName base (segs.length + 1 : ℕ)) :=
        fun f hf => h.name_ne hn f (List.mem_append_left _ hf)
      rw [find?_self hpre]
      simp

end Rotated

theorem modify_middle {act : File} (g : File → File) :
    (pre ++ act :: post).modify pre.length g = pre ++ g act :: post := by
  induction pre with
  | nil => rfl
  | cons f pre ih => simp [ih]

namespace Layout

variable {d : Disk} {k : ℕ} {segs : List Bytes}

section

variable (h : Layout base d.files k segs active)
include h

theorem length_lt : segs.length + 1 < 2 ^ 63 := by
  obtain ⟨⟨pre, post, dur, hfiles, -, hrot⟩, hb⟩ := h
  have hle := hrot.length_le
  rw [hfiles] at hb
  simp only [List.length_append, List.length_cons, maxEntries] at hle hb
  omega

theorem numbers : (segmentNumbers base d.files).Perm (numbersFrom 1 segs.length) := by
  obtain ⟨⟨pre, post, dur, hfiles, -, hrot⟩, -⟩ := h
  rw [hfiles, segmentNumbers_skip]
  exact hrot.numbers

theorem content_active : d.content base = some active := by
  obtain ⟨⟨pre, post, dur, hfiles, -, hrot⟩, -⟩ := h
  rw [Disk.content, hfiles, find?_self fun f hf => hrot.noActive f (List.mem_append_left _ hf)]
  rfl

theorem content_segment {i : ℕ} (hi : i < segs.length) :
    d.content (segmentName base (i + 1 : ℕ)) = some segs[i] := by
  have hlt := h.length_lt
  obtain ⟨⟨pre, post, dur, hfiles, -, hrot⟩, -⟩ := h
  have hne : (decide (some base = some (segmentName base (i + 1 : ℕ)))) = false := by
    rw [decide_eq_false_iff_not]
    exact fun he => segmentName_ne_self (by omega) (Option.some.inj he).symm
  rw [Disk.content, hfiles, find?_skip hne]
  exact hrot.content i hi

theorem find_active : d.find base = some k := by
  obtain ⟨⟨pre, post, dur, hfiles, hk, hrot⟩, -⟩ := h
  have hpre : pre.findIdx? (fun f => decide (f.name = some base)) = none := by
    rw [List.findIdx?_eq_none_iff]
    intro f hf
    simpa using hrot.noActive f (List.mem_append_left _ hf)
  rw [Disk.find, hfiles, List.findIdx?_append, hpre, List.findIdx?_cons]
  simp [hk]

theorem bytesOf : d.bytesOf k = active := by
  obtain ⟨⟨pre, post, dur, hfiles, hk, -⟩, -⟩ := h
  rw [Disk.bytesOf, hfiles, ← hk]
  simp

/-- What a handle on the active file does to it. -/
theorem modify {g : File → File} {active' : Bytes}
    (hg : ∀ dur, ∃ dur', g ⟨some base, active, dur⟩ = ⟨some base, active', dur'⟩) :
    Layout base (d.files.modify k g) k segs active' := by
  obtain ⟨⟨pre, post, dur, hfiles, hk, hrot⟩, hb⟩ := h
  obtain ⟨dur', hg⟩ := hg dur
  refine ⟨⟨pre, post, dur', ?_, hk, hrot⟩, by rwa [List.length_modify]⟩
  rw [hfiles, ← hk, modify_middle, hg]

theorem push (bs : Bytes) : Layout base (d.push k bs).files k segs (active ++ bs) :=
  h.modify fun dur => ⟨dur, rfl⟩

theorem truncate (n : ℕ) : Layout base (d.truncate base n).files k segs (active.take n) := by
  rw [Disk.truncate, h.find_active]
  exact h.modify fun dur => ⟨min dur n, rfl⟩

/-- The files once the active one has been renamed to the next segment. -/
theorem rename :
    Rotated base (d.files.map fun f =>
      if f.name = some (segmentName base (segs.length + 1 : ℕ)) then { f with name := none }
      else if f.name = some base then
        { f with name := some (segmentName base (segs.length + 1 : ℕ)) } else f)
      (segs ++ [active]) := by
  have hlt := h.length_lt
  obtain ⟨⟨pre, post, dur, hfiles, -, hrot⟩, -⟩ := h
  -- only the active file changes
  have hid : ∀ fs : List File, (∀ f ∈ fs, f ∈ pre ++ post) → (fs.map fun f =>
      if f.name = some (segmentName base (segs.length + 1 : ℕ)) then { f with name := none }
      else if f.name = some base then
        { f with name := some (segmentName base (segs.length + 1 : ℕ)) } else f) = fs := by
    intro fs hfs
    refine (List.map_congr_left fun f hf => ?_).trans (List.map_id fs)
    rw [if_neg (hrot.name_ne hlt f (hfs f hf)), if_neg (hrot.noActive f (hfs f hf)), id]
  have hact : ¬(some base = some (segmentName base (segs.length + 1 : ℕ))) :=
    fun he => segmentName_ne_self hlt (Option.some.inj he).symm
  rw [hfiles, List.map_append, List.map_cons, hid pre fun f => List.mem_append_left _,
    hid post fun f => List.mem_append_right _, if_neg hact, if_pos rfl]
  exact hrot.insert hlt

end

end Layout

/-- A fresh active file beside the rotated ones. -/
theorem Rotated.layout {files : List File} {segs : List Bytes} (h : Rotated base files segs)
    (hb : files.length < maxEntries) :
    Layout base (files ++ [⟨some base, [], 0⟩]) files.length segs [] := by
  refine ⟨⟨files, [], 0, rfl, rfl, by rwa [List.append_nil]⟩, ?_⟩
  rw [List.length_append, List.length_singleton]
  omega

theorem Rotated.find_active {d : Disk} {segs : List Bytes} (h : Rotated base d.files segs) :
    d.find base = none := by
  rw [Disk.find, List.findIdx?_eq_none_iff]
  intro f hf
  simpa using h.noActive f hf

end LSMEngine.Wal
