import LSMEngine.Common.Bytes
/-!
# Reading a byte stream

A reader over a file is the list of bytes it has not consumed yet.
`readFull` is `io.ReadFull`: it takes exactly `n` bytes, and told apart
by whether a byte was there at all, reports a clean end of file or a
truncated read, having consumed whatever was left.

`scan` looks for a pattern with a sliding window, and stops right behind
an occurrence of it (`eq_append_of_scan`).
-/

namespace LSMEngine

/-- What `io.ReadFull` answers. -/
inductive ReadFull
  | ok (data rest : Bytes)
  | eof
  | unexpectedEOF
  deriving DecidableEq, Repr

/-- `io.ReadFull` for a buffer of `n` bytes. -/
def readFull (n : ℕ) (r : Bytes) : ReadFull :=
  if n ≤ r.length then .ok (r.take n) (r.drop n)
  else if r = [] then .eof else .unexpectedEOF

theorem readFull_of_le {n : ℕ} {r : Bytes} (h : n ≤ r.length) :
    readFull n r = .ok (r.take n) (r.drop n) := by
  rw [readFull, if_pos h]

/-- The buffer is filled by the stream's first bytes. -/
theorem readFull_append {n : ℕ} {x r : Bytes} (h : x.length = n) :
    readFull n (x ++ r) = .ok x r := by
  have hn : n ≤ (x ++ r).length := by rw [List.length_append]; omega
  rw [readFull_of_le hn, ← h, List.take_left, List.drop_left]

theorem readFull_eq_ok {n : ℕ} {r x y : Bytes} (h : readFull n r = .ok x y) :
    r = x ++ y ∧ x.length = n := by
  unfold readFull at h
  split at h
  · next hn =>
    injection h with hx hy
    subst hx hy
    exact ⟨(List.take_append_drop n r).symm, by rw [List.length_take]; omega⟩
  · split at h <;> cases h

/-- A cut behind the first part of a string leaves that part whole. -/
theorem take_add_append {n : ℕ} {x : Bytes} (h : x.length = n) (y : Bytes) (k : ℕ) :
    (x ++ y).take (n + k) = x ++ y.take k := by
  rw [← h, List.take_length_add_append]

/-! ## Scanning for a pattern -/

variable {α : Type*} [DecidableEq α]

/-- The window over the last `n` symbols, after one more symbol. -/
def slide (n : ℕ) (window : List α) (b : α) : List α :=
  if window.length < n then window ++ [b] else window.tail ++ [b]

/-- Read on until the window holds the pattern; the answer is what is
left behind it. -/
def scan (pat : List α) : List α → List α → Option (List α)
  | _, [] => none
  | window, b :: r =>
    if slide pat.length window b = pat then some r else scan pat (slide pat.length window b) r

omit [DecidableEq α] in
/-- The window is an end of what it slid over. -/
theorem slide_suffix {n : ℕ} (window : List α) (b : α) (hn : 0 < n) :
    slide n window b <:+ window ++ [b] := by
  unfold slide
  split
  · exact List.suffix_rfl
  · cases window with
    | nil => simp_all
    | cons a window => exact ⟨[a], rfl⟩

/-- **A scan stops right behind an occurrence of the pattern.** -/
theorem eq_append_of_scan {pat window r rest : List α} (hpos : 0 < pat.length)
    (h : scan pat window r = some rest) : ∃ pre, window ++ r = pre ++ (pat ++ rest) := by
  induction r generalizing window with
  | nil => cases h
  | cons b r ih =>
    obtain ⟨dropped, hd⟩ := slide_suffix window b hpos
    have hwin : window ++ b :: r = dropped ++ (slide pat.length window b ++ r) := by
      rw [← List.append_assoc, hd, List.append_assoc, List.singleton_append]
    rw [scan] at h
    split at h
    · next hmatch =>
      injection h with h
      subst h
      exact ⟨dropped, by rw [hwin, hmatch]⟩
    · obtain ⟨pre, hpre⟩ := ih h
      exact ⟨dropped ++ pre, by rw [hwin, hpre, List.append_assoc]⟩

/-- Started on an empty window, a scan consumes the pattern it finds. -/
theorem length_add_le_of_scan {pat r rest : List α} (hpos : 0 < pat.length)
    (h : scan pat [] r = some rest) : rest.length + pat.length ≤ r.length := by
  obtain ⟨pre, hpre⟩ := eq_append_of_scan hpos h
  rw [List.nil_append] at hpre
  rw [hpre, List.length_append, List.length_append]
  omega

end LSMEngine
