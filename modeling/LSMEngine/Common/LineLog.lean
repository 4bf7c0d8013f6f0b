import LSMEngine.Common.Bytes
/-!
# Logs of lines

Records written one to a line, and read back line by line up to the
first line that is not a record. `LineCodec` is what is asked of the
texts of the records: they can be read back, they hold no line break,
and no part of a text that ends too early is the text of a record, as
it is with the texts of JSON objects.

A log that ends in the middle of a record is read as if the record were
not there (`replay_torn`); one that ends right before the line break is
read with it (`replay_untorn`).
-/

namespace LSMEngine

/-- The line break. -/
def newline : UInt8 := 10

/-- Texts of records of a type. -/
structure LineCodec (α : Type) where
  marshal : α → Bytes
  unmarshal : Bytes → Option α
  unmarshal_marshal : ∀ a, unmarshal (marshal a) = some a
  newline_not_mem : ∀ a, newline ∉ marshal a
  unmarshal_take : ∀ a n, n < (marshal a).length → unmarshal ((marshal a).take n) = none

/-- The lines of a stream, without their breaks. What follows the last
break is a line if it is not empty. -/
def splitLines : Bytes → List Bytes
  | [] => []
  | b :: bs =>
    if b = newline then [] :: splitLines bs
    else
      match splitLines bs with
      | [] => [[b]]
      | l :: ls => (b :: l) :: ls

theorem splitLines_line {l : Bytes} (hl : newline ∉ l) (rest : Bytes) :
    splitLines (l ++ newline :: rest) = l :: splitLines rest := by
  induction l with
  | nil => rw [List.nil_append, splitLines, if_pos rfl]
  | cons b bs ih =>
    have hb : b ≠ newline := fun h => hl (h ▸ List.mem_cons_self)
    rw [List.cons_append, splitLines, if_neg hb, ih fun h => hl (List.mem_cons_of_mem _ h)]

theorem splitLines_last {l : Bytes} (hl : newline ∉ l) (hne : l ≠ []) : splitLines l = [l] := by
  induction l with
  | nil => exact absurd rfl hne
  | cons b bs ih =>
    have hb : b ≠ newline := fun h => hl (h ▸ List.mem_cons_self)
    rw [splitLines, if_neg hb]
    cases bs with
    | nil => rfl
    | cons c cs => rw [ih (fun h => hl (List.mem_cons_of_mem _ h)) (List.cons_ne_nil _ _)]

namespace LineCodec

variable {α σ : Type} (C : LineCodec α) (step : σ → α → σ)

/-- A record with its line break. -/
def line (a : α) : Bytes := C.marshal a ++ [newline]

/-- Reading stops at the first line that is not a record. -/
def replay : List Bytes → σ → σ
  | [], s => s
  | l :: ls, s =>
    match C.unmarshal l with
    | none => s
    | some a => replay ls (step s a)

theorem marshal_ne_nil (a : α) : C.marshal a ≠ [] ∨ ∀ b, C.marshal b = [] := by
  by_cases h : C.marshal a = []
  · refine .inr fun b => ?_
    by_contra hb
    have htake := C.unmarshal_take b 0 (List.length_pos_iff.mpr hb)
    rw [List.take_zero, ← h, C.unmarshal_marshal] at htake
    cases htake
  · exact .inl h

/-- Whole lines are read whatever follows. -/
theorem replay_lines (as : List α) (tail : Bytes) (s : σ) :
    C.replay step (splitLines (as.flatMap C.line ++ tail)) s =
      C.replay step (splitLines tail) (as.foldl step s) := by
  induction as generalizing s with
  | nil => rfl
  | cons a as ih =>
    have hline : (a :: as).flatMap C.line ++ tail =
        C.marshal a ++ newline :: (as.flatMap C.line ++ tail) := by
      rw [List.flatMap_cons, line, List.append_assoc, List.append_assoc, List.singleton_append]
    rw [hline, splitLines_line (C.newline_not_mem a), replay, C.unmarshal_marshal]
    exact ih (step s a)

/-- A record that ends too early is not there. -/
theorem replay_torn {a : α} {n : ℕ} (hn : n < (C.marshal a).length) (s : σ) :
    C.replay step (splitLines ((C.marshal a).take n)) s = s := by
  by_cases h0 : (C.marshal a).take n = []
  · rw [h0]
    rfl
  · rw [splitLines_last (fun h => C.newline_not_mem a (List.mem_of_mem_take h)) h0, replay,
      C.unmarshal_take a n hn]

/-- A record without its line break is. -/
theorem replay_untorn {a : α} (ha : C.marshal a ≠ []) (s : σ) :
    C.replay step (splitLines (C.marshal a)) s = step s a := by
  rw [splitLines_last (C.newline_not_mem a) ha, replay, C.unmarshal_marshal]
  rfl

end LineCodec

end LSMEngine
