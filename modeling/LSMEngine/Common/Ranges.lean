import Mathlib.Algebra.Order.Ring.Nat
import Mathlib.Data.List.Basic
import Mathlib.Order.WithBot
/-!
# Ranges of keys laid out in order

A range holds the keys from its start on and below its stop, which may be
open. Ranges are laid out if none of them is empty and each stops no
later than the next one starts; they are then disjoint. The first range
that does not stop at or below a key is the only one that can hold it
(`LaidOut.mem_iff`), which is what a search for the key relies on.
-/

namespace LSMEngine

variable {κ : Type*} [LinearOrder κ]

/-- The keys from `start` on and below `stop`. -/
structure KeyRange (κ : Type*) where
  start : κ
  stop : WithTop κ

namespace KeyRange

variable {r r' r'' : KeyRange κ} {k s : κ} {l : List (KeyRange κ)}

instance : Membership κ (KeyRange κ) := ⟨fun r k => r.start ≤ k ∧ (k : WithTop κ) < r.stop⟩

theorem mem_def : k ∈ r ↔ r.start ≤ k ∧ (k : WithTop κ) < r.stop := Iff.rfl

/-- The range has a key. -/
def Nonempty (r : KeyRange κ) : Prop := (r.start : WithTop κ) < r.stop

/-- The one range stops before the other starts. -/
def Before (r r' : KeyRange κ) : Prop := r.stop ≤ (r'.start : WithTop κ)

theorem Nonempty.start_mem (h : r.Nonempty) : r.start ∈ r := ⟨le_refl _, h⟩

theorem Before.trans (h : r.Before r') (hne : r'.Nonempty) (h' : r'.Before r'') : r.Before r'' :=
  le_trans h (le_trans hne.le h')

/-- A key below the stop of a range is below that of a later one. -/
theorem Before.lt_stop (h : r.Before r') (hne : r'.Nonempty) (hk : (k : WithTop κ) < r.stop) :
    (k : WithTop κ) < r'.stop := lt_of_lt_of_le hk (le_trans h hne.le)

theorem Before.not_mem (h : r.Before r') (hk : (k : WithTop κ) < r.stop) : k ∉ r' := by
  intro hk'
  have hlt : (k : WithTop κ) < r'.start := lt_of_lt_of_le hk h
  exact absurd hk'.1 (not_le.mpr (WithTop.coe_lt_coe.mp hlt))

/-! ## Layouts -/

/-- Ranges with keys, each before the next. -/
structure LaidOut (l : List (KeyRange κ)) : Prop where
  nonempty : ∀ r ∈ l, r.Nonempty
  chain : l.IsChain Before

theorem LaidOut.tail (h : LaidOut (r :: l)) : LaidOut l :=
  ⟨fun r' hr' => h.nonempty r' (List.mem_cons_of_mem _ hr'), h.chain.of_cons⟩

/-- Each range is before all that follow. -/
theorem LaidOut.pairwise (h : LaidOut l) : l.Pairwise Before := by
  induction l with
  | nil => exact List.Pairwise.nil
  | cons r l ih =>
    have hl := ih h.tail
    refine List.pairwise_cons.mpr ⟨fun r' hr' => ?_, hl⟩
    rcases l with _ | ⟨r₁, l⟩
    · cases hr'
    have h₁ : r.Before r₁ := (List.isChain_cons_cons.mp h.chain).1
    rcases List.mem_cons.mp hr' with rfl | hr'
    · exact h₁
    · exact h₁.trans (h.nonempty r₁ (by simp)) ((List.pairwise_cons.mp hl).1 r' hr')

/-- **Where a key is.** If things with ranges are cut at the first whose
range does not stop at or below the key, this one holds it or none
does. -/
theorem LaidOut.mem_iff {α : Type*} {f : α → KeyRange κ} {as bs : List α} {a : α}
    (h : LaidOut ((as ++ bs).map f)) (has : ∀ a ∈ as, ¬(k : WithTop κ) < (f a).stop)
    (hbs : ∀ b ∈ bs, (k : WithTop κ) < (f b).stop) (ha : a ∈ as ++ bs) :
    k ∈ f a ↔ bs.head? = some a ∧ (f a).start ≤ k := by
  rcases List.mem_append.mp ha with ha | ha
  · -- a range that stops at or below the key
    refine iff_of_false (fun hk => has a ha hk.2) ?_
    rintro ⟨hhead, -⟩
    exact has a ha (hbs a (List.mem_of_head? hhead))
  rcases bs with _ | ⟨b, bs⟩
  · cases ha
  rcases List.mem_cons.mp ha with rfl | ha
  · exact ⟨fun hk => ⟨rfl, hk.1⟩, fun hk => ⟨hk.2, hbs a (by simp)⟩⟩
  · -- a range behind the first one
    have hp := (List.pairwise_append.mp (List.pairwise_map.mp h.pairwise)).2.1
    have hbefore : (f b).Before (f a) := (List.pairwise_cons.mp hp).1 a ha
    have hnot : k ∉ f a := hbefore.not_mem (hbs b (by simp))
    refine iff_of_false hnot ?_
    rintro ⟨-, hle⟩
    exact hnot ⟨hle, hbs a (by simp [ha])⟩

/-! ## Cutting a range -/

/-- **A range cut at a key of it.** The keys below go to the one part, the
others to the other. -/
theorem mem_left_iff (hs : s ∈ r) : k ∈ (⟨r.start, s⟩ : KeyRange κ) ↔ k ∈ r ∧ k < s := by
  refine ⟨fun hk => ?_, fun hk => ⟨hk.1.1, WithTop.coe_lt_coe.mpr hk.2⟩⟩
  have hlt : k < s := WithTop.coe_lt_coe.mp hk.2
  exact ⟨⟨hk.1, lt_trans hk.2 hs.2⟩, hlt⟩

theorem mem_right_iff (hs : s ∈ r) : k ∈ (⟨s, r.stop⟩ : KeyRange κ) ↔ k ∈ r ∧ ¬k < s := by
  refine ⟨fun hk => ⟨⟨le_trans hs.1 hk.1, hk.2⟩, not_lt.mpr hk.1⟩, fun hk => ?_⟩
  exact ⟨not_lt.mp hk.2, hk.1.2⟩

end KeyRange

end LSMEngine
