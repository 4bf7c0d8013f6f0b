import Mathlib.Algebra.Order.Ring.Nat
/-!
# What a computation that can fail returns

A judgement about results: a value meets the postcondition, or the error
is one that is allowed. It composes along the steps of a computation, so
that what an earlier check has established is at hand for the step it
protects.
-/

namespace LSMEngine

variable {ε α β : Type} {E : ε → Prop} {Q : α → Prop} {R : β → Prop}

/-- The value is as required, or the error is allowed. -/
def Returns (E : ε → Prop) (Q : α → Prop) (x : Except ε α) : Prop :=
  (∀ a, x = .ok a → Q a) ∧ ∀ e, x = .error e → E e

namespace Returns

theorem ok {a : α} (h : Q a) : Returns E Q (.ok a) := by
  refine ⟨fun b hb => ?_, fun e he => ?_⟩
  · exact Except.ok.inj hb ▸ h
  · cases he

theorem error {e : ε} (h : E e) : Returns E Q (.error e : Except ε α) := by
  refine ⟨fun b hb => ?_, fun e' he => ?_⟩
  · cases hb
  · exact Except.error.inj he ▸ h

theorem pure {a : α} (h : Q a) : Returns E Q (Pure.pure a : Except ε α) := ok h

theorem mono {Q' : α → Prop} {x : Except ε α} (h : Returns E Q x) (hQ : ∀ a, Q a → Q' a) :
    Returns E Q' x :=
  ⟨fun a ha => hQ a (h.1 a ha), h.2⟩

/-- A value can be known by where it comes from. -/
theorem eq {x : Except ε α} (h : Returns E Q x) : Returns E (fun a => x = .ok a) x :=
  ⟨fun _ ha => ha, h.2⟩

/-- **Sequencing.** -/
theorem bind {x : Except ε α} {f : α → Except ε β} (h : Returns E Q x)
    (hf : ∀ a, Q a → Returns E R (f a)) : Returns E R (x >>= f) := by
  cases x with
  | ok a => exact hf a (h.1 a rfl)
  | error e => exact error (h.2 e rfl)

theorem ite {c : Prop} [Decidable c] {x y : Except ε α} (hx : c → Returns E Q x)
    (hy : ¬ c → Returns E Q y) : Returns E Q (if c then x else y) := by
  by_cases h : c
  · rw [if_pos h]
    exact hx h
  · rw [if_neg h]
    exact hy h

end Returns

/-- A value of a sequence comes from a value of its first part. -/
theorem exists_of_bind_eq_ok {x : Except ε α} {f : α → Except ε β} {b : β}
    (h : (x >>= f) = .ok b) : ∃ a, x = .ok a ∧ f a = .ok b := by
  cases x with
  | ok a => exact ⟨a, rfl, h⟩
  | error e => cases h

end LSMEngine
