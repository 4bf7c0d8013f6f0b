import Mathlib.Algebra.Order.Ring.Nat
/-!
# Computations with state and failure

Computations over a state that can fail and whose state outlives the
failure, with two judgements about them. `Keeps` is a triple: from every
state of an invariant the outcome meets the postcondition and the
invariant is kept. `Refines` compares two computations from states that
belong together: they come to the same, or the first one to a failure
that is allowed.
-/

namespace LSMEngine

/-- A computation over a state that can fail. -/
abbrev Prog (σ ε : Type) := ExceptT ε (StateM σ)

namespace Prog

variable {σ ε α β : Type}
variable {x : Prog σ ε α} {f : α → Prog σ ε β} {fatal : ε → Bool} {Q : Except ε α → Prop}

/-- The outcome and the state it leaves. -/
def exec (x : Prog σ ε α) (s : σ) : Except ε α × σ := x s

/-- The computation with a given outcome and state. -/
def mk (f : σ → Except ε α × σ) : Prog σ ε α := f

/-- A result that does not depend on the state. -/
def lift (r : Except ε α) : Prog σ ε α := mk fun s => (r, s)

/-- The outcome as a value, unless it is a failure that ends everything. -/
def attempt (fatal : ε → Bool) (x : Prog σ ε α) : Prog σ ε (Except ε α) :=
  mk fun s =>
    match x.exec s with
    | (.ok a, s) => (.ok (.ok a), s)
    | (.error e, s) => (if fatal e then .error e else .ok (.error e), s)

@[simp] theorem exec_mk (f : σ → Except ε α × σ) (s : σ) : (mk f).exec s = f s := rfl

@[simp] theorem exec_pure (a : α) (s : σ) : (pure a : Prog σ ε α).exec s = (.ok a, s) := rfl

@[simp] theorem exec_lift (r : Except ε α) (s : σ) : (lift r : Prog σ ε α).exec s = (r, s) := rfl

theorem exec_bind (x : Prog σ ε α) (f : α → Prog σ ε β) (s : σ) :
    (x >>= f).exec s =
      match x.exec s with
      | (.ok a, s) => (f a).exec s
      | (.error e, s) => (.error e, s) := by
  change (x >>= f) s = _
  simp only [bind, ExceptT.bind, ExceptT.mk, StateT.bind, exec]
  rcases x s with ⟨r, t⟩
  cases r <;> rfl

/-- The outcome of a computation, whose continuation is applied. -/
theorem exec_bind_ok {s t : σ} {a : α} (h : x.exec s = (.ok a, t)) :
    (x >>= f).exec s = (f a).exec t := by
  rw [exec_bind, h]

theorem exec_bind_error {s t : σ} {e : ε} (h : x.exec s = (.error e, t)) :
    (x >>= f).exec s = (.error e, t) := by
  rw [exec_bind, h]

theorem exec_attempt_ok {s t : σ} {a : α} (h : x.exec s = (.ok a, t)) :
    (attempt fatal x).exec s = (.ok (.ok a), t) := by
  rw [attempt, exec_mk, h]

theorem exec_attempt_error {s t : σ} {e : ε} (h : x.exec s = (.error e, t)) :
    (attempt fatal x).exec s = (if fatal e then .error e else .ok (.error e), t) := by
  rw [attempt, exec_mk, h]

/-! ## Triples -/

/-- From every state of the invariant: the outcome is as required, and
the invariant is kept. -/
def Keeps (I : σ → Prop) (x : Prog σ ε α) (Q : Except ε α → Prop) : Prop :=
  ∀ s, I s → Q (x.exec s).1 ∧ I (x.exec s).2

namespace Keeps

variable {I : σ → Prop}

theorem lift {r : Except ε α} (h : Q r) : Keeps I (Prog.lift r) Q :=
  fun _ hs => ⟨h, hs⟩

theorem pure {a : α} (h : Q (.ok a)) : Keeps I (Pure.pure a : Prog σ ε α) Q :=
  fun _ hs => ⟨h, hs⟩

theorem mono {R : Except ε α → Prop} (h : Keeps I x Q) (hQ : ∀ r, Q r → R r) : Keeps I x R :=
  fun s hs => ⟨hQ _ (h s hs).1, (h s hs).2⟩

/-- **Sequencing.** -/
theorem bind {R : Except ε β → Prop} (h : Keeps I x Q) (hok : ∀ a, Q (.ok a) → Keeps I (f a) R)
    (herr : ∀ e, Q (.error e) → R (.error e)) : Keeps I (x >>= f) R := by
  intro s hs
  have hx := h s hs
  rw [exec_bind]
  rcases hr : x.exec s with ⟨r, t⟩
  rw [hr] at hx
  cases r with
  | ok a => exact hok a hx.1 t hx.2
  | error e => exact ⟨herr e hx.1, hx.2⟩

/-- Sequencing where the first computation has one outcome. -/
theorem bind_ok {a : α} {R : Except ε β → Prop} (h : Keeps I x (· = .ok a))
    (hf : Keeps I (f a) R) : Keeps I (x >>= f) R := by
  refine h.bind (fun b hb => ?_) fun e he => by cases he
  rw [Except.ok.inj hb]
  exact hf

/-- An outcome as a value, unless it ends everything. -/
theorem attempt {y : Except ε α} (h : Keeps I x (· = y))
    (hy : ∀ e, y = .error e → fatal e = false) :
    Keeps I (Prog.attempt fatal x) (· = .ok y) := by
  intro s hs
  obtain ⟨hval, hI⟩ := h s hs
  rcases hexec : x.exec s with ⟨r, t⟩
  rw [hexec] at hval hI
  obtain rfl : r = y := hval
  cases r with
  | ok a =>
    rw [exec_attempt_ok hexec]
    exact ⟨rfl, hI⟩
  | error e =>
    rw [exec_attempt_error hexec, hy e rfl]
    exact ⟨rfl, hI⟩

end Keeps

/-! ## Refinement -/

/-- How two computations are compared: which states belong together, which
failures of the first one are allowed, and what such a failure leaves. -/
structure Link (σ ε : Type) where
  rel : σ → σ → Prop
  Bad : ε → Prop
  left : σ → Prop

/-- The second computation runs from a fixed state. -/
def Link.fixed (I : σ → Prop) (s₀ : σ) (Bad : ε → Prop) : Link σ ε :=
  ⟨fun s t => I s ∧ t = s₀, Bad, I⟩

/-- From states that belong together: the same outcome, a value as
required, and states that belong together; or a failure that is allowed. -/
def Refines (L : Link σ ε) (x y : Prog σ ε α) (Q : α → Prop) : Prop :=
  ∀ s t, L.rel s t →
    ((x.exec s).1 = (y.exec t).1 ∧ L.rel (x.exec s).2 (y.exec t).2 ∧
        ∀ a, (y.exec t).1 = .ok a → Q a) ∨
      ∃ e, L.Bad e ∧ (x.exec s).1 = .error e ∧ L.left (x.exec s).2

namespace Refines

variable {L : Link σ ε} {Q : α → Prop}

theorem lift {r : Except ε α} (h : ∀ a, r = .ok a → Q a) :
    Refines L (Prog.lift r) (Prog.lift r) Q :=
  fun _ _ hst => .inl ⟨rfl, hst, h⟩

theorem pure {a : α} (h : Q a) : Refines L (Pure.pure a : Prog σ ε α) (Pure.pure a) Q :=
  lift fun _ hb => Except.ok.inj hb ▸ h

theorem throw (e : ε) :
    Refines L (MonadExcept.throw e : Prog σ ε α) (MonadExcept.throw e) Q := by
  refine lift fun a ha => ?_
  cases ha

/-- One that comes to the outcome of the other, or to a worse one. -/
theorem of_keeps {I : σ → Prop} {s₀ : σ} {Bad : ε → Prop} {y : Prog σ ε α} {r r' : Except ε α}
    (h : Keeps I x fun v => v = r ∨ v = r') (hworse : r' = r ∨ ∃ e, Bad e ∧ r' = .error e)
    (hy : y.exec s₀ = (r, s₀)) (hQ : ∀ a, r = .ok a → Q a) : Refines (.fixed I s₀ Bad) x y Q := by
  rintro s t ⟨hs, rfl⟩
  obtain ⟨hval, hI⟩ := h s hs
  rw [hy]
  have hworse' : (x.exec s).1 = r ∨ ∃ e, Bad e ∧ (x.exec s).1 = .error e := by
    rcases hval with heq | heq
    · exact .inl heq
    · exact hworse.imp heq.trans fun ⟨e, he, herr⟩ => ⟨e, he, heq.trans herr⟩
  rcases hworse' with heq | ⟨e, he, herr⟩
  · exact .inl ⟨heq, ⟨hI, rfl⟩, hQ⟩
  · exact .inr ⟨e, he, herr, hI⟩

/-- **Sequencing.** -/
theorem bind {y : Prog σ ε α} {g : α → Prog σ ε β} {R : β → Prop} (h : Refines L x y Q)
    (hf : ∀ a, Q a → Refines L (f a) (g a) R) : Refines L (x >>= f) (y >>= g) R := by
  intro s t hst
  have hxy := h s t hst
  rcases hx : x.exec s with ⟨r, s'⟩
  rcases hy : y.exec t with ⟨r₀, t'⟩
  rw [hx, hy] at hxy
  rcases hxy with ⟨hsame, hrel, hQ⟩ | ⟨e, hbad, he, hleft⟩
  · obtain rfl : r = r₀ := hsame
    cases r with
    | ok a =>
      rw [exec_bind_ok hx, exec_bind_ok hy]
      exact hf a (hQ a rfl) s' t' hrel
    | error e =>
      rw [exec_bind_error hx, exec_bind_error hy]
      exact .inl ⟨rfl, hrel, fun b hb => nomatch hb⟩
  · obtain rfl : r = .error e := he
    rw [exec_bind_error hx]
    exact .inr ⟨e, hbad, rfl, hleft⟩

/-- A computation that only changes the state can be left out. -/
theorem silent {I : σ → Prop} {s₀ : σ} {Bad : ε → Prop} {x : Prog σ ε Unit}
    {f : Unit → Prog σ ε β} {y : Prog σ ε β} {R : β → Prop} (h : Keeps I x (· = .ok ()))
    (hf : Refines (.fixed I s₀ Bad) (f ()) y R) : Refines (.fixed I s₀ Bad) (x >>= f) y R := by
  rintro s t ⟨hs, ht⟩
  obtain ⟨hval, hI⟩ := h s hs
  rw [exec_bind_ok (Prod.ext hval rfl)]
  exact hf _ t ⟨hI, ht⟩

/-- Without failures of its own. -/
theorem attempt {y : Prog σ ε α} (hL : ∀ e, ¬ L.Bad e) (h : Refines L x y Q) :
    Refines L (attempt fatal x) (attempt fatal y) fun r => ∀ a, r = .ok a → Q a := by
  intro s t hst
  have hxy := h s t hst
  rcases hx : x.exec s with ⟨r, s'⟩
  rcases hy : y.exec t with ⟨r₀, t'⟩
  rw [hx, hy] at hxy
  obtain ⟨hsame, hrel, hQ⟩ := hxy.resolve_right fun ⟨e, hbad, _⟩ => hL e hbad
  obtain rfl : r = r₀ := hsame
  left
  cases r with
  | ok a =>
    rw [exec_attempt_ok hx, exec_attempt_ok hy]
    exact ⟨rfl, hrel, fun v hv b hb => hQ b ((Except.ok.inj hv).trans hb)⟩
  | error e =>
    rw [exec_attempt_error hx, exec_attempt_error hy]
    refine ⟨rfl, hrel, fun v hv b hb => ?_⟩
    subst hb
    split at hv
    · cases hv
    · cases hv

end Refines

end Prog

end LSMEngine
