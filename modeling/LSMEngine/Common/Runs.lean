import Mathlib.Algebra.Order.Ring.Nat
import Mathlib.Data.List.Basic
/-!
# Runs of actions

A system that acts where it can: `runs` plays a list of actions. What one
action keeps, every run keeps (`runs_induction`), also if the action
keeps it only under a condition on the state it acts in, and the run
meets the condition at each of its actions (`Along`). Whether a given
run does can be computed (`along_of_check`). A system whose every action
another one can match has no other runs than the other
(`runs_simulation`).
-/

namespace LSMEngine

variable {σ α : Type*} {act : σ → α → Option σ} {s s' : σ} {as : List α}

/-- A run of actions. -/
def runs (act : σ → α → Option σ) (s : σ) : List α → Option σ
  | [] => some s
  | a :: as => (act s a).bind fun s' => runs act s' as

theorem runs_append (act : σ → α → Option σ) (s : σ) (as bs : List α) :
    runs act s (as ++ bs) = (runs act s as).bind fun s' => runs act s' bs := by
  induction as generalizing s with
  | nil => rfl
  | cons a as ih =>
    rw [List.cons_append, runs, runs, Option.bind_assoc]
    exact congrArg _ (funext ih)

/-- Every action of the run meets the condition in the state it acts in. -/
def Along (act : σ → α → Option σ) (C : σ → α → Prop) (s : σ) (as : List α) : Prop :=
  ∀ pre a post s₁, as = pre ++ a :: post → runs act s pre = some s₁ → C s₁ a

theorem Along.tail {C : σ → α → Prop} {a : α} {s₁ : σ} (h : Along act C s (a :: as))
    (hs : act s a = some s₁) : Along act C s₁ as := by
  intro pre b post s₂ has hpre
  refine h (a :: pre) b post s₂ (by rw [has]; rfl) ?_
  rw [runs, hs]
  exact hpre

theorem Along.and {C D : σ → α → Prop} (hC : Along act C s as) (hD : Along act D s as) :
    Along act (fun s a => C s a ∧ D s a) s as := fun pre a post s₁ has hpre =>
  ⟨hC pre a post s₁ has hpre, hD pre a post s₁ has hpre⟩

/-- **Invariants of runs.** -/
theorem runs_induction {P : σ → Prop} {C : σ → α → Prop}
    (hstep : ∀ s a s', P s → C s a → act s a = some s' → P s') (hs : P s)
    (hrun : runs act s as = some s') (hcond : Along act C s as) : P s' := by
  induction as generalizing s with
  | nil =>
    obtain rfl := Option.some.inj hrun
    exact hs
  | cons a as ih =>
    obtain ⟨s₁, h₁, hrest⟩ := Option.bind_eq_some_iff.mp hrun
    exact ih (hstep s a s₁ hs (hcond [] a as s rfl rfl) h₁) hrest (hcond.tail h₁)

theorem along_true (act : σ → α → Option σ) (s : σ) (as : List α) :
    Along act (fun _ _ => True) s as := fun _ _ _ _ _ _ => trivial

/-- Invariants that every action keeps. -/
theorem runs_invariant {P : σ → Prop} (hstep : ∀ s a s', P s → act s a = some s' → P s')
    (hs : P s) (hrun : runs act s as = some s') : P s' :=
  runs_induction (fun s a s' h _ => hstep s a s' h) hs hrun (along_true act s as)

/-- **Simulation.** Where each action is matched by a run of another
system, each run is. -/
theorem runs_simulation {τ β : Type*} {act' : τ → β → Option τ} {R : σ → τ → Prop} {t : τ}
    (hstep : ∀ s t a s', R s t → act s a = some s' → ∃ bs t', runs act' t bs = some t' ∧ R s' t')
    (hs : R s t) (hrun : runs act s as = some s') :
    ∃ bs t', runs act' t bs = some t' ∧ R s' t' := by
  induction as generalizing s t with
  | nil =>
    obtain rfl := Option.some.inj hrun
    exact ⟨[], t, rfl, hs⟩
  | cons a as ih =>
    obtain ⟨s₁, h₁, hrest⟩ := Option.bind_eq_some_iff.mp hrun
    obtain ⟨bs, t₁, hbs, ht₁⟩ := hstep s t a s₁ hs h₁
    obtain ⟨cs, t', hcs, ht'⟩ := ih ht₁ hrest
    exact ⟨bs ++ cs, t', by rw [runs_append, hbs]; exact hcs, ht'⟩

/-- A condition that can be decided, checked along a run. -/
def check (act : σ → α → Option σ) (C : σ → α → Prop) [∀ s a, Decidable (C s a)] (s : σ) :
    List α → Bool
  | [] => true
  | a :: as => C s a && (act s a).all fun s' => check act C s' as

theorem along_of_check {C : σ → α → Prop} [∀ s a, Decidable (C s a)] (h : check act C s as) :
    Along act C s as := by
  intro pre a post s₁ has hpre
  induction pre generalizing s as with
  | nil =>
    obtain rfl := Option.some.inj hpre
    subst has
    exact of_decide_eq_true (Bool.and_eq_true_iff.mp h).1
  | cons b pre ih =>
    subst has
    obtain ⟨s₂, hb, hrest⟩ := Option.bind_eq_some_iff.mp hpre
    have hall := (Bool.and_eq_true_iff.mp h).2
    rw [hb] at hall
    exact ih hall rfl hrest

end LSMEngine
