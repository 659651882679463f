import PrimeLanguage.Lambda.Evaluation

/-!
# Sequences of evaluation steps

Steps that need no fresh name, counted.

* `Expr.Steps` — a number of steps from one expression to another;
* `Expr.Stuck` — no value, and no step either;
* `Expr.Yields`, `Expr.GetsStuck` — steps to a value, steps to a stuck expression.

The evaluator's loop is settled by them: `evaluate_of_yields` (enough steps reach the value),
`evaluate_of_short` (fewer do not) and `evaluate_of_getsStuck` (no bound reaches a value).
-/

namespace PrimeLanguage

namespace Expr

variable {op : Operator} {n m : Nat} {e e' e'' f a a' l l' r r' v : Expr} {c : Connective}

/-- `n` steps lead from one expression to the other, none of which takes a fresh name. -/
inductive Steps (op : Operator) : Nat → Expr → Expr → Prop where
  | refl (e : Expr) : Steps op 0 e e
  | head {n : Nat} {e e' e'' : Expr} (h : ∀ s, e.step op s = some (e', s))
    (rest : Steps op n e' e'') : Steps op (n + 1) e e''

/-- The expression is no value and has no step. -/
structure Stuck (op : Operator) (e : Expr) : Prop where
  not_value : e.isValue = false
  no_step : ∀ s, e.step op s = none

/-- `n` steps lead to the value `v`. -/
structure Yields (op : Operator) (n : Nat) (e v : Expr) : Prop where
  steps : Steps op n e v
  value : v.isValue = true

/-- Some steps lead to a stuck expression. -/
def GetsStuck (op : Operator) (e : Expr) : Prop := ∃ n e', Steps op n e e' ∧ Stuck op e'

/-! ## Values -/

/-- Values have no step. -/
theorem step_of_isValue (h : e.isValue = true) (s : NameSupply) : e.step op s = none := by
  -- only pairs recurse: a pair of values looks for a step in its right part
  induction e generalizing s with
  | const | lam => rfl
  | var | app | prim => cases h
  | join c l r _ ihr =>
    obtain ⟨hl, hr⟩ := Bool.and_eq_true_iff.1 h
    simp only [step, if_pos hl, ihr hr]
    rfl

theorem isValue_eq_false_of_step {s : NameSupply} {x : Expr × NameSupply}
    (h : e.step op s = some x) : e.isValue = false := by
  cases hv : e.isValue with
  | false => rfl
  | true => rw [step_of_isValue hv] at h; cases h

/-! ## Steps of parts -/

theorem Steps.one (h : ∀ s, e.step op s = some (e', s)) : Steps op 1 e e' := .head h (.refl e')

theorem Steps.trans (h : Steps op n e e') (h' : Steps op m e' e'') : Steps op (n + m) e e'' := by
  induction h with
  | refl e => rwa [Nat.zero_add]
  | head hstep _ ih => rw [Nat.succ_add]; exact .head hstep (ih h')

theorem Steps.argument (hf : f.isValue = true) (h : Steps op n a a') :
    Steps op n (.app f a) (.app f a') := by
  induction h with
  | refl a => exact .refl _
  | @head n a b _ hstep _ ih =>
    have ha : a.isValue = false := isValue_eq_false_of_step (hstep .start)
    have hone : ∀ s, (Expr.app f a).step op s = some (.app f b, s) := by
      intro s
      simp [step, hf, ha, hstep s]
    exact .head hone ih

theorem Steps.left (r : Expr) (h : Steps op n l l') : Steps op n (.join c l r) (.join c l' r) := by
  induction h with
  | refl l => exact .refl _
  | @head n l b _ hstep _ ih =>
    have hl : l.isValue = false := isValue_eq_false_of_step (hstep .start)
    have hone : ∀ s, (Expr.join c l r).step op s = some (.join c b r, s) := by
      intro s
      simp [step, hl, hstep s]
    exact .head hone ih

theorem Steps.right (hl : l.isValue = true) (h : Steps op n r r') :
    Steps op n (.join c l r) (.join c l r') := by
  induction h with
  | refl r => exact .refl _
  | @head n r b _ hstep _ ih =>
    have hone : ∀ s, (Expr.join c l r).step op s = some (.join c l b, s) := by
      intro s
      simp [step, hl, hstep s]
    exact .head hone ih

/-! ## Values of pairs -/

theorem Yields.const (p : Prime) : Yields op 0 (.const p) (.const p) := ⟨.refl _, rfl⟩

theorem Yields.join (hl : Yields op n l l') (hr : Yields op m r r') :
    Yields op (n + m) (.join c l r) (.join c l' r') := by
  have hsteps : Steps op (n + m) (.join c l r) (.join c l' r') :=
    (hl.steps.left r).trans (hr.steps.right hl.value)
  refine ⟨hsteps, ?_⟩
  simp [isValue, hl.value, hr.value]

/-! ## Stuck parts -/

theorem Steps.getsStuck (h : Steps op n e e') (h' : GetsStuck op e') : GetsStuck op e := by
  obtain ⟨m, e'', hsteps, hstuck⟩ := h'
  exact ⟨n + m, e'', h.trans hsteps, hstuck⟩

theorem Stuck.getsStuck (h : Stuck op e) : GetsStuck op e := ⟨0, e, .refl e, h⟩

theorem GetsStuck.argument (hf : f.isValue = true) (h : GetsStuck op a) :
    GetsStuck op (.app f a) := by
  obtain ⟨n, a', hsteps, ha', hnone⟩ := h
  have hstuck : Stuck op (.app f a') := by
    refine ⟨rfl, ?_⟩
    intro s
    simp [step, hf, ha', hnone s]
  exact ⟨n, .app f a', hsteps.argument hf, hstuck⟩

theorem GetsStuck.left (r : Expr) (h : GetsStuck op l) : GetsStuck op (.join c l r) := by
  obtain ⟨n, l', hsteps, hl', hnone⟩ := h
  have hstuck : Stuck op (.join c l' r) := by
    refine ⟨by simp [isValue, hl'], ?_⟩
    intro s
    simp [step, hl', hnone s]
  exact ⟨n, .join c l' r, hsteps.left r, hstuck⟩

theorem GetsStuck.right (hl : Yields op n l l') (h : GetsStuck op r) :
    GetsStuck op (.join c l r) := by
  obtain ⟨m, r', hsteps, hr', hnone⟩ := h
  have hstuck : Stuck op (.join c l' r') := by
    refine ⟨by simp [isValue, hr'], ?_⟩
    intro s
    simp [step, hl.value, hnone s]
  have hright : GetsStuck op (.join c l' r) :=
    (hsteps.right hl.value).getsStuck hstuck.getsStuck
  exact (hl.steps.left r).getsStuck hright

end Expr

/-! ## The evaluator's loop -/

namespace Evaluator

open PrimeLanguage.Expr

variable {ev : Evaluator} {k : Nat} {e e' v : Expr}

theorem run_of_isValue (h : v.isValue = true) (n taken : Nat) (s : NameSupply) :
    ev.run n taken v s = ⟨v, taken, true⟩ := by
  cases n with
  | zero => rw [run, h]
  | succ n => simp only [run, step_of_isValue h, h]

theorem run_of_yields (h : Yields ev.operator k e v) {n : Nat} (hn : k ≤ n) (taken : Nat)
    (s : NameSupply) : ev.run n taken e s = ⟨v, taken + k, true⟩ := by
  obtain ⟨hsteps, hv⟩ := h
  induction hsteps generalizing n taken with
  | refl v => exact run_of_isValue hv n taken s
  | head hstep _ ih =>
    cases n with
    | zero => exact absurd hn (Nat.not_succ_le_zero _)
    | succ n =>
      have hrest := ih (Nat.le_of_succ_le_succ hn) (taken + 1) hv
      simp only [run, hstep s, hrest]
      rw [Nat.add_assoc, Nat.add_comm 1]

theorem run_of_short (h : Yields ev.operator k e v) {n : Nat} (hn : n < k) (taken : Nat)
    (s : NameSupply) : (ev.run n taken e s).isValue = false := by
  obtain ⟨hsteps, hv⟩ := h
  induction hsteps generalizing n taken with
  | refl v => exact absurd hn (Nat.not_lt_zero n)
  | head hstep _ ih =>
    cases n with
    | zero => exact isValue_eq_false_of_step (hstep s)
    | succ n =>
      simp only [run, hstep s]
      exact ih (Nat.lt_of_succ_lt_succ hn) (taken + 1) hv

theorem run_of_getsStuck (h : GetsStuck ev.operator e) (n taken : Nat) (s : NameSupply) :
    (ev.run n taken e s).isValue = false := by
  obtain ⟨k, e', hsteps, he', hnone⟩ := h
  induction hsteps generalizing n taken with
  | refl e =>
    cases n with
    | zero => exact he'
    | succ n => simp only [run, hnone s]; exact he'
  | head hstep _ ih =>
    cases n with
    | zero => exact isValue_eq_false_of_step (hstep s)
    | succ n =>
      simp only [run, hstep s]
      exact ih n (taken + 1) he' hnone

/-- **Enough steps reach the value**, and the outcome counts the steps that lead to it. -/
theorem evaluate_of_yields (h : Yields ev.operator k e v) (hk : k ≤ ev.maxSteps) :
    ev.evaluate e = ⟨v, k, true⟩ := by
  rw [evaluate, run_of_yields h hk, Nat.zero_add]

/-- Fewer steps than lead to the value stop before it. -/
theorem evaluate_of_short (h : Yields ev.operator k e v) (hk : ev.maxSteps < k) :
    (ev.evaluate e).isValue = false :=
  run_of_short h hk 0 .start

/-- **No bound reaches a value** from an expression that gets stuck. -/
theorem evaluate_of_getsStuck (h : GetsStuck ev.operator e) : (ev.evaluate e).isValue = false :=
  run_of_getsStuck h ev.maxSteps 0 .start

end Evaluator

end PrimeLanguage
