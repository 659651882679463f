import PrimeLanguage.Lambda.Evaluation
import PrimeLanguage.Operator.Builtin
import PrimeLanguage.Proofs.Lambda.Substitution

/-!
# Evaluation and bound names

Evaluation does not see the names of bound variables, nor those that its substitutions take from the
supply: expressions that are equal up to bound names take the same steps.

* `Expr.Alike` — equality up to bound names, with a case for each form of expressions;
* `Alike.step` — one step, from any two supplies;
* `Alike.run` — any number of steps;
* `Expr.free_of_step` — a step makes no variable free.

Principal result: `evaluation_ignores_bound_names`.
-/

namespace PrimeLanguage

namespace Expr

variable {op : Operator} {e e' f f' a a' l l' r r' b b' : Expr} {x y : String}

/-- Two expressions are equal up to bound names. -/
inductive Alike : Expr → Expr → Prop where
  | var (x : String) : Alike (.var x) (.var x)
  | const (p : Prime) : Alike (.const p) (.const p)
  | lam {x y : String} {b b' : Expr} (h : b.nameless.close 0 x = b'.nameless.close 0 y) :
    Alike (.lam x b) (.lam y b')
  | app {f f' a a' : Expr} (hf : Alike f f') (ha : Alike a a') : Alike (.app f a) (.app f' a')
  | join {l l' r r' : Expr} (c : Connective) (hl : Alike l l') (hr : Alike r r') :
    Alike (.join c l r) (.join c l' r')
  | prim {l l' r r' : Expr} (o : String) (hl : Alike l l') (hr : Alike r r') :
    Alike (.prim o l r) (.prim o l' r')

theorem Alike.nameless (h : Alike e e') : e.nameless = e'.nameless := by
  induction h with
  | var | const => rfl
  | lam h => rw [nameless_lam, nameless_lam, h]
  | app _ _ ihf iha => rw [nameless_app, nameless_app, ihf, iha]
  | join c _ _ ihl ihr => rw [nameless_join, nameless_join, ihl, ihr]
  | prim o _ _ ihl ihr => rw [nameless_prim, nameless_prim, ihl, ihr]

theorem Alike.of_nameless (h : e.nameless = e'.nameless) : Alike e e' := by
  induction e generalizing e' with
  | var x =>
    cases e' <;> simp at h
    exact h ▸ .var x
  | const p =>
    cases e' <;> simp at h
    exact h ▸ .const p
  | lam x b =>
    cases e' <;> simp at h
    exact .lam h
  | app f a ihf iha =>
    cases e' <;> simp at h
    exact .app (ihf h.1) (iha h.2)
  | join c l r ihl ihr =>
    cases e' <;> simp at h
    obtain ⟨rfl, hl, hr⟩ := h
    exact .join c (ihl hl) (ihr hr)
  | prim o l r ihl ihr =>
    cases e' <;> simp at h
    obtain ⟨rfl, hl, hr⟩ := h
    exact .prim o (ihl hl) (ihr hr)

theorem alphaEq_iff_alike : e.alphaEq e' = true ↔ Alike e e' :=
  alphaEq_iff.trans ⟨Alike.of_nameless, Alike.nameless⟩

theorem Alike.refl (e : Expr) : Alike e e := .of_nameless rfl

/-! ## Values -/

theorem Alike.isValue (h : Alike e e') : e.isValue = e'.isValue := by
  induction h with
  | var | const | lam | app | prim => rfl
  | join c _ _ ihl ihr => simp only [Expr.isValue, ihl, ihr]

theorem Alike.const? (h : Alike e e') : e.const? = e'.const? := by
  cases h <;> rfl

theorem Alike.applyPrimitive (hl : Alike l l') (hr : Alike r r') (o : String) :
    op.applyPrimitive o l r = op.applyPrimitive o l' r' := by
  simp only [Operator.applyPrimitive, hl.const?, hr.const?]

/-! ## Steps -/

/-- Abstractions that are alike have alike results on alike arguments. -/
theorem Alike.substitute (h : b.nameless.close 0 x = b'.nameless.close 0 y) (ha : Alike a a')
    (s s' : NameSupply) : Alike (b.substitute x a s).1 (b'.substitute y a' s').1 := by
  apply Alike.of_nameless
  calc (b.substitute x a s).1.nameless
      = (b.nameless.close 0 x).fill 0 a.nameless := by
        rw [nameless_substitute, Nameless.fill_close (lift_nameless b)]
    _ = (b'.nameless.close 0 y).fill 0 a'.nameless := by rw [h, ha.nameless]
    _ = (b'.substitute y a' s').1.nameless := by
        rw [nameless_substitute, Nameless.fill_close (lift_nameless b')]

/-- Both answers are missing, or they are alike whatever is left of the supplies. -/
abbrev AlikeAnswers (o o' : Option (Expr × NameSupply)) : Prop :=
  Option.Rel (fun z z' => Alike z.1 z'.1) o o'

/-- A part that takes a step takes the whole along. -/
theorem AlikeAnswers.map {o o' : Option (Expr × NameSupply)} (h : AlikeAnswers o o')
    {g g' : Expr → Expr} (hg : ∀ z z', Alike z z' → Alike (g z) (g' z')) :
    AlikeAnswers (o.map fun (z, s) => (g z, s)) (o'.map fun (z, s) => (g' z, s)) := by
  cases h with
  | none => exact .none
  | some h => exact .some (hg _ _ h)

/-- **A step does not see bound names**, nor the supply. -/
theorem Alike.step (h : Alike e e') (s s' : NameSupply) :
    AlikeAnswers (e.step op s) (e'.step op s') := by
  induction h generalizing s s' with
  | var | const | lam => exact .none
  | app hf ha ihf iha =>
    simp only [Expr.step, hf.isValue, ha.isValue]
    split
    · split
      · -- only an abstraction can be applied
        cases hf with
        | lam h => exact .some (Alike.substitute h ha s s')
        | _ => exact .none
      · exact (iha s s').map fun _ _ h => .app hf h
    · exact (ihf s s').map fun _ _ h => .app h ha
  | join c hl hr ihl ihr =>
    simp only [Expr.step, hl.isValue]
    split
    · exact (ihr s s').map fun _ _ h => .join c hl h
    · exact (ihl s s').map fun _ _ h => .join c h hr
  | prim o hl hr ihl ihr =>
    simp only [Expr.step, hl.isValue, hr.isValue]
    split
    · split
      · rw [hl.applyPrimitive hr]
        cases op.applyPrimitive o _ _ with
        | none => exact .none
        | some z => exact .some (.refl z)
      · exact (ihr s s').map fun _ _ h => .prim o hl h
    · exact (ihl s s').map fun _ _ h => .prim o h hr

/-- An expression without a step has none from any supply. -/
theorem step_eq_none {s : NameSupply} (h : e.step op s = none) (s' : NameSupply) :
    e.step op s' = none := by
  have hstep : AlikeAnswers (e.step op s) (e.step op s') := (Alike.refl e).step s s'
  rw [h] at hstep
  cases hstep' : e.step op s' with
  | none => rfl
  | some z => rw [hstep'] at hstep; cases hstep

/-! ## Free variables -/

/-- A primitive that acts gives a constant. -/
theorem applyPrimitive_eq_some {o : String} {z : Expr} (h : op.applyPrimitive o l r = some z) :
    ∃ p, z = .const p := by
  unfold Operator.applyPrimitive at h
  split at h
  · split at h
    · split at h
      · cases h; exact ⟨_, rfl⟩
      · cases h
    · cases h
  · cases h

/-- Induction along a step, down to the redex. -/
theorem step_induction {motive : Expr → Expr → Prop}
    (beta : ∀ x b a s, motive (.app (.lam x b) a) (b.substitute x a s).1)
    (function : ∀ f f' a, motive f f' → motive (.app f a) (.app f' a))
    (argument : ∀ f a a', motive a a' → motive (.app f a) (.app f a'))
    (joinLeft : ∀ c l l' r, motive l l' → motive (.join c l r) (.join c l' r))
    (joinRight : ∀ c l r r', motive r r' → motive (.join c l r) (.join c l r'))
    (primLeft : ∀ o l l' r, motive l l' → motive (.prim o l r) (.prim o l' r))
    (primRight : ∀ o l r r', motive r r' → motive (.prim o l r) (.prim o l r'))
    (primitive : ∀ o l r p, motive (.prim o l r) (.const p))
    {s : NameSupply} {z : Expr × NameSupply} (h : e.step op s = some z) : motive e z.1 := by
  induction e generalizing s z with
  | var | const | lam => cases h
  | app f a ihf iha =>
    simp only [Expr.step] at h
    split at h
    · split at h
      · cases f with
        | lam x b => cases h; exact beta x b a s
        | _ => cases h
      · obtain ⟨z, hz, rfl⟩ := Option.map_eq_some_iff.1 h
        exact argument f a z.1 (iha hz)
    · obtain ⟨z, hz, rfl⟩ := Option.map_eq_some_iff.1 h
      exact function f z.1 a (ihf hz)
  | join c l r ihl ihr =>
    simp only [Expr.step] at h
    split at h
    · obtain ⟨z, hz, rfl⟩ := Option.map_eq_some_iff.1 h
      exact joinRight c l r z.1 (ihr hz)
    · obtain ⟨z, hz, rfl⟩ := Option.map_eq_some_iff.1 h
      exact joinLeft c l z.1 r (ihl hz)
  | prim o l r ihl ihr =>
    simp only [Expr.step] at h
    split at h
    · split at h
      · obtain ⟨c, hc, rfl⟩ := Option.map_eq_some_iff.1 h
        obtain ⟨p, rfl⟩ := applyPrimitive_eq_some hc
        exact primitive o l r p
      · obtain ⟨z, hz, rfl⟩ := Option.map_eq_some_iff.1 h
        exact primRight o l r z.1 (ihr hz)
    · obtain ⟨z, hz, rfl⟩ := Option.map_eq_some_iff.1 h
      exact primLeft o l z.1 r (ihl hz)

/-- **A step makes no variable free.** -/
theorem free_of_step {s : NameSupply} {z : Expr × NameSupply} (h : e.step op s = some z) :
    ∀ y ∈ z.1.free, y ∈ e.free := by
  have left (l l' r : Expr) (h : ∀ y ∈ l'.free, y ∈ l.free) :
      ∀ y ∈ l'.free ++ r.free, y ∈ l.free ++ r.free := fun y hy =>
    List.mem_append.2 ((List.mem_append.1 hy).imp_left (h y))
  have right (l r r' : Expr) (h : ∀ y ∈ r'.free, y ∈ r.free) :
      ∀ y ∈ l.free ++ r'.free, y ∈ l.free ++ r.free := fun y hy =>
    List.mem_append.2 ((List.mem_append.1 hy).imp_right (h y))
  refine step_induction (motive := fun e e' => ∀ y ∈ e'.free, y ∈ e.free) ?beta left right
    (fun _ => left) (fun _ => right) (fun _ => left) (fun _ => right)
    (fun _ _ _ _ _ hy => absurd hy List.not_mem_nil) h
  -- the variables of the argument take the place of the parameter
  intro x b a s y hy
  rcases (mem_free_substitute b a s).1 hy with ⟨hyb, hyx⟩ | ⟨_, hya⟩
  · simp [free, hyb, hyx]
  · simp [free, hya]

end Expr

/-! ## Evaluation -/

namespace Evaluator

open PrimeLanguage.Expr

variable {ev : Evaluator} {e e' : Expr}

/-- **A run does not see bound names**, nor the supply: two runs take as many steps, counted from `k`
and from `k'`, and stop at expressions that are alike. -/
theorem run_alike (h : Alike e e') (n k k' : Nat) (s s' : NameSupply) :
    (ev.run n k e s).steps + k' = (ev.run n k' e' s').steps + k ∧
    (ev.run n k e s).isValue = (ev.run n k' e' s').isValue ∧
    Alike (ev.run n k e s).result (ev.run n k' e' s').result := by
  induction n generalizing e e' k k' s s' with
  | zero => exact ⟨Nat.add_comm k k', h.isValue, h⟩
  | succ n ih =>
    have hstep : AlikeAnswers (e.step ev.operator s) (e'.step ev.operator s') := h.step s s'
    simp only [run]
    generalize e.step ev.operator s = o at hstep ⊢
    generalize e'.step ev.operator s' = o' at hstep ⊢
    cases hstep with
    | none => exact ⟨Nat.add_comm k k', h.isValue, h⟩
    | @some z z' hnext =>
      obtain ⟨hsteps, hvalue, hresult⟩ := ih hnext (k + 1) (k' + 1) z.2 z'.2
      refine ⟨?_, hvalue, hresult⟩
      change (ev.run n (k + 1) z.1 z.2).steps + k' = (ev.run n (k' + 1) z'.1 z'.2).steps + k
      omega

theorem evaluate_alike (h : Alike e e') :
    (ev.evaluate e).steps = (ev.evaluate e').steps ∧
    (ev.evaluate e).isValue = (ev.evaluate e').isValue ∧
    Alike (ev.evaluate e).result (ev.evaluate e').result :=
  run_alike h ev.maxSteps 0 0 .start .start

/-- A run makes no variable free. -/
theorem free_of_run (n k : Nat) (s : NameSupply) :
    ∀ y ∈ (ev.run n k e s).result.free, y ∈ e.free := by
  induction n generalizing e k s with
  | zero => exact fun y hy => hy
  | succ n ih =>
    intro y hy
    simp only [run] at hy
    cases hz : e.step ev.operator s with
    | none => rw [hz] at hy; exact hy
    | some z => rw [hz] at hy; exact free_of_step hz y (ih (k + 1) z.2 y hy)

end Evaluator

namespace Expr

/-- **Evaluation ignores bound names.**  Expressions that are equal up to bound names both have no
step or both have one, from any two supplies, to expressions that are equal up to bound names; with
any bound on the steps their evaluations take as many steps, agree on whether a value is reached and
stop at expressions that are equal up to bound names.  The free variables of a step and of an
evaluation are free in the expression, so closed expressions stay closed. -/
theorem evaluation_ignores_bound_names (op : Operator) :
    (∀ e e' : Expr, e.alphaEq e' = true →
      (∀ s s', Option.Rel (fun z z' => z.1.alphaEq z'.1 = true) (e.step op s) (e'.step op s')) ∧
      ∀ n, ((Evaluator.mk op n).evaluate e).steps = ((Evaluator.mk op n).evaluate e').steps ∧
        ((Evaluator.mk op n).evaluate e).isValue = ((Evaluator.mk op n).evaluate e').isValue ∧
        ((Evaluator.mk op n).evaluate e).result.alphaEq
          ((Evaluator.mk op n).evaluate e').result = true) ∧
    (∀ (e : Expr) (s : NameSupply) (z : Expr × NameSupply), e.step op s = some z →
      z.1.freeNames ⊆ e.freeNames ∧ (e.freeNames = [] → z.1.freeNames = [])) ∧
    ∀ (e : Expr) (n : Nat), ((Evaluator.mk op n).evaluate e).result.freeNames ⊆ e.freeNames := by
  simp only [alphaEq_iff_alike]
  refine ⟨?_, ?_, ?_⟩
  · intro e e' h
    exact ⟨fun s s' => h.step s s', fun n => Evaluator.evaluate_alike h⟩
  · intro e s z h
    have hfree : z.1.freeNames ⊆ e.freeNames := fun y hy =>
      mem_freeNames.2 (free_of_step h y (mem_freeNames.1 hy))
    exact ⟨hfree, fun hclosed => List.subset_nil.1 (hclosed ▸ hfree)⟩
  · intro e n y hy
    exact mem_freeNames.2 (Evaluator.free_of_run n 0 .start y (mem_freeNames.1 hy))

/-- An application whose first step renames a binder under one choice of names and not under the
other, and a closed one. -/
theorem evaluation_ignores_bound_names_applications :
    let e := Expr.app (.lam "x" (.lam "y" (.app (.var "x") (.var "y")))) (.lam "z" (.var "y"))
    let e' := Expr.app (.lam "u" (.lam "w" (.app (.var "u") (.var "w")))) (.lam "u" (.var "y"))
    let closed := Expr.app (.lam "x" (.var "x")) (.lam "y" (.var "y"))
    e.alphaEq e' = true ∧
    Option.Rel (fun z z' => z.1.alphaEq z'.1 = true) (e.step .identity .start)
      (e'.step .identity ⟨5⟩) ∧
    ((Evaluator.mk .identity 1).evaluate e).steps = ((Evaluator.mk .identity 1).evaluate e').steps ∧
    closed.freeNames = [] ∧ ∃ z, closed.step .identity .start = some z ∧ z.1.freeNames = [] := by
  intro e e' closed
  have h : e.alphaEq e' = true := by decide
  have hclosed : closed.freeNames = [] := by simp [closed, freeNames, free]
  obtain ⟨z, hz⟩ : ∃ z, closed.step .identity .start = some z := ⟨_, rfl⟩
  obtain ⟨halike, hfree, _⟩ := evaluation_ignores_bound_names .identity
  obtain ⟨hstep, hrun⟩ := halike e e' h
  exact ⟨h, hstep .start ⟨5⟩, (hrun 1).1, hclosed, z, hz, (hfree closed .start z hz).2 hclosed⟩

end Expr

end PrimeLanguage
