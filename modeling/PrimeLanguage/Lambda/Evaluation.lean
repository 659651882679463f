import PrimeLanguage.Lambda.Substitution
import PrimeLanguage.Operator.Basic

/-!
# Call-by-value evaluation

The function is evaluated before its argument, the left part of a pair or primitive before the
right one.  A primitive over two constants combines them as an adjective and a noun; it is stuck
when it is named after another operator or the operator has no result.

* `Expr.step` — one step, or none from a value or a stuck expression;
* `Evaluator.evaluate` — steps until a value, a stuck expression or the bound; it never fails.
-/

namespace PrimeLanguage

/-- A primitive over two values, if it can act. -/
def Operator.applyPrimitive (op : Operator) (name : String) (l r : Expr) : Option Expr :=
  if name = op.name then
    match l.const?, r.const? with
    | some p, some q =>
      match op.combine p q with
      | .ok c => some (.const c.result)
      | .error _ => none
    | _, _ => none
  else none

namespace Expr

/-- One step of an expression. -/
def step (op : Operator) : Expr → NameSupply → Option (Expr × NameSupply)
  | .var _, _ | .const _, _ | .lam .., _ => none
  | .app f a, s =>
    if f.isValue then
      if a.isValue then
        match f with
        | .lam x b => some (b.substitute x a s)
        | _ => none
      else (step op a s).map fun (a', s) => (.app f a', s)
    else (step op f s).map fun (f', s) => (.app f' a, s)
  | .join c l r, s =>
    if l.isValue then (step op r s).map fun (r', s) => (.join c l r', s)
    else (step op l s).map fun (l', s) => (.join c l' r, s)
  | .prim o l r, s =>
    if l.isValue then
      if r.isValue then (op.applyPrimitive o l r).map fun e => (e, s)
      else (step op r s).map fun (r', s) => (.prim o l r', s)
    else (step op l s).map fun (l', s) => (.prim o l' r, s)

end Expr

/-- The bound on evaluation steps used unless another is chosen. -/
def standardEvaluationSteps : Nat := 1000

/-- An operator with a bound on the number of steps. -/
structure Evaluator where
  operator : Operator
  maxSteps : Nat

/-- What an evaluation reached. -/
structure Outcome where
  result : Expr
  steps : Nat
  isValue : Bool
  deriving DecidableEq

def Outcome.text (o : Outcome) : String :=
  let status := if o.isValue then "value" else "stuck"
  s!"{o.result} ({status} after {o.steps} steps)"

namespace Evaluator

/-- Goes on for at most `n` steps after `taken` steps have led to `e`. -/
def run (ev : Evaluator) : (n taken : Nat) → Expr → NameSupply → Outcome
  | 0, taken, e, _ => ⟨e, taken, e.isValue⟩
  | n + 1, taken, e, s =>
    match e.step ev.operator s with
    | none => ⟨e, taken, e.isValue⟩
    | some (e', s') => run ev n (taken + 1) e' s'

/-- Evaluates until a value, a stuck expression or the step bound. -/
def evaluate (ev : Evaluator) (e : Expr) : Outcome := ev.run ev.maxSteps 0 e .start

end Evaluator

end PrimeLanguage
