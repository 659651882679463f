import PrimeLanguage.Lambda.Evaluation
import PrimeLanguage.Lambda.Meaning
import PrimeLanguage.Reduction.Engine

/-!
# Reduction and meaning side by side

`Semantics` is a reduction engine and an evaluator over one operator.

* `denote` — the meaning of a term, evaluated;
* `equivalent` — whether two terms denote the same up to bound names;
* `agreement` — reduces a term, and requires its denotation to be a value that is the meaning of
  the terminal term up to bound names.
-/

namespace PrimeLanguage

/-- A reduction engine, and the step bound of an evaluator over the same operator. -/
structure Semantics where
  engine : Engine
  evaluationSteps : Nat

/-- A term on which reduction and meaning agree. -/
structure Agreement where
  term : Term
  operational : Term
  operationalSteps : Nat
  outcome : Outcome
  deriving DecidableEq

/-- The prime that both sides agree on, if the term is a noun expression. -/
def Agreement.value? (a : Agreement) : Option Prime := a.operational.noun?

namespace Semantics

/-- Both parts over one operator, with the standard bounds. -/
def ofOperator (op : Operator) : Semantics :=
  ⟨⟨op, standardMaxSteps, .leftmostFirst⟩, standardEvaluationSteps⟩

def evaluator (s : Semantics) : Evaluator := ⟨s.engine.operator, s.evaluationSteps⟩

/-- The meaning of a term. -/
def meaning (s : Semantics) (t : Term) : Except Error Expr := t.meaning s.engine.operator.name

/-- The evaluated meaning of a term. -/
def denote (s : Semantics) (t : Term) : Except Error Outcome :=
  (s.meaning t).map s.evaluator.evaluate

/-- The constant that a term denotes, if it denotes one. -/
def denotedPrime (s : Semantics) (t : Term) : Except Error (Option Prime) :=
  (s.denote t).map (·.result.const?)

/-- Whether two terms denote the same up to bound names. -/
def equivalent (s : Semantics) (t u : Term) : Except Error Bool := do
  let d ← s.denote t
  let d' ← s.denote u
  return d.result.alphaEq d'.result

/-- Checks that the reduction of a term and its denotation agree. -/
def agreement (s : Semantics) (t : Term) : Except Error Agreement := do
  let trace ← s.engine.normalize t
  let outcome ← s.denote t
  let expected ← s.meaning trace.final
  if outcome.isValue && outcome.result.alphaEq expected then
    return ⟨t, trace.final, trace.steps.length, outcome⟩
  else throw (.semanticDivergence t trace.final outcome.result)

end Semantics

end PrimeLanguage
