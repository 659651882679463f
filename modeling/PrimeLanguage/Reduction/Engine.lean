import PrimeLanguage.Reduction.Step

/-!
# The reduction engine

An engine has an operator, a bound on the number of steps and a strategy.

* `Engine.step`, `Engine.successors` — one step, every possible step;
* `Engine.normalize` — the trace to a terminal term, if the bound allows for it;
* `Engine.evaluate` — its last term;
* `Engine.equivalent` — whether two terms reach the same terminal term.
-/

namespace PrimeLanguage

/-- The step bound used unless another is chosen. -/
def standardMaxSteps : Nat := 1000

/-- A reduction engine. -/
structure Engine where
  operator : Operator
  maxSteps : Nat
  strategy : Strategy

/-- An applied rule: the whole term before and after, the path to the redex and what happened. -/
structure Step where
  before : Term
  after : Term
  path : List Position
  details : StepDetails
  deriving DecidableEq

namespace Step

def rule (s : Step) : Rule := s.details.rule

def text (s : Step) : String := s!"{s.rule} {s.before} → {s.after}"

end Step

/-- The step from `t` that a contraction of it makes. -/
def Contraction.stepFrom (t : Term) (k : Contraction) : Step :=
  ⟨t, k.after, k.path, k.details⟩

/-- The steps from a term onward. -/
structure Trace where
  initial : Term
  steps : List Step
  deriving DecidableEq

namespace Trace

/-- The term reached. -/
def final (t : Trace) : Term := ((t.steps.getLast?).map (·.after)).getD t.initial

/-- A number in at least `width` columns, at the right. -/
def column (width n : Nat) : String :=
  let digits := toString n
  "".pushn ' ' (width - digits.length) ++ digits

def text (t : Trace) : String :=
  let lines := t.steps.zipIdx.map fun (s, i) => s!"{column 3 (i + 1)} {s.rule} → {s.after}\n"
  s!"    {t.initial}\n" ++ String.join lines

end Trace

namespace Engine

/-- The step that the strategy chooses; none from a terminal term. -/
def step (e : Engine) (t : Term) : Except Error (Option Step) :=
  (contract e.operator e.strategy t).map (·.map (·.stepFrom t))

/-- Every step, from left to right. -/
def successors (e : Engine) (t : Term) : Except Error (List Step) :=
  (contractAll e.operator t).map (·.map (·.stepFrom t))

/-- The steps from `t` to a terminal term, at most `n` of them. -/
def run (e : Engine) : (n : Nat) → Term → Except Error (List Step)
  | 0, t => do
    match ← e.step t with
    | none => return []
    | some _ => throw (.nonTermination e.maxSteps t)
  | n + 1, t => do
    match ← e.step t with
    | none => return []
    | some s => return s :: (← run e n s.after)

/-- Reduces `t` to a terminal term within the step bound. -/
def normalize (e : Engine) (t : Term) : Except Error Trace :=
  (e.run e.maxSteps t).map (⟨t, ·⟩)

/-- The terminal term that `t` reduces to. -/
def evaluate (e : Engine) (t : Term) : Except Error Term :=
  (e.normalize t).map Trace.final

/-- Whether two terminal terms are the same: nouns by their number, others by their text. -/
def sameTerminal (t u : Term) : Bool :=
  match t.noun?, u.noun? with
  | some p, some q => p = q
  | _, _ => t.signature == u.signature

/-- Whether two terms reach the same terminal term. -/
def equivalent (e : Engine) (t u : Term) : Except Error Bool := do
  let t ← e.evaluate t
  let u ← e.evaluate u
  return sameTerminal t u

end Engine

end PrimeLanguage
