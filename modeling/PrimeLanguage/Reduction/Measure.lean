import PrimeLanguage.Reduction.Engine

/-!
# The termination measure along a trace

`measureReport` replays a normalization and records size and measure around every step.  A step
that does not decrease the measure is an error.  The steps that leave the size unchanged are the
plateaus of the report.
-/

namespace PrimeLanguage

/-- Size and measure before and after a step. -/
structure MeasureSample where
  rule : Rule
  sizeBefore : Nat
  sizeAfter : Nat
  measureBefore : Nat
  measureAfter : Nat
  deriving DecidableEq, Repr

def Step.sample (s : Step) : MeasureSample :=
  ⟨s.rule, s.before.size, s.after.size, s.before.measure, s.after.measure⟩

/-- A normalization with its samples, one for each step. -/
structure MeasureReport where
  trace : Trace
  samples : List MeasureSample

namespace MeasureReport

/-- The indices of the steps that did not shrink the term. -/
def plateaus (r : MeasureReport) : List Nat :=
  (r.samples.zipIdx.filter fun (s, _) => !decide (s.sizeAfter < s.sizeBefore)).map (·.2)

end MeasureReport

/-- The samples of the steps from number `i` on, if each decreases the measure. -/
def sampleSteps : (i : Nat) → List Step → Except Error (List MeasureSample)
  | _, [] => .ok []
  | i, s :: ss =>
    let m := s.sample
    if m.measureAfter < m.measureBefore then (sampleSteps (i + 1) ss).map (m :: ·)
    else .error (.measureViolation i s.rule m.measureBefore m.measureAfter)

/-- Normalizes a term and samples every step. -/
def Engine.measureReport (e : Engine) (t : Term) : Except Error MeasureReport := do
  let trace ← e.normalize t
  return ⟨trace, ← sampleSteps 0 trace.steps⟩

end PrimeLanguage
