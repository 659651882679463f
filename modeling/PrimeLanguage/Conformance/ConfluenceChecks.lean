import PrimeLanguage.Conformance.ReductionChecks
import PrimeLanguage.Reduction.Confluence

/-!
# Conformance of every reduction order

All reductions of the sentences with overlapping redexes, and of every sample, end in the same
terminal term.
-/

namespace PrimeLanguage

namespace Conformance

open Corpus

def overlapping (settings : SuiteSettings) (operator : OperatorKind) : Finding :=
  match (settings.engineFor operator).engine.localConfluence with
  | .ok reports =>
    let paths := (reports.map (·.paths)).foldl (· + ·) 0
    .pass "confluence/overlapping-redexes"
      (s!"{operator}: {reports.length} overlapping-redex terms, {paths} paths, " ++
        "one normal form each")
  | .error e => .fail "confluence/overlapping-redexes" s!"{operator}: {e.message}"

def everyOrder (settings : SuiteSettings) (samples : List (Read Sample))
    (operator : OperatorKind) : Finding :=
  let engine := (settings.engineFor operator).engine
  let results := samples.map fun (s, t) => (s, engine.confluence t)
  let explored := results.filterMap fun (_, r) => r.toOption
  let paths := (explored.map (·.paths)).foldl (· + ·) 0
  let failures := results.filterMap fun (s, r) =>
    match r with
    | .ok _ => none
    | .error e => some (failureLine operator s.name e)
  .ofFailures "confluence/fixtures"
    s!"{operator}: every fixture has a unique normal form ({paths} paths)"
    s!"{operator}: fixtures with diverging reductions" failures

/-- The confluence checks. -/
def confluenceReport (settings : SuiteSettings) : Except Fault Report := do
  let samples ← readSamples wellTyped
  return ⟨settings.operators.flatMap fun operator =>
    [overlapping settings operator, everyOrder settings samples operator]⟩

end Conformance

end PrimeLanguage
