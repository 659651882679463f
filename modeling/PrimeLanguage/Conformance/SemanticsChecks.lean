import PrimeLanguage.Conformance.ReductionChecks

/-!
# Conformance of the meanings

Reduction and meaning agree on every sample, the pairs of the corpus have the expected verdicts, and
operational and denotational equivalence coincide on them.
-/

namespace PrimeLanguage

namespace Conformance

open Corpus

def agreementFinding (settings : SuiteSettings) (samples : List (Read Sample))
    (operator : OperatorKind) : Finding :=
  let semantics := (settings.engineFor operator).semantics
  let results := samples.map fun (s, t) => (s, semantics.agreement t)
  let agreed := results.filterMap fun (_, r) => r.toOption
  let steps := (agreed.map (·.outcome.steps)).foldl (· + ·) 0
  let failures := results.filterMap fun (s, r) =>
    match r with
    | .ok _ => none
    | .error e => some (failureLine operator s.name e)
  .ofFailures "semantics/agreement"
    s!"{operator}: {agreed.length} fixtures agree ({steps} evaluation steps)"
    s!"{operator}: reduction and denotation diverge" failures

/-- The agreement checks. -/
def semanticsReport (settings : SuiteSettings) : Except Fault Report := do
  let samples ← readSamples wellTyped
  return ⟨settings.operators.map (agreementFinding settings samples)⟩

/-- What is wrong with the verdict on a pair. -/
def verdictFault? (engine : Engine) : Pair × Term × Term → Option String
  | (p, left, right) =>
    match engine.equivalent left right with
    | .ok verdict =>
      if verdict = p.equivalent then none
      else some s!"{p.left} ~ {p.right}: got {verdict}, expected {p.equivalent}"
    | .error e => some s!"{p.left} ~ {p.right}: {e.message}"

/-- What is wrong when both equivalences are asked. -/
def coincidenceFault? (semantics : Semantics) (operator : OperatorKind) :
    Pair × Term × Term → Option String
  | (p, left, right) =>
    let verdicts : Except Error (Bool × Bool) := do
      let operational ← semantics.engine.equivalent left right
      let denotational ← semantics.equivalent left right
      return (operational, denotational)
    match verdicts with
    | .ok (o, d) =>
      if o = d then none
      else some s!"{operator}: {p.left} ~ {p.right}: operational {o}, denotational {d}"
    | .error e => some s!"{operator}: {p.left} ~ {p.right}: {e.message}"

/-- The equivalence checks. -/
def equivalenceReport (settings : SuiteSettings) : Except Fault Report := do
  let read ← readPairs pairs
  let engine := (settings.engineFor expectationOperator).engine
  let verdicts := Finding.ofFailures "semantics/equivalence"
    s!"{pairs.length} equivalence verdicts hold under {expectationOperator}"
    "unexpected equivalence verdicts" (read.filterMap (verdictFault? engine))
  return ⟨verdicts :: settings.operators.map fun operator =>
    .ofFailures "semantics/equivalence"
      s!"{operator}: operational and denotational equivalence coincide"
      s!"{operator}: equivalence notions disagree"
      (read.filterMap (coincidenceFault? (settings.engineFor operator).semantics operator))⟩

end Conformance

end PrimeLanguage
