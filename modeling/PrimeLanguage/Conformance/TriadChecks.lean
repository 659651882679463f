import PrimeLanguage.Conformance.ReductionChecks

/-!
# Conformance of canonical triads

* some canonical triads under the standard weights are known;
* every triad of the primes checked adds up to its target in ascending order, and the canonical one
  is among them;
* canonical forms have the normal forms of the samples.
-/

namespace PrimeLanguage

namespace Conformance

open Corpus

/-- Targets with the components of their canonical triad under the standard weights. -/
def knownTriads : List (Nat × Option (Nat × Nat × Nat)) :=
  [(13, none), (19, some (3, 5, 11)), (23, some (5, 7, 11))]

/-- The components of a triad. -/
def tripleOf (t : Triad) : Nat × Nat × Nat := (t.p.val, t.q.val, t.r.val)

/-- A triple that may be missing, in a message. -/
def tripleText : Option (Nat × Nat × Nat) → String
  | none => "None"
  | some (p, q, r) => s!"Some(({p}, {q}, {r}))"

/-- Looks for faults one after the other, with one canonicalizer for all. -/
def faultsInTurn {α : Type} (fault? : Canonicalizer → α → Option String × Canonicalizer) :
    Canonicalizer → List α → List String × Canonicalizer
  | c, [] => ([], c)
  | c, x :: xs =>
    let (fault, c) := fault? c x
    let (faults, c) := faultsInTurn fault? c xs
    (fault.toList ++ faults, c)

/-- What is wrong with a known target. -/
def knownFault? (c : Canonicalizer) :
    Nat × Option (Nat × Nat × Nat) → Option String × Canonicalizer
  | (target, expected) =>
    match c.canonical target with
    | .error e => (some s!"{target}: {e.message}", c)
    | .ok (found, c) =>
      let found := found.map tripleOf
      if found = expected then (none, c)
      else (some s!"{target}: got {tripleText found}, expected {tripleText expected}", c)

def known : Finding :=
  let (faults, c) := faultsInTurn knownFault? (.ofWeights .standard) knownTriads
  let composite :=
    match c.canonical 21 with
    | .ok _ => ["21: composite target accepted"]
    | .error _ => []
  .ofFailures "canonical/known" "canonical triads match under default weights"
    "unexpected canonical triads" (faults ++ composite)

/-- The targets checked: the 6th through 60th primes. -/
def triadTargets : List Prime := (firstPrimes 60).drop 5

/-- What the triads of the targets add up to. -/
structure TriadTally where
  failures : List String
  decomposable : Nat
  canonicalizer : Canonicalizer

/-- What is wrong with the triads of a target. -/
def decompositionFaults (target : Prime) (ts : List Triad) : List String :=
  ts.filterMap fun t =>
    if t.sum = target.val && t.p.isOdd && decide (t.p < t.q) && decide (t.q < t.r) then none
    else some s!"{target}: bad decomposition {t}"

/-- Takes one more target into account. -/
def TriadTally.add (tally : TriadTally) (target : Prime) : TriadTally :=
  let found := do
    let (ts, c) ← tally.canonicalizer.triads target.val
    let (t, c) ← c.canonical target.val
    return (ts, t, c)
  match found with
  | .error e => { tally with failures := tally.failures ++ [s!"{target}: {e.message}"] }
  | .ok (ts, chosen, c) =>
    let failures := tally.failures ++ decompositionFaults target ts
    match chosen with
    | some t =>
      if ts.contains t then ⟨failures, tally.decomposable + 1, c⟩
      else
        ⟨failures ++ [s!"{target}: canonical {t} not among its triads"], tally.decomposable, c⟩
    | none =>
      if ts.isEmpty then ⟨failures, tally.decomposable, c⟩
      else
        ⟨failures ++ [s!"{target}: no canonical triad among {ts.length}"], tally.decomposable, c⟩

def structureFinding (settings : SuiteSettings) : Finding :=
  let tally := triadTargets.foldl TriadTally.add ⟨[], 0, settings.engine.canonicalizer⟩
  .ofFailures "canonical/triads"
    (s!"{triadTargets.length} targets checked, {tally.decomposable} decomposable, " ++
      s!"{tally.canonicalizer.cachedTargets} cached")
    "malformed triad decompositions" tally.failures

/-- What is wrong with the canonical form of a sample. -/
def preservationFault? (settings : SuiteSettings) (c : Canonicalizer) :
    Read Sample → Option String × Canonicalizer
  | (s, t) =>
    let engine := (settings.engineFor expectationOperator).engine
    match c.canonicalize t with
    | .error e => (some (failureLine expectationOperator s.name (.invalidPrime e)), c)
    | .ok (canonical, c) =>
      let outcome : Except Error (Term × Term) := do
        let before ← engine.evaluate t
        let after ← engine.evaluate canonical
        return (before, after)
      match outcome with
      | .ok (before, after) =>
        if before = after then (none, c)
        else (some s!"{s.name}: {before} became {after} after canonicalization", c)
      | .error e => (some (failureLine expectationOperator s.name e), c)

/-- The triad checks. -/
def canonicalReport (settings : SuiteSettings) : Except Fault Report := do
  let samples ← readSamples wellTyped
  let (faults, _) :=
    faultsInTurn (preservationFault? settings) settings.engine.canonicalizer samples
  return ⟨[known, structureFinding settings,
    .ofFailures "canonical/preservation"
      "canonicalization preserves every fixture's normal form"
      "canonicalization changed normal forms" faults]⟩

end Conformance

end PrimeLanguage
