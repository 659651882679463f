import PrimeLanguage.Conformance.Corpus
import PrimeLanguage.Conformance.Report
import PrimeLanguage.Reduction.Measure
import PrimeLanguage.Settings.Engine
import PrimeLanguage.Term.Equality

/-!
# Conformance of reduction

* normal forms are the expected ones;
* every step decreases the measure, and only fusions leave the size as it is; a trace that uses
  more than nine tenths of the step bound is worth a warning;
* both strategies reach the same terminal sentences.
-/

namespace PrimeLanguage

namespace Conformance

open Corpus

/-- The line for an error on a sample under an operator. -/
def failureLine (operator : OperatorKind) (name : String) (e : Error) : String :=
  s!"{operator}: {name}: {e.message}"

/-- What is wrong with the normal form of a sample. -/
def normalFormFault? (engine : Engine) : Read Sample → Option String
  | (s, t) =>
    match engine.evaluate t with
    | .ok n =>
      if n.signature = s.normalForm then none
      else some s!"{s.name}: reached {n}, expected {s.normalForm}"
    | .error e => some (failureLine expectationOperator s.name e)

def normalForms (settings : SuiteSettings) (samples : List (Read Sample)) : Finding :=
  let engine := (settings.engineFor expectationOperator).engine
  .ofFailures "reduction/normal-forms"
    s!"fixtures reach their expected normal forms under {expectationOperator}"
    s!"unexpected normal forms under {expectationOperator}"
    (samples.filterMap (normalFormFault? engine))

/-- What the traces of samples add up to. -/
structure MeasureTally where
  failures : List String
  warnings : List Finding
  steps : Nat
  plateaus : Nat

namespace MeasureTally

def empty : MeasureTally := ⟨[], [], 0, 0⟩

def add (a b : MeasureTally) : MeasureTally :=
  ⟨a.failures ++ b.failures, a.warnings ++ b.warnings, a.steps + b.steps,
    a.plateaus + b.plateaus⟩

end MeasureTally

/-- Whether a trace of `n` steps uses more than nine tenths of the bound. -/
def nearBound (n bound : Nat) : Bool := decide (9 * bound < 10 * n)

/-- The plateaus of a report that no fusion accounts for. -/
def plateauFaults (operator : OperatorKind) (name : String) (r : MeasureReport) : List String :=
  r.plateaus.filterMap fun i =>
    match r.samples[i]? with
    | some s =>
      if s.rule = .fuse then none
      else some s!"{operator}: {name}: {s.rule} step {i} did not shrink the term"
    | none => none

/-- What one sample contributes. -/
def tallySample (engine : Engine) (operator : OperatorKind) : Read Sample → MeasureTally
  | (s, t) =>
    match engine.measureReport t with
    | .error e => ⟨[failureLine operator s.name e], [], 0, 0⟩
    | .ok r =>
      let n := r.trace.steps.length
      let warnings :=
        if nearBound n engine.maxSteps then
          [Finding.warn "reduction/measure"
            s!"{operator}: {s.name} used {n} of {engine.maxSteps} steps"]
        else []
      ⟨plateauFaults operator s.name r, warnings, n, r.plateaus.length⟩

/-- The findings on the measure under an operator: warnings first. -/
def measureFindings (settings : SuiteSettings) (samples : List (Read Sample))
    (operator : OperatorKind) : List Finding :=
  let engine := (settings.engineFor operator).engine
  let tally := (samples.map (tallySample engine operator)).foldl MeasureTally.add .empty
  tally.warnings ++
    [.ofFailures "reduction/measure"
      (s!"{operator}: measure decreased on all {tally.steps} steps " ++
        s!"({tally.plateaus} FUSE plateaus)")
      s!"{operator}: termination measure violated" tally.failures]

/-- What is wrong when a sentence is reduced from either side. -/
def strategyFault? (engine : Engine) (operator : OperatorKind) : Read Sample → Option String
  | (s, t) =>
    let left := { engine with strategy := .leftmostFirst }.evaluate t
    let right := { engine with strategy := .rightmostFirst }.evaluate t
    match left, right with
    | .ok l, .ok r => if l = r then none else some s!"{operator}: {s.name}: {l} vs {r}"
    | .error e, _ => some (failureLine operator s.name e)
    | _, .error e => some (failureLine operator s.name e)

def strategies (settings : SuiteSettings) (samples : List (Read Sample))
    (operator : OperatorKind) : Finding :=
  let engine := (settings.engineFor operator).engine
  .ofFailures "reduction/strategies"
    s!"{operator}: both strategies reach the same terminal sentences"
    s!"{operator}: strategies disagree"
    (samples.filterMap (strategyFault? engine operator))

/-- The reduction checks. -/
def reductionReport (settings : SuiteSettings) : Except Fault Report := do
  let samples ← readSamples wellTyped
  let sentenceSamples ← readSamples sentences
  return ⟨normalForms settings samples :: settings.operators.flatMap fun operator =>
    measureFindings settings samples operator ++
      [strategies settings sentenceSamples operator]⟩

end Conformance

end PrimeLanguage
