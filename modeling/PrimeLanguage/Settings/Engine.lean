import PrimeLanguage.Settings.Value
import PrimeLanguage.Operator.Builtin
import PrimeLanguage.Semantics
import PrimeLanguage.Triad.Canonical

/-!
# Settings of the engine

`EngineSettings` collects every choice the language leaves open.  `EngineSettings.ofValue?` reads
them from a table, or from an array in the order of the fields: a missing entry takes its default,
an unknown key is refused except among the weights, and a value of another type or out of range is
refused.

`SuiteSettings` adds the operators that the conformance suite runs under.
-/

namespace PrimeLanguage

/-- Every choice for engine, evaluator and canonicalizer. -/
structure EngineSettings where
  operator : OperatorKind
  modulus : Modulus
  maxSteps : Nat
  evaluationSteps : Nat
  strategy : Strategy
  weights : Weights

/-- Reads weights; unknown keys are ignored. -/
def Weights.ofValue? (format : SettingsFormat) (v : Value) : Option Weights := do
  let es ← v.entries? format false ["balance", "smallness", "harmony"]
  let balance ← Value.field es "balance" Value.number? Weights.standard.balance
  let smallness ← Value.field es "smallness" Value.number? Weights.standard.smallness
  let harmony ← Value.field es "harmony" Value.number? Weights.standard.harmony
  return ⟨balance, smallness, harmony⟩

/-- Reads a modulus. -/
def Modulus.ofValue? (v : Value) : Option Modulus :=
  v.word?.bind fun n => (Modulus.ofNat n).toOption

namespace EngineSettings

def standard : EngineSettings where
  operator := .resonance
  modulus := .standard
  maxSteps := standardMaxSteps
  evaluationSteps := standardEvaluationSteps
  strategy := .leftmostFirst
  weights := .standard

/-- Reads engine settings. -/
def ofValue? (format : SettingsFormat) (v : Value) : Option EngineSettings := do
  let es ← v.entries? format true
    ["operator", "modulus", "max_steps", "eval_max_steps", "strategy", "weights"]
  let operator ← Value.field es "operator" (Value.choice? format OperatorKind.ofName?)
    standard.operator
  let modulus ← Value.field es "modulus" Modulus.ofValue? standard.modulus
  let maxSteps ← Value.field es "max_steps" Value.word? standard.maxSteps
  let evaluationSteps ← Value.field es "eval_max_steps" Value.word? standard.evaluationSteps
  let strategy ← Value.field es "strategy" (Value.choice? format Strategy.ofName?)
    standard.strategy
  let weights ← Value.field es "weights" (Weights.ofValue? format) standard.weights
  return ⟨operator, modulus, maxSteps, evaluationSteps, strategy, weights⟩

def buildOperator (s : EngineSettings) : Operator := s.operator.build s.modulus

def engine (s : EngineSettings) : Engine := ⟨s.buildOperator, s.maxSteps, s.strategy⟩

def semantics (s : EngineSettings) : Semantics := ⟨s.engine, s.evaluationSteps⟩

def evaluator (s : EngineSettings) : Evaluator := s.semantics.evaluator

def canonicalizer (s : EngineSettings) : Canonicalizer := .ofWeights s.weights

end EngineSettings

/-- Engine settings, and the operators a suite runs under. -/
structure SuiteSettings where
  engine : EngineSettings
  operators : List OperatorKind

namespace SuiteSettings

def standard : SuiteSettings := ⟨.standard, OperatorKind.all⟩

/-- Reads a list of operator names. -/
def operators? (format : SettingsFormat) : Value → Option (List OperatorKind)
  | .array vs => vs.mapM (Value.choice? format OperatorKind.ofName?)
  | _ => none

/-- Reads suite settings. -/
def ofValue? (format : SettingsFormat) (v : Value) : Option SuiteSettings := do
  let es ← v.entries? format true ["engine", "operators"]
  let engine ← Value.field es "engine" (EngineSettings.ofValue? format) standard.engine
  let operators ← Value.field es "operators" (operators? format) standard.operators
  return ⟨engine, operators⟩

/-- The engine settings with another operator. -/
def engineFor (s : SuiteSettings) (k : OperatorKind) : EngineSettings :=
  { s.engine with operator := k }

end SuiteSettings

end PrimeLanguage
