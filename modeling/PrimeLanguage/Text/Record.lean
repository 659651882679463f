import PrimeLanguage.Text.Quoted
import PrimeLanguage.Semantics

/-!
# Components described by their fields

One-line descriptions of an engine, an evaluator and the reader of meanings: the kind of component
and its fields by name, with names of operators in quotes.
-/

namespace PrimeLanguage

/-- A record with its fields. -/
def recordText (kind : String) (fields : List (String × String)) : String :=
  let parts := ", ".intercalate (fields.map fun (name, value) => s!"{name}: {value}")
  s!"{kind} \x7b {parts} \x7d"

/-- A strategy as the name of a variant. -/
def Strategy.variant : Strategy → String
  | .leftmostFirst => "LeftmostFirst"
  | .rightmostFirst => "RightmostFirst"

def Engine.describe (e : Engine) : String :=
  recordText "ReductionSystem"
    [("operator", quoted e.operator.name), ("max_steps", toString e.maxSteps),
      ("strategy", e.strategy.variant)]

def Evaluator.describe (e : Evaluator) : String :=
  recordText "LambdaEvaluator"
    [("operator", quoted e.operator.name), ("max_steps", toString e.maxSteps)]

/-- Describes how meanings are made: their primitives are named after the operator. -/
def Operator.describeMeanings (op : Operator) : String :=
  recordText "Translator" [("operator", quoted op.name)]

end PrimeLanguage
