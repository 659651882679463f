import PrimeLanguage.Term.Equality
import PrimeLanguage.Term.Parse
import PrimeLanguage.Typing.Basic
import PrimeLanguage.Lambda.Expr
import PrimeLanguage.Reduction.Rule

/-!
# Errors

`Error` lists what can go wrong: each constructor is a cause and carries what it is about.
`Error.message` is the wording.
-/

namespace PrimeLanguage

/-- Why a term has no meaning as a lambda expression. -/
inductive MeaningFault where
  | nounPosition
  | operatorPosition
  deriving DecidableEq, Repr

def MeaningFault.message : MeaningFault → String
  | .nounPosition => "chain noun position is not noun-typed"
  | .operatorPosition => "chain operator is not an adjective"

/-- What can go wrong. -/
inductive Error where
  /-- A number is refused at a place that asks for a prime. -/
  | invalidPrime (e : InvalidPrime)
  /-- The modulus of the modular operator is below two. -/
  | invalidModulus (value : Nat)
  /-- A term has another type than its place or its annotation asks for. -/
  | typeMismatch (expected actual : TyLabel) (term : Term)
  /-- An operator has no result on a pair of numbers. -/
  | operatorDomain (operator : String) (p q : Nat)
  /-- A fusion whose sum is not prime was to be reduced, typed or given a meaning. -/
  | illFormedFusion (f : Fusion)
  /-- A bound was used up; `last` is the last term reached. -/
  | nonTermination (bound : Nat) (last : Term)
  /-- A term has no meaning as a lambda expression. -/
  | noMeaning (term : Term) (fault : MeaningFault)
  /-- A reduction step did not decrease the termination measure. -/
  | measureViolation (step : Nat) (rule : Rule) (before after : Nat)
  /-- Two reductions of a term end differently. -/
  | confluenceViolation (term left right : Term)
  /-- The reduction of a term and its meaning disagree. -/
  | semanticDivergence (term operational : Term) (denotational : Expr)
  /-- A text is not a term. -/
  | parse (e : ParseError)
  deriving DecidableEq

def Error.message : Error → String
  | .invalidPrime e => e.message
  | .invalidModulus value => s!"invalid modulus {value}: must be at least 2"
  | .typeMismatch expected actual term =>
    s!"type mismatch in {term}: expected {expected}, found {actual}"
  | .operatorDomain operator p q => s!"operator {operator} is not defined on ({p}, {q})"
  | .illFormedFusion f =>
    let sum := clampWord (f.p.val + f.q.val + f.r.val)
    s!"ill-formed fusion FUSE({f.p},{f.q},{f.r}): sum {sum} is not prime"
  | .nonTermination bound last =>
    s!"reduction did not terminate within {bound} steps (last term: {last})"
  | .noMeaning term fault => s!"term {term} cannot be translated: {fault.message}"
  | .measureViolation step rule before after =>
    s!"measure did not decrease at step {step} ({rule}): {before} -> {after}"
  | .confluenceViolation term left right =>
    s!"reduction of {term} is not confluent: reaches {left} and {right}"
  | .semanticDivergence term operational denotational =>
    s!"semantics diverge for {term}: operational {operational}, denotational {denotational}"
  | .parse e => e.message

end PrimeLanguage
