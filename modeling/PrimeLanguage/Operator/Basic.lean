import PrimeLanguage.Error
import PrimeLanguage.Prime.Search

/-!
# Operators on primes

An `Operator` has a domain and computes a prime on it.  Adjectives act through
`Operator.combine`: it tries the adjective before the noun, then the noun before the adjective, and
outside the domain in both orders the larger prime wins.  Reduction and evaluation both go through
it.

* `Operator.ofResult` — an operator given by a domain and a partial result; every failure is an
  `operatorDomain` error that names the operator and its arguments;
* `ascendingPrimes` — the domain that operators share unless they choose another: two primes, the
  smaller one first.
-/

namespace PrimeLanguage

/-- A binary operation on primes. -/
structure Operator where
  name : String
  accepts : Nat → Nat → Bool
  apply : Nat → Nat → Except Error Prime

/-- Two primes, the smaller one first. -/
def ascendingPrimes (p q : Nat) : Bool :=
  p < q && isPrime p && isPrime q

/-- The prime that a number is, if it is one. -/
def Prime.at? (n : Nat) : Option Prime := (Prime.ofNat n).toOption

namespace Operator

/-- The operator that yields `result` on its domain and an error outside it, or where there is no
result. -/
def ofResult (name : String) (accepts : Nat → Nat → Bool) (result : Nat → Nat → Option Prime) :
    Operator where
  name := name
  accepts := accepts
  apply p q :=
    if accepts p q then
      match result p q with
      | some r => .ok r
      | none => .error (.operatorDomain name p q)
    else .error (.operatorDomain name p q)

end Operator

/-- In which order an adjective and a noun were combined. -/
inductive Orientation where
  | forward
  | swapped
  | fallback
  deriving DecidableEq, Repr

def Orientation.name : Orientation → String
  | .forward => "Forward"
  | .swapped => "Swapped"
  | .fallback => "Fallback"

/-- The noun that an adjective and a noun combine to, and how. -/
structure Combination where
  result : Prime
  orientation : Orientation
  deriving DecidableEq

/-- Lets the adjective `adj` act on the noun `noun`. -/
def Operator.combine (op : Operator) (adj noun : Prime) : Except Error Combination :=
  if op.accepts adj.val noun.val then
    (op.apply adj.val noun.val).map (⟨·, .forward⟩)
  else if op.accepts noun.val adj.val then
    (op.apply noun.val adj.val).map (⟨·, .swapped⟩)
  else .ok ⟨adj.larger noun, .fallback⟩

end PrimeLanguage
