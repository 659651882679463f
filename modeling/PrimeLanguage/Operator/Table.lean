import PrimeLanguage.Operator.Basic

/-!
# Operators given by their user

* `Operator.larger` — the larger of two ascending primes;
* `Operator.ofTable` — an operator given by rows: its domain is the set of listed pairs, whatever
  their numbers are, and the first row of a pair decides.  A row without a result lies in the
  domain but has no value, and a result that is no prime is refused as such.
-/

namespace PrimeLanguage

/-- One row of an operator table. -/
structure OperatorRow where
  p : Nat
  q : Nat
  result : Option Nat

namespace Operator

def larger : Operator :=
  .ofResult "max" ascendingPrimes fun _ q => Prime.at? q

/-- The first row for a pair. -/
def row? (rows : List OperatorRow) (p q : Nat) : Option OperatorRow :=
  rows.find? fun row => row.p == p && row.q == q

def ofTable (name : String) (rows : List OperatorRow) : Operator where
  name := name
  accepts p q := (row? rows p q).isSome
  apply p q :=
    match (row? rows p q).bind (·.result) with
    | some r => (Prime.ofNat r).mapError .invalidPrime
    | none => .error (.operatorDomain name p q)

end Operator

end PrimeLanguage
