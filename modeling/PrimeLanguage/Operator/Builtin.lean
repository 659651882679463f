import PrimeLanguage.Operator.Basic
import PrimeLanguage.Operator.Modulus

/-!
# The built-in operators

| Name | `p ⊕ q` | Domain |
|------|---------|--------|
| `resonance` | the prime nearest to `round (q · ln q / ln p)` | ascending primes |
| `next-prime` | the least prime at or above `p + q` | ascending primes |
| `modular` | the least prime at or above `(p · q) mod m` | ascending primes |
| `identity` | `q` | all pairs of primes |

The search of `resonance` looks at `target + k` and `target - k` for `k` below `resonanceRadius`,
and takes the next prime above `q` when it finds nothing.
-/

namespace PrimeLanguage

namespace Operator

def nextSum : Operator :=
  .ofResult "next-prime" ascendingPrimes fun p q => (checkedAdd q p).bind nextPrime

def modular (m : Modulus) : Operator :=
  .ofResult "modular" ascendingPrimes fun p q => nextPrime (mulMod p q m.val)

def identity : Operator :=
  .ofResult "identity" (fun p q => isPrime p && isPrime q) fun _ q => Prime.at? q

/-- Offsets from the target below this are searched. -/
def resonanceRadius : Nat := 1000

/-- The first prime among `target + k, target - k` for the `count` offsets from `k` on. -/
def nearestFrom (target : Nat) : (count k : Nat) → Option Prime
  | 0, _ => none
  | count + 1, k =>
    match Prime.at? (target + k) with
    | some p => some p
    | none =>
      match if k ≤ target then Prime.at? (target - k) else none with
      | some p => some p
      | none => nearestFrom target count (k + 1)

/-- The prime nearest to `target` within the search radius; the larger one on a tie. -/
def nearestPrime? (target : Nat) : Option Prime :=
  nearestFrom target resonanceRadius 0

/-- `round (q · ln q / ln p)`, if it is a word. -/
def resonanceTarget? (p q : Nat) : Option Nat :=
  let a := p.toUInt64.toFloat
  let b := q.toUInt64.toFloat
  let target := (b * b.log / a.log).round
  if target.isFinite && 0.0 ≤ target && target < 18446744073709551616.0 then
    some target.toUInt64.toNat
  else none

/-- The resonance operator over any way to choose a target. -/
def resonanceAt (target? : Nat → Nat → Option Nat) : Operator :=
  .ofResult "resonance" ascendingPrimes fun p q =>
    ((target? p q).bind nearestPrime?).or (nextPrimeAfter q)

def resonance : Operator := resonanceAt resonanceTarget?

end Operator

/-- The built-in operators by kind. -/
inductive OperatorKind where
  | resonance
  | nextPrime
  | modular
  | identity
  deriving DecidableEq, Repr

namespace OperatorKind

def all : List OperatorKind := [.resonance, .nextPrime, .modular, .identity]

def name : OperatorKind → String
  | .resonance => "resonance"
  | .nextPrime => "next-prime"
  | .modular => "modular"
  | .identity => "identity"

instance : ToString OperatorKind := ⟨name⟩

/-- The kind of that name. -/
def ofName? (s : String) : Option OperatorKind := all.find? (·.name == s)

/-- Reads a kind; the error is the message to show. -/
def read (s : String) : Except String OperatorKind :=
  match ofName? s with
  | some k => .ok k
  | none =>
    .error s!"unknown operator '{s}' (expected resonance, next-prime, modular, or identity)"

/-- The operator of a kind; only the modular one uses the modulus. -/
def build (k : OperatorKind) (m : Modulus) : Operator :=
  match k with
  | .resonance => .resonance
  | .nextPrime => .nextSum
  | .modular => .modular m
  | .identity => .identity

theorem name_build (k : OperatorKind) (m : Modulus) : (k.build m).name = k.name := by
  cases k <;> rfl

theorem ofName?_name (k : OperatorKind) : ofName? k.name = some k := by
  cases k <;> decide

theorem name_injective {k k' : OperatorKind} (h : k.name = k'.name) : k = k' := by
  have hread := congrArg ofName? h
  rw [ofName?_name, ofName?_name] at hread
  exact Option.some.inj hread

end OperatorKind

end PrimeLanguage
