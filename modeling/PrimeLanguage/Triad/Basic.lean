import PrimeLanguage.Prime.Search
import PrimeLanguage.Term.Basic

/-!
# Triads

A triad of a number `n` is a triple of odd primes `p < q < r` with sum `n`.  `Triad.enumerate n`
lists the triads of `n` in lexicographic order: for every `p` with `3p < n` and every later prime
`q` with `p + 2q < n` it asks whether what is left is prime.

The type itself does not ask for order or distinctness, so that any triple can be scored and
offered as a fusion.
-/

namespace PrimeLanguage

/-- Three primes. -/
structure Triad where
  p : Prime
  q : Prime
  r : Prime
  deriving DecidableEq

namespace Triad

def sum (t : Triad) : Nat := t.p.val + t.q.val + t.r.val

def text (t : Triad) : String := s!"({t.p},{t.q},{t.r})"

instance : ToString Triad := ⟨text⟩

/-- The triad as a fusion. -/
def toTerm (t : Triad) : Except InvalidPrime Term := Term.fuse t.p.val t.q.val t.r.val

/-- The triads of `n` that begin with `p` and have a middle component from `q` on. -/
def withMiddle (n : Nat) (p q : Prime) : List Triad :=
  if p.val + 2 * q.val < n then
    let later :=
      match _h : nextPrimeAfter q.val with
      | none => []
      | some q' => withMiddle n p q'
    match (Prime.ofNat (n - p.val - q.val)).toOption with
    | some r => ⟨p, q, r⟩ :: later
    | none => later
  else []
termination_by n - q.val
decreasing_by
  have := lt_of_nextPrimeAfter _h
  omega

/-- The triads of `n` with a first component from `p` on. -/
def withFirst (n : Nat) (p : Prime) : List Triad :=
  if 3 * p.val < n then
    match _h : nextPrimeAfter p.val with
    | none => []
    | some q => withMiddle n p q ++ withFirst n q
  else []
termination_by n - p.val
decreasing_by
  have := lt_of_nextPrimeAfter _h
  omega

/-- The triads of `n` in lexicographic order. -/
def enumerate (n : Nat) : List Triad := withFirst n .three

end Triad

end PrimeLanguage
