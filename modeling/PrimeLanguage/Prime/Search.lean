import PrimeLanguage.Prime.Basic

/-!
# Searching for primes

* `nextPrime n` — the least prime at or above `n`, if it is a word;
* `nextPrimeAfter n` — the least prime above `n`, if it is a word;
* `PrimeTable` — the primes in ascending order, enumerated as far as they were asked for.

`nextPrime_ge` and `nextPrime_least` say that the search skips no prime.
-/

namespace PrimeLanguage

/-- The least prime at or above `n`, if it is a word. -/
def nextPrime (n : Nat) : Option Prime :=
  if h : n < wordLimit then
    if hp : isPrime n = true then some ⟨n, h, hp⟩ else nextPrime (n + 1)
  else none
termination_by wordLimit - n
decreasing_by omega

/-- The least prime above `n`, if it is a word. -/
def nextPrimeAfter (n : Nat) : Option Prime :=
  nextPrime (n + 1)

theorem nextPrime_ge {n : Nat} {p : Prime} (h : nextPrime n = some p) : n ≤ p.val := by
  fun_induction nextPrime n with
  | case1 n hn hp => cases h; exact Nat.le_refl _
  | case2 n hn hp ih => have := ih h; omega
  | case3 => simp at h

theorem nextPrime_least {n : Nat} {p : Prime} (h : nextPrime n = some p) (q : Prime)
    (hq : n ≤ q.val) : p.val ≤ q.val := by
  fun_induction nextPrime n with
  | case1 n hn hp => cases h; exact hq
  | case2 n hn hp ih =>
    refine ih h (Nat.lt_of_le_of_ne hq fun he => hp ?_)
    rw [he]; exact q.accepted
  | case3 => simp at h

theorem lt_of_nextPrimeAfter {n : Nat} {p : Prime} (h : nextPrimeAfter n = some p) : n < p.val :=
  nextPrime_ge h

/-- The primes enumerated so far, in ascending order. -/
structure PrimeTable where
  primes : Array Prime

namespace PrimeTable

def empty : PrimeTable := ⟨#[]⟩

/-- Where the enumeration goes on. -/
def resume (t : PrimeTable) : Nat :=
  match t.primes.back? with
  | some p => p.val + 1
  | none => 2

/-- Enumerates until the table has `k` primes, or no word is left. -/
def extend (k : Nat) (t : PrimeTable) : PrimeTable :=
  if t.primes.size < k then
    match nextPrime t.resume with
    | some p => extend k ⟨t.primes.push p⟩
    | none => t
  else t
termination_by k - t.primes.size
decreasing_by simp; omega

/-- The first `k` primes, and the table as it stands after they were asked for. -/
def first (k : Nat) (t : PrimeTable) : List Prime × PrimeTable :=
  let t := t.extend k
  (t.primes.toList.take k, t)

end PrimeTable

/-- The first `k` primes in ascending order. -/
def firstPrimes (k : Nat) : List Prime :=
  (PrimeTable.empty.first k).1

end PrimeLanguage
