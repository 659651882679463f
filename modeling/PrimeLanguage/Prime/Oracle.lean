import PrimeLanguage.Word

/-!
# The primality oracle

`isPrime` decides which words count as prime.  It is trial division by the primes up to 61,
followed for larger numbers by the strong probable prime test to twelve fixed bases.

* `modPow` — powers modulo `m` by repeated squaring, every product reduced as a double word;
* `twoFactor` — the decomposition `n = 2^s * d` with `d` odd;
* `strongProbablePrime` — one base of the strong test.
-/

namespace PrimeLanguage

/-- The primes below 64, used as trial divisors. -/
def trialPrimes : List Nat :=
  [2, 3, 5, 7, 11, 13, 17, 19, 23, 29, 31, 37, 41, 43, 47, 53, 59, 61]

/-- The bases of the strong test. -/
def strongBases : List Nat :=
  [2, 3, 5, 7, 11, 13, 17, 19, 23, 29, 31, 37]

/-- `b ^ e` modulo `m`, by repeated squaring. -/
def modPow (b e m : Nat) : Nat :=
  if e = 0 then 1
  else
    let half := modPow (mulMod b b m) (e / 2) m
    if e % 2 = 1 then mulMod half b m else half
termination_by e
decreasing_by omega

/-- `(s, d)` with `n = 2^s * d` and `d` odd, for positive `n`. -/
def twoFactor (n : Nat) : Nat × Nat :=
  if 0 < n ∧ n % 2 = 0 then
    let (s, d) := twoFactor (n / 2)
    (s + 1, d)
  else (0, n)
termination_by n
decreasing_by omega

/-- Whether one of `x, x^2, x^4, …` (`rounds` of them) is `-1` modulo `n`. -/
def reachesMinusOne (n : Nat) : (rounds x : Nat) → Bool
  | 0, _ => false
  | rounds + 1, x => x == n - 1 || reachesMinusOne n rounds (mulMod x x n)

/-- Whether `n` passes the strong test to base `a`. -/
def strongProbablePrime (n a : Nat) : Bool :=
  let (s, d) := twoFactor (n - 1)
  let x := modPow a d n
  x == 1 || reachesMinusOne n s x

/-- The oracle: which numbers the language takes for prime. -/
def isPrime (n : Nat) : Bool :=
  trialPrimes.contains n ||
    (2 ≤ n && trialPrimes.all (n % · ≠ 0) &&
      (n < 61 * 61 || strongBases.all (strongProbablePrime n)))

theorem isPrime_ge_two {n : Nat} (h : isPrime n = true) : 2 ≤ n := by
  simp only [isPrime, Bool.or_eq_true, Bool.and_eq_true, decide_eq_true_eq] at h
  rcases h with h | h
  · simp [trialPrimes] at h; omega
  · exact h.1.1

end PrimeLanguage
