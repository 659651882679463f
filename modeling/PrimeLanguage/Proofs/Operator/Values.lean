import PrimeLanguage.Proofs.Operator.Refusal
import PrimeLanguage.Proofs.Prime.Search

/-!
# The values of the integer operators

What the operators compute on words, in unbounded arithmetic.

* `Operator.Computes` — the values that an operator has on a pair of numbers; without one it answers
  with a domain error that names the operator and the pair;
* `computes_ofResult` — operators that are given by a result.

Principal result: `integer_operators_exact`.
-/

namespace PrimeLanguage

theorem ascendingPrimes_iff {p q : Nat} :
    ascendingPrimes p q = true ↔ p < q ∧ isPrime p = true ∧ isPrime q = true := by
  simp [ascendingPrimes, and_assoc]

namespace Operator

/-- On `p` and `q` the operator yields a prime exactly if it is one of the values; where there is
none, the error says that the operator of that name is not defined on `p` and `q`. -/
structure Computes (op : Operator) (name : String) (p q : Nat) (value : Nat → Prop) : Prop where
  apply_eq_ok_iff : ∀ r : Prime, op.apply p q = .ok r ↔ value r.val
  apply_eq_error : (∀ r : Prime, ¬ value r.val) → op.apply p q = .error (.operatorDomain name p q)

variable {p q : Nat}

theorem computes_ofResult {name : String} {accepts : Nat → Nat → Bool}
    {result : Nat → Nat → Option Prime} {value : Nat → Prop}
    (h : ∀ r : Prime, accepts p q = true ∧ result p q = some r ↔ value r.val) :
    (ofResult name accepts result).Computes name p q value := by
  have hok : ∀ r : Prime, (ofResult name accepts result).apply p q = .ok r ↔ value r.val := by
    intro r
    rw [← h r]
    cases hacc : accepts p q <;> cases hres : result p q <;> simp [ofResult, hacc, hres]
  refine ⟨hok, fun hnone => ?_⟩
  cases happly : (ofResult name accepts result).apply p q with
  | ok r => exact absurd ((hok r).1 happly) (hnone r)
  | error err => rw [error_of_ofResult happly]

/-- The least prime at or above the sum; a sum that is no word has none. -/
theorem computes_nextSum (p q : Nat) :
    nextSum.Computes "next-prime" p q fun r =>
      (p < q ∧ isPrime p = true ∧ isPrime q = true) ∧ IsLeast (acceptedFrom (p + q)) r := by
  refine computes_ofResult fun r => ?_
  rw [ascendingPrimes_iff, Nat.add_comm p q]
  refine and_congr_right fun _ => ?_
  simp only [Option.bind_eq_some_iff, checkedAdd_eq_some, nextPrime_eq_some_iff]
  constructor
  · rintro ⟨_, ⟨rfl, _⟩, hr⟩
    exact hr
  · intro hr
    have hword : q + p < wordLimit := Nat.lt_of_le_of_lt hr.1.1 r.lt_wordLimit
    exact ⟨q + p, ⟨rfl, hword⟩, hr⟩

/-- The least prime at or above the residue of the product. -/
theorem computes_modular (m : Modulus) (hp : p < wordLimit) (hq : q < wordLimit) :
    (modular m).Computes "modular" p q fun r =>
      (p < q ∧ isPrime p = true ∧ isPrime q = true) ∧
        IsLeast (acceptedFrom (max 2 (p * q % m.val))) r := by
  have hpos : 0 < m.val := Nat.lt_of_lt_of_le (by decide) m.two_le
  have hresidue : mulMod p q m.val = p * q % m.val :=
    mulMod_eq hp hq hpos (Nat.le_of_lt m.lt_wordLimit)
  refine computes_ofResult fun r => ?_
  rw [ascendingPrimes_iff, nextPrime_eq_some_iff, hresidue, acceptedFrom_max_two]

theorem computes_identity (p q : Nat) :
    identity.Computes "identity" p q fun r =>
      (isPrime p = true ∧ isPrime q = true) ∧ r = q := by
  refine computes_ofResult fun r => ?_
  rw [Bool.and_eq_true, Prime.at?_eq_some_iff]

/-- **The integer operators compute their definitions on all words.**  On primes in ascending order
`next-prime` yields the least prime word at or above the sum, and `modular` the least one at or above
two and the residue of the product; `identity` yields the second of any two primes.  In all other
cases the error names the operator and both words, also where the sum is too large or no larger prime
is a word.  The search behind the first two looks at the words from two or the number on, in ascending
order and none of them twice, until one is accepted or none is left. -/
theorem integer_operators_exact (m : Modulus) (p q : Nat) (hp : p < wordLimit)
    (hq : q < wordLimit) :
    nextSum.Computes "next-prime" p q (fun r =>
      (p < q ∧ isPrime p = true ∧ isPrime q = true) ∧ IsLeast (acceptedFrom (p + q)) r) ∧
    (modular m).Computes "modular" p q (fun r =>
      (p < q ∧ isPrime p = true ∧ isPrime q = true) ∧
        IsLeast (acceptedFrom (max 2 (p * q % m.val))) r) ∧
    identity.Computes "identity" p q (fun r =>
      (isPrime p = true ∧ isPrime q = true) ∧ r = q) ∧
    ∀ n, (nextPrime n).map Prime.val =
      (List.range' (max 2 n) (wordLimit - max 2 n)).find? isPrime := by
  refine ⟨computes_nextSum p q, computes_modular m hp hq, computes_identity p q, fun n => ?_⟩
  rw [← nextPrime_eq_find?, nextPrime_max_two]

/-- At the last prime sum and product are no words.  Three times it ends in one, but the same product
cut to a word ends in nine. -/
theorem integer_operators_exact_overflow :
    nextSum.apply 18446744073709551533 18446744073709551557 =
      .error (.operatorDomain "next-prime" 18446744073709551533 18446744073709551557) ∧
    (∃ r, (modular ⟨10, by decide, by decide⟩).apply 3 18446744073709551557 = .ok r ∧
      r.val = 2) ∧
    ∃ r, identity.apply 18446744073709551557 3 = .ok r ∧ r.val = 3 := by
  have hlast : isPrime 18446744073709551557 = true := by decide +kernel
  obtain ⟨hsum, _⟩ := integer_operators_exact .standard 18446744073709551533 18446744073709551557
    (by decide) (by decide)
  obtain ⟨_, hmod, _⟩ := integer_operators_exact ⟨10, by decide, by decide⟩ 3 18446744073709551557
    (by decide) (by decide)
  obtain ⟨_, _, hid, _⟩ := integer_operators_exact .standard 18446744073709551557 3 (by decide)
    (by decide)
  refine ⟨hsum.apply_eq_error fun r hr => ?_, ?_, ?_⟩
  · have hnone := acceptedFrom_eq_empty (n := 18446744073709551533 + 18446744073709551557)
      (by decide)
    rw [hnone] at hr
    exact hr.2.1
  · let r : Prime := .ofAccepted 2 (by decide)
    refine ⟨r, (hmod.apply_eq_ok_iff r).2 ⟨⟨by decide, by decide, hlast⟩, ?_⟩, rfl⟩
    refine ⟨r.mem_acceptedFrom_iff.2 (by decide), fun k hk => ?_⟩
    exact isPrime_ge_two hk.2.2
  · exact ⟨.three, (hid.apply_eq_ok_iff .three).2 ⟨⟨hlast, by decide⟩, rfl⟩, rfl⟩

end Operator

end PrimeLanguage
