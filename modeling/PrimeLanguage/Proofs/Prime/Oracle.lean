import Mathlib.FieldTheory.Finite.Basic
import Mathlib.Tactic.NormNum.Prime
import PrimeLanguage.Prime.Oracle

/-!
# Which words the oracle accepts

Trial division and the strong test, stated without the loops that compute them.

* `IsStrongProbablePrime` — the strong test, in the ring of residues;
* `modPow_eq`, `twoFactor_spec`, `reachesMinusOne_iff` — the three loops: powers are exact although
  every product is cut to a double word, the even part is taken off to the last factor of two, and
  as many squares are looked at as it has factors;
* `isPrime_iff` — what the oracle accepts.

A prime passes the strong test to every base that it does not divide: one has no other square roots
than itself and minus one modulo a prime (`isStrongProbablePrime_of_prime`).

Principal result: `isPrime_exact`.
-/

namespace PrimeLanguage

/-- `n` passes the strong test to base `a`: for `n - 1 = d * 2^s` with `d` odd, the power `a^d` is
one modulo `n`, or minus one is among it and its first squares, `s` numbers in all. -/
def IsStrongProbablePrime (n a : Nat) : Prop :=
  ∃ s d, d % 2 = 1 ∧ n - 1 = d * 2 ^ s ∧
    ((a : ZMod n) ^ d = 1 ∨ ∃ i < s, (a : ZMod n) ^ (d * 2 ^ i) = -1)

/-! ## The loops -/

section Loops

variable {n a b e m x : Nat}

/-- **Powers are exact**: no product is too large for a double word, and no residue for a word. -/
theorem modPow_eq (hb : b < wordLimit) (hm : 2 ≤ m) (hm' : m ≤ wordLimit) :
    modPow b e m = b ^ e % m := by
  have hpos : 0 < m := by omega
  have hword : ∀ k, k % m < wordLimit := fun k => Nat.lt_of_lt_of_le (Nat.mod_lt k hpos) hm'
  induction e using Nat.strong_induction_on generalizing b with
  | _ e ih =>
    unfold modPow
    split
    · rename_i hzero
      rw [hzero, Nat.pow_zero, Nat.mod_eq_of_lt hm]
    · rename_i hne
      have hhalf : modPow (mulMod b b m) (e / 2) m = (b * b) ^ (e / 2) % m := by
        rw [mulMod_eq hb hb hpos hm', ih (e / 2) (by omega) (hword _), ← Nat.pow_mod]
      simp only [hhalf]
      split
      · rename_i hodd
        have hexp : e = 2 * (e / 2) + 1 := by omega
        rw [mulMod_eq (hword _) hb hpos hm', Nat.mod_mul_mod]
        conv_rhs => rw [hexp, pow_succ, pow_mul, pow_two]
      · rename_i heven
        have hexp : e = 2 * (e / 2) := by omega
        conv_rhs => rw [hexp, pow_mul, pow_two]

theorem twoFactor_spec (hn : 0 < n) :
    n = (twoFactor n).2 * 2 ^ (twoFactor n).1 ∧ (twoFactor n).2 % 2 = 1 := by
  fun_induction twoFactor n with
  | case1 n h s d hhalf ih =>
    rw [hhalf] at ih
    obtain ⟨heq, hodd⟩ := ih (by omega)
    have htwice : d * 2 ^ (s + 1) = d * 2 ^ s * 2 := by rw [pow_succ, Nat.mul_assoc]
    refine ⟨?_, hodd⟩
    change n / 2 = d * 2 ^ s at heq
    change n = d * 2 ^ (s + 1)
    omega
  | case2 n h => exact ⟨by simp, by omega⟩

/-- There is one way to write a number as an odd number times a power of two. -/
theorem twoFactor_mul_two_pow {s d : Nat} (hodd : d % 2 = 1) : twoFactor (d * 2 ^ s) = (s, d) := by
  induction s with
  | zero =>
    unfold twoFactor
    rw [Nat.pow_zero, Nat.mul_one, if_neg (by omega)]
  | succ s ih =>
    have htwice : d * 2 ^ (s + 1) = d * 2 ^ s * 2 := by rw [pow_succ, Nat.mul_assoc]
    have hpos : 0 < d * 2 ^ s := Nat.mul_pos (by omega) (Nat.two_pow_pos s)
    unfold twoFactor
    rw [htwice, if_pos (by omega), Nat.mul_div_cancel _ (by decide), ih]

/-- The squaring loop looks at `rounds` numbers. -/
theorem reachesMinusOne_iff {rounds : Nat} (hn : n ≤ wordLimit) (hx : x < n) :
    reachesMinusOne n rounds x = true ↔ ∃ i < rounds, x ^ 2 ^ i % n = n - 1 := by
  induction rounds generalizing x with
  | zero => simp [reachesMinusOne]
  | succ rounds ih =>
    have hpos : 0 < n := by omega
    have hword : x < wordLimit := by omega
    have hlater : reachesMinusOne n rounds (mulMod x x n) = true ↔
        ∃ i < rounds, x ^ 2 ^ (i + 1) % n = n - 1 := by
      rw [mulMod_eq hword hword hpos hn, ih (Nat.mod_lt _ hpos)]
      refine exists_congr fun i => and_congr_right fun _ => ?_
      rw [← Nat.pow_mod, ← pow_two, ← pow_mul, pow_succ']
    simp only [reachesMinusOne, Bool.or_eq_true, beq_iff_eq, hlater]
    constructor
    · rintro (hfirst | ⟨i, hi, hsquare⟩)
      · exact ⟨0, Nat.succ_pos _, by simpa [Nat.mod_eq_of_lt hx] using hfirst⟩
      · exact ⟨i + 1, Nat.succ_lt_succ hi, hsquare⟩
    · rintro ⟨i, hi, hsquare⟩
      cases i with
      | zero => exact Or.inl (by simpa [Nat.mod_eq_of_lt hx] using hsquare)
      | succ i => exact Or.inr ⟨i, Nat.lt_of_succ_lt_succ hi, hsquare⟩

end Loops

/-! ## The strong test -/

section StrongTest

variable {n a : Nat}

theorem natCast_pow_eq_one_iff (hn : 2 ≤ n) (k : Nat) :
    (a : ZMod n) ^ k = 1 ↔ a ^ k % n = 1 := by
  rw [← Nat.cast_pow, ← Nat.cast_one, ZMod.natCast_eq_natCast_iff', Nat.mod_eq_of_lt hn]

theorem natCast_pow_eq_neg_one_iff (hn : 2 ≤ n) (k : Nat) :
    (a : ZMod n) ^ k = -1 ↔ a ^ k % n = n - 1 := by
  have hneg : ((n - 1 : Nat) : ZMod n) = -1 := by
    rw [Nat.cast_sub (by omega), ZMod.natCast_self, Nat.cast_one, zero_sub]
  have hlt : n - 1 < n := by omega
  rw [← hneg, ← Nat.cast_pow, ZMod.natCast_eq_natCast_iff', Nat.mod_eq_of_lt hlt]

/-- The loops of the strong test look at the power and its squares. -/
theorem strongProbablePrime_of_eq {s d : Nat} (hn : 2 ≤ n) (hn' : n ≤ wordLimit)
    (ha : a < wordLimit) (hodd : d % 2 = 1) (heq : n - 1 = d * 2 ^ s) :
    strongProbablePrime n a = true ↔
      (a : ZMod n) ^ d = 1 ∨ ∃ i < s, (a : ZMod n) ^ (d * 2 ^ i) = -1 := by
  have hlt : a ^ d % n < n := Nat.mod_lt _ (by omega)
  have hsquare : ∀ i, (a ^ d % n) ^ 2 ^ i % n = a ^ (d * 2 ^ i) % n := by
    intro i
    rw [← Nat.pow_mod, ← pow_mul]
  unfold strongProbablePrime
  simp only [heq, twoFactor_mul_two_pow hodd, modPow_eq ha hn hn', Bool.or_eq_true, beq_iff_eq,
    reachesMinusOne_iff hn' hlt, hsquare, natCast_pow_eq_one_iff hn, natCast_pow_eq_neg_one_iff hn]

/-- **The strong test is computed** as it is stated. -/
theorem strongProbablePrime_iff (hn : 2 ≤ n) (hn' : n ≤ wordLimit) (ha : a < wordLimit) :
    strongProbablePrime n a = true ↔ IsStrongProbablePrime n a := by
  constructor
  · intro h
    obtain ⟨heq, hodd⟩ := twoFactor_spec (n := n - 1) (by omega)
    exact ⟨_, _, hodd, heq, (strongProbablePrime_of_eq hn hn' ha hodd heq).1 h⟩
  · rintro ⟨s, d, hodd, heq, h⟩
    exact (strongProbablePrime_of_eq hn hn' ha hodd heq).2 h

/-- Where one has no other square roots than itself and minus one, minus one comes before the first
one in the squares of a number that lead to one. -/
theorem pow_eq_one_or_eq_neg_one {F : Type*} [Field F] {x : F} {d s : Nat}
    (h : x ^ (d * 2 ^ s) = 1) : x ^ d = 1 ∨ ∃ i < s, x ^ (d * 2 ^ i) = -1 := by
  induction s with
  | zero => exact Or.inl (by simpa using h)
  | succ s ih =>
    have hroot : x ^ (d * 2 ^ s) * x ^ (d * 2 ^ s) = 1 := by
      rw [← h, ← pow_add, pow_succ]
      congr 1
      ring
    rcases mul_self_eq_one_iff.1 hroot with hone | hneg
    · refine (ih hone).imp_right ?_
      rintro ⟨i, hi, hx⟩
      exact ⟨i, Nat.lt_succ_of_lt hi, hx⟩
    · exact Or.inr ⟨s, Nat.lt_succ_self s, hneg⟩

/-- **Primes pass the strong test** to every base that they do not divide. -/
theorem isStrongProbablePrime_of_prime (hn : n.Prime) (ha : ¬ n ∣ a) :
    IsStrongProbablePrime n a := by
  have : Fact n.Prime := ⟨hn⟩
  have htwo := hn.two_le
  obtain ⟨heq, hodd⟩ := twoFactor_spec (n := n - 1) (by omega)
  have hne : (a : ZMod n) ≠ 0 := fun h => ha ((ZMod.natCast_eq_zero_iff a n).1 h)
  have hfermat : (a : ZMod n) ^ (n - 1) = 1 := ZMod.pow_card_sub_one_eq_one hne
  rw [heq] at hfermat
  exact ⟨_, _, hodd, heq, pow_eq_one_or_eq_neg_one hfermat⟩

end StrongTest

/-! ## The oracle -/

section Oracle

variable {n p a : Nat}

theorem mem_trialPrimes_iff : p ∈ trialPrimes ↔ p.Prime ∧ p ≤ 61 := by
  constructor
  · intro hp
    have hall : ∀ q ∈ trialPrimes, q.Prime ∧ q ≤ 61 := by decide
    exact hall p hp
  · rintro ⟨hp, hle⟩
    have hall : ∀ q ≤ 61, q.Prime → q ∈ trialPrimes := by decide
    exact hall p hle hp

theorem mem_strongBases_iff : a ∈ strongBases ↔ a.Prime ∧ a ≤ 37 := by
  constructor
  · intro ha
    have hall : ∀ b ∈ strongBases, b.Prime ∧ b ≤ 37 := by decide
    exact hall a ha
  · rintro ⟨ha, hle⟩
    have hall : ∀ b ≤ 37, b.Prime → b ∈ strongBases := by decide
    exact hall a hle ha

/-- **What the oracle accepts**: the primes up to 61, and the words without such a divisor that are
small or pass the strong test to twelve bases. -/
theorem isPrime_iff (hn : n < wordLimit) :
    isPrime n = true ↔
      n.Prime ∧ n ≤ 61 ∨
      2 ≤ n ∧ (∀ p, p.Prime → p ≤ 61 → ¬ p ∣ n) ∧
        (n < 3721 ∨ ∀ a, a.Prime → a ≤ 37 → IsStrongProbablePrime n a) := by
  have hsmall : trialPrimes.contains n = true ↔ n.Prime ∧ n ≤ 61 := by
    rw [List.contains_iff_mem, mem_trialPrimes_iff]
  have htrial : trialPrimes.all (n % · ≠ 0) = true ↔ ∀ p, p.Prime → p ≤ 61 → ¬ p ∣ n := by
    simp only [List.all_eq_true, decide_eq_true_eq, mem_trialPrimes_iff, and_imp,
      Nat.dvd_iff_mod_eq_zero, ne_eq]
  have hstrong : 2 ≤ n → (strongBases.all (strongProbablePrime n) = true ↔
      ∀ a, a.Prime → a ≤ 37 → IsStrongProbablePrime n a) := by
    intro htwo
    simp only [List.all_eq_true, mem_strongBases_iff, and_imp]
    refine forall_congr' fun a => imp_congr_right fun _ => imp_congr_right fun hle => ?_
    exact strongProbablePrime_iff htwo (Nat.le_of_lt hn) (Nat.lt_of_le_of_lt hle (by decide))
  simp only [isPrime, Bool.or_eq_true, Bool.and_eq_true, hsmall, htrial, decide_eq_true_eq,
    and_assoc]
  exact or_congr_right (and_congr_right fun htwo => and_congr_right fun _ =>
    or_congr_right (hstrong htwo))

/-- **Every prime is accepted.** -/
theorem isPrime_of_prime (hn : n.Prime) (hlt : n < wordLimit) : isPrime n = true := by
  rw [isPrime_iff hlt]
  by_cases hle : n ≤ 61
  · exact Or.inl ⟨hn, hle⟩
  · refine Or.inr ⟨hn.two_le, ?_, Or.inr ?_⟩
    · intro p hp hp61 hdvd
      have heq := (Nat.prime_dvd_prime_iff_eq hp hn).1 hdvd
      omega
    · intro a ha ha37
      refine isStrongProbablePrime_of_prime hn fun hdvd => ?_
      have hle' := Nat.le_of_dvd ha.pos hdvd
      omega

/-- A multiple of a trial divisor is not accepted. -/
theorem isPrime_eq_false_of_dvd (hn : n < wordLimit) (hp : p.Prime) (hle : p ≤ 61) (hdvd : p ∣ n)
    (hne : p ≠ n) : isPrime n = false := by
  rw [Bool.eq_false_iff, Ne, isPrime_iff hn]
  rintro (⟨hprime, _⟩ | ⟨_, htrial, _⟩)
  · exact hne ((Nat.prime_dvd_prime_iff_eq hp hprime).1 hdvd)
  · exact htrial p hp hle hdvd

/-- Below the square of the largest trial divisor nothing but primes is accepted. -/
theorem prime_of_isPrime (hlt : n < 3721) (h : isPrime n = true) : n.Prime := by
  by_contra hn
  have htwo : 2 ≤ n := isPrime_ge_two h
  have hfactor : n.minFac.Prime := Nat.minFac_prime (by omega)
  have hsq : n.minFac ^ 2 ≤ n := Nat.minFac_sq_le_self (by omega) hn
  have hle : n.minFac ≤ 61 := by nlinarith
  have hne : n.minFac ≠ n := fun heq => hn (heq ▸ hfactor)
  have hword : n < wordLimit := Nat.lt_trans hlt (by decide)
  rw [isPrime_eq_false_of_dvd hword hfactor hle n.minFac_dvd hne] at h
  cases h

/-- **The oracle never rejects a prime.**  A word is accepted exactly if it is one of the primes up
to 61, or has no divisor among them and lies below 3721 or passes the strong test to the twelve
primes up to 37.  The products and powers modulo the word are exact, although they are computed with
words and double words.  So all primes are accepted, and among the composite numbers every one with a
prime factor up to 61, or below 3721, is rejected. -/
theorem isPrime_exact (n : Nat) (hn : n < wordLimit) :
    (isPrime n = true ↔
      n.Prime ∧ n ≤ 61 ∨
      2 ≤ n ∧ (∀ p, p.Prime → p ≤ 61 → ¬ p ∣ n) ∧
        (n < 3721 ∨ ∀ a, a.Prime → a ≤ 37 → IsStrongProbablePrime n a)) ∧
    (2 ≤ n → ∀ a b, a < wordLimit → b < wordLimit →
      mulMod a b n = a * b % n ∧ ∀ e, modPow b e n = b ^ e % n) ∧
    (n.Prime → isPrime n = true) ∧
    (∀ p, p.Prime → p ≤ 61 → p ∣ n → p ≠ n → isPrime n = false) ∧
    (n < 3721 → ¬ n.Prime → isPrime n = false) := by
  refine ⟨isPrime_iff hn, ?_, fun hprime => isPrime_of_prime hprime hn, ?_, ?_⟩
  · intro htwo a b ha hb
    have hpos : 0 < n := by omega
    exact ⟨mulMod_eq ha hb hpos (Nat.le_of_lt hn), fun e => modPow_eq hb htwo (Nat.le_of_lt hn)⟩
  · intro p hp hle hdvd hne
    exact isPrime_eq_false_of_dvd hn hp hle hdvd hne
  · intro hlt hcomposite
    rw [Bool.eq_false_iff]
    exact fun h => hcomposite (prime_of_isPrime hlt h)

/-- A prime beyond the trial divisors; the largest word, which is a multiple of three, with the
square of its predecessor; and a product of two trial divisors. -/
theorem isPrime_exact_words :
    isPrime 7919 = true ∧ isPrime 18446744073709551615 = false ∧
    mulMod 18446744073709551614 18446744073709551614 18446744073709551615 = 1 ∧
    isPrime 3599 = false := by
  have hlast := isPrime_exact 18446744073709551615 (by decide)
  refine ⟨?_, ?_, ?_, ?_⟩
  · exact (isPrime_exact 7919 (by decide)).2.2.1 (by norm_num)
  · exact hlast.2.2.2.1 3 (by norm_num) (by decide) (by decide) (by decide)
  · exact (hlast.2.1 (by decide) _ _ (by decide) (by decide)).1
  · exact (isPrime_exact 3599 (by decide)).2.2.2.2 (by decide) (by norm_num)

end Oracle

end PrimeLanguage
