import PrimeLanguage.Triad.Basic
import PrimeLanguage.Proofs.Prime.Search
import PrimeLanguage.Proofs.Results

/-!
# What the enumeration of triads lists

* `Triad.IsFor` — a triad of a number: odd components in ascending order that add up to it.

Principal result: `mem_enumerate_iff` — the enumeration lists the triads of a number and nothing
else.  What carries it is that the search for the next prime skips none (`lt_iff_of_nextPrimeAfter`),
so that a triad with a later component is listed by the rest of the search.
-/

namespace PrimeLanguage

/-! ## Primes -/

theorem eq_two_of_isPrime_even {n : Nat} (h : isPrime n = true) (heven : n % 2 = 0) : n = 2 := by
  simp only [isPrime, Bool.or_eq_true, Bool.and_eq_true, List.all_eq_true] at h
  rcases h with hsmall | ⟨⟨_, htrial⟩, _⟩
  · simp only [trialPrimes, List.contains_eq_mem, List.mem_cons, List.not_mem_nil, or_false,
      decide_eq_true_eq] at hsmall
    omega
  · have htwo := htrial 2 (by decide)
    simp [heven] at htwo

/-- The odd primes are those from three on. -/
theorem Prime.isOdd_iff (p : Prime) : p.isOdd = true ↔ 3 ≤ p.val := by
  have htwo := p.two_le
  simp only [Prime.isOdd, beq_iff_eq]
  constructor
  · intro hodd
    omega
  · intro hthree
    have heven := eq_two_of_isPrime_even p.accepted
    omega

namespace Triad

/-- The triad is one of `n`: odd components in ascending order that add up to `n`. -/
structure IsFor (n : Nat) (t : Triad) : Prop where
  odd : t.p.isOdd = true
  p_lt_q : t.p.val < t.q.val
  q_lt_r : t.q.val < t.r.val
  sum_eq : t.sum = n

variable {n : Nat} {t : Triad}

/-- The third component is what the first two leave. -/
theorem ofNat_rest_eq_some_iff {p q r : Prime} (h : p.val + q.val ≤ n) :
    (Prime.ofNat (n - p.val - q.val)).toOption = some r ↔ p.val + q.val + r.val = n := by
  rw [toOption_eq_some_iff]
  constructor
  · intro hr
    have hval := Prime.val_of_ofNat hr
    omega
  · intro hsum
    have hval : n - p.val - q.val = r.val := by omega
    rw [hval, Prime.ofNat_val]

/-- What a search lists from the next prime on, if every next prime lists what `C` says. -/
theorem mem_later_iff {q : Prime} {f : Prime → List Triad} {C : Prop}
    (h : ∀ q', nextPrimeAfter q.val = some q' → (t ∈ f q' ↔ q'.val ≤ t.q.val ∧ C)) :
    (t ∈ match _h : nextPrimeAfter q.val with | none => [] | some q' => f q') ↔
      q.val < t.q.val ∧ C := by
  split
  · next hnone => simp [not_lt_of_nextPrimeAfter_eq_none hnone t.q]
  · next q' hsome => rw [h q' hsome, lt_iff_of_nextPrimeAfter hsome t.q]

/-- The triads with the first component `p` whose second one is not below `q`. -/
theorem mem_withMiddle_iff {p q : Prime} :
    t ∈ withMiddle n p q ↔
      q.val ≤ t.q.val ∧ t.p = p ∧ t.q.val < t.r.val ∧ t.sum = n := by
  fun_induction withMiddle n p q with
  | case1 q hq later r hr ih =>
    have hlater : t ∈ later ↔ _ := mem_later_iff ih
    have hrest := (ofNat_rest_eq_some_iff (by omega)).1 hr
    rw [List.mem_cons, hlater, Nat.le_iff_lt_or_eq, or_and_right, or_comm]
    refine or_congr_right ⟨?_, ?_⟩
    · rintro rfl
      have hlast : q.val < r.val := by omega
      exact ⟨rfl, rfl, hlast, hrest⟩
    · rintro ⟨hmiddle, rfl, -, rfl⟩
      obtain rfl : q = t.q := Prime.ext hmiddle
      have hr : r = t.r := Prime.ext (by simp only [sum] at hrest; omega)
      rw [hr]
  | case2 q hq later hnone ih =>
    have hlater : t ∈ later ↔ _ := mem_later_iff ih
    rw [hlater, Nat.le_iff_lt_or_eq, or_and_right, iff_self_or]
    rintro ⟨hmiddle, rfl, -, hsum⟩
    obtain rfl : q = t.q := Prime.ext hmiddle
    have hrest := (ofNat_rest_eq_some_iff (by omega)).2 hsum
    rw [hnone] at hrest
    cases hrest
  | case3 q hq =>
    simp only [List.not_mem_nil, false_iff, sum]
    rintro ⟨hmiddle, rfl, hlast, hsum⟩
    omega

/-- The triads whose first component is not below `p`. -/
theorem mem_withFirst_iff {p : Prime} :
    t ∈ withFirst n p ↔
      p.val ≤ t.p.val ∧ t.p.val < t.q.val ∧ t.q.val < t.r.val ∧ t.sum = n := by
  fun_induction withFirst n p with
  | case1 p hp hnone =>
    simp only [List.not_mem_nil, false_iff]
    rintro ⟨hfirst, hmiddle, -⟩
    exact not_lt_of_nextPrimeAfter_eq_none hnone t.q (by omega)
  | case2 p hp q hsome ih =>
    rw [List.mem_append, mem_withMiddle_iff, ih, ← lt_iff_of_nextPrimeAfter hsome,
      ← lt_iff_of_nextPrimeAfter hsome, Nat.le_iff_lt_or_eq, or_and_right, or_comm]
    refine or_congr_right ⟨?_, ?_⟩
    · rintro ⟨hmiddle, rfl, hlast⟩
      exact ⟨rfl, hmiddle, hlast⟩
    · rintro ⟨hfirst, hmiddle, hlast⟩
      rw [hfirst]
      exact ⟨hmiddle, (Prime.ext hfirst).symm, hlast⟩
  | case3 p hp =>
    simp only [List.not_mem_nil, false_iff, sum]
    rintro ⟨hfirst, hmiddle, hlast, hsum⟩
    omega

/-- **The enumeration lists the triads of a number**, all of them and nothing else. -/
theorem mem_enumerate_iff : t ∈ enumerate n ↔ t.IsFor n := by
  rw [enumerate, mem_withFirst_iff]
  constructor
  · rintro ⟨hthree, hpq, hqr, hsum⟩
    exact ⟨t.p.isOdd_iff.2 hthree, hpq, hqr, hsum⟩
  · rintro ⟨hodd, hpq, hqr, hsum⟩
    exact ⟨t.p.isOdd_iff.1 hodd, hpq, hqr, hsum⟩

end Triad

end PrimeLanguage
