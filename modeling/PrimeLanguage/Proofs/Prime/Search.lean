import Mathlib.Order.Bounds.Basic
import PrimeLanguage.Prime.Search

/-!
# What the search for a prime finds

* `acceptedFrom` — the accepted words from a number on;
* `nextPrime_eq_some_iff`, `nextPrime_eq_none_iff` — the search finds the least of them, or there is
  none;
* `nextPrime_eq_find?` — it looks at one word after the other and stops at the last one.

The search skips no prime (`exists_nextPrime`), so the next prime after a number is at or below every
prime above it (`lt_iff_of_nextPrimeAfter`).
-/

namespace PrimeLanguage

/-- The accepted words from `n` on. -/
def acceptedFrom (n : Nat) : Set Nat := {r | n ≤ r ∧ r < wordLimit ∧ isPrime r = true}

variable {n : Nat} {p : Prime}

theorem Prime.mem_acceptedFrom_iff (p : Prime) : p.val ∈ acceptedFrom n ↔ n ≤ p.val :=
  ⟨fun h => h.1, fun h => ⟨h, p.lt_wordLimit, p.accepted⟩⟩

theorem Prime.ne_of_val_lt {p q : Prime} (h : p.val < q.val) : p ≠ q := by
  rintro rfl
  exact Nat.lt_irrefl _ h

/-- Words below two are not accepted. -/
theorem acceptedFrom_max_two (n : Nat) : acceptedFrom (max 2 n) = acceptedFrom n := by
  ext r
  refine and_congr_left fun h => ?_
  have htwo : 2 ≤ r := isPrime_ge_two h.2
  omega

theorem acceptedFrom_eq_empty (h : wordLimit ≤ n) : acceptedFrom n = ∅ := by
  refine Set.eq_empty_of_forall_notMem fun r hr => ?_
  obtain ⟨hle, hlt, _⟩ := hr
  omega

/-- A search that starts at or below a prime ends at or below it. -/
theorem exists_nextPrime (q : Prime) (h : n ≤ q.val) :
    ∃ p, nextPrime n = some p ∧ p.val ≤ q.val := by
  fun_induction nextPrime n with
  | case1 n hn hp => exact ⟨_, rfl, h⟩
  | case2 n hn hp ih =>
    refine ih (Nat.lt_of_le_of_ne h fun he => hp ?_)
    rw [he]
    exact q.accepted
  | case3 n hn => exact absurd (Nat.lt_of_le_of_lt h q.lt_wordLimit) hn

/-- **The search finds the least accepted word.** -/
theorem nextPrime_eq_some_iff : nextPrime n = some p ↔ IsLeast (acceptedFrom n) p.val := by
  constructor
  · intro h
    refine ⟨p.mem_acceptedFrom_iff.2 (nextPrime_ge h), ?_⟩
    rintro r ⟨hle, hword, hacc⟩
    exact nextPrime_least h ⟨r, hword, hacc⟩ hle
  · rintro ⟨hmem, hleast⟩
    obtain ⟨q, hq, hqp⟩ := exists_nextPrime p hmem.1
    have hpq : p.val ≤ q.val := hleast (q.mem_acceptedFrom_iff.2 (nextPrime_ge hq))
    rw [hq, Prime.ext (Nat.le_antisymm hqp hpq)]

theorem nextPrime_eq_none_iff : nextPrime n = none ↔ acceptedFrom n = ∅ := by
  constructor
  · intro h
    refine Set.eq_empty_of_forall_notMem fun r ⟨hle, hword, hacc⟩ => ?_
    obtain ⟨p, hp, _⟩ := exists_nextPrime ⟨r, hword, hacc⟩ hle
    rw [h] at hp
    cases hp
  · intro h
    cases hp : nextPrime n with
    | none => rfl
    | some p =>
      have hmem : p.val ∈ acceptedFrom n := (nextPrime_eq_some_iff.1 hp).1
      rw [h] at hmem
      cases hmem

/-- The next prime after a number is at or below every prime above that number. -/
theorem lt_iff_of_nextPrimeAfter (h : nextPrimeAfter n = some p) (q : Prime) :
    n < q.val ↔ p.val ≤ q.val :=
  ⟨nextPrime_least h q, Nat.lt_of_lt_of_le (lt_of_nextPrimeAfter h)⟩

theorem not_lt_of_nextPrimeAfter_eq_none (h : nextPrimeAfter n = none) (q : Prime) :
    ¬ n < q.val := by
  intro hlt
  have hmem : q.val ∈ acceptedFrom (n + 1) := q.mem_acceptedFrom_iff.2 hlt
  rw [nextPrime_eq_none_iff.1 h] at hmem
  cases hmem

/-- **The search looks at the words in ascending order**, each of them once, and does not go on past
the last one. -/
theorem nextPrime_eq_find? (n : Nat) :
    (nextPrime n).map Prime.val = (List.range' n (wordLimit - n)).find? isPrime := by
  fun_induction nextPrime n with
  | case1 n hn hp =>
    have hrest : wordLimit - n = wordLimit - (n + 1) + 1 := by omega
    rw [hrest, List.range'_succ, List.find?_cons_of_pos hp, Option.map_some]
  | case2 n hn hp ih =>
    have hrest : wordLimit - n = wordLimit - (n + 1) + 1 := by omega
    rw [hrest, List.range'_succ, List.find?_cons_of_neg hp, ih]
  | case3 n hn =>
    have hrest : wordLimit - n = 0 := by omega
    rw [hrest, List.range'_zero, List.find?_nil, Option.map_none]

/-- Starting below two is starting at two. -/
theorem nextPrime_max_two (n : Nat) : nextPrime (max 2 n) = nextPrime n := by
  refine Option.ext fun p => ?_
  rw [nextPrime_eq_some_iff, nextPrime_eq_some_iff, acceptedFrom_max_two]

end PrimeLanguage
