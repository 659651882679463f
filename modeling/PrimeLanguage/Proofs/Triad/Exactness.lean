import PrimeLanguage.Proofs.Triad.Canonical

/-!
# The enumeration of triads in machine words

The enumeration is written over natural numbers.  Here it is once more as two loops over words: sums
and products stay at the largest word when they do not fit, a search that finds no further prime
goes on at the largest word, and a difference that would be negative is no result.

* `Triad.Before` — the lexicographic order of triads;
* `clampWord_sum_lt_iff`, `clampWord_triple_lt_iff` — a bound that is a word compares alike with the
  clamped numbers and with the true ones, which is why clamping is harmless;
* `Triad.middleLoop`, `Triad.firstLoop` — the loops; that they end is part of their definition.

`wordTriads_eq` says that the loops find what the enumeration does and that no difference is
negative.  Principal result: `triads_exact`.
-/

namespace PrimeLanguage

/-! ## Word arithmetic -/

/-- The difference of two words, if it is a word. -/
def checkedSub (a b : Nat) : Option Nat :=
  if b ≤ a then some (a - b) else none

theorem checkedSub_of_le {a b : Nat} (h : b ≤ a) : checkedSub a b = some (a - b) :=
  if_pos h

/-- The largest word. -/
def lastWord : Nat := wordLimit - 1

/-- The next prime after a word, or the largest word when no prime is left. -/
def nextPrimeOrLast (n : Nat) : Nat :=
  match nextPrimeAfter n with
  | some p => p.val
  | none => lastWord

theorem lt_nextPrimeOrLast {n : Nat} (h : n < lastWord) : n < nextPrimeOrLast n := by
  unfold nextPrimeOrLast
  split
  · next p hp => exact lt_of_nextPrimeAfter hp
  · exact h

/-- A word that bounds the clamped number bounds the number. -/
theorem clampWord_lt_iff {n bound : Nat} (h : bound < wordLimit) :
    clampWord n < bound ↔ n < bound := by
  unfold clampWord
  constructor
  · intro hlt
    have : ¬ wordLimit - 1 < bound := by omega
    omega
  · intro hlt
    omega

theorem clampWord_triple_lt_iff {p bound : Nat} (h : bound < wordLimit) :
    clampWord (p * 3) < bound ↔ 3 * p < bound := by
  rw [clampWord_lt_iff h, Nat.mul_comm]

theorem clampWord_sum_lt_iff {p q bound : Nat} (h : bound < wordLimit) :
    clampWord (p + clampWord (q * 2)) < bound ↔ p + 2 * q < bound := by
  rw [clampWord_lt_iff h]
  unfold clampWord
  constructor
  · intro hlt
    have : q * 2 < wordLimit := by omega
    omega
  · intro hlt
    omega

namespace Triad

variable {n : Nat} {t u : Triad} {target p q : Prime}

/-! ## The order of the enumeration -/

/-- The lexicographic order of triads. -/
def Before (t u : Triad) : Prop :=
  t.p.val < u.p.val ∨ t.p.val = u.p.val ∧
    (t.q.val < u.q.val ∨ t.q.val = u.q.val ∧ t.r.val < u.r.val)

theorem Before.irrefl (t : Triad) : ¬ t.Before t := by
  unfold Before
  omega

/-- What holds of every search from a next prime on, and of no triads, holds of the later triads. -/
theorem later_induction {P : List Triad → Prop} {f : Prime → List Triad} (nil : P [])
    (next : ∀ q', nextPrimeAfter q.val = some q' → P (f q')) :
    P (match _h : nextPrimeAfter q.val with | none => [] | some q' => f q') := by
  split
  · exact nil
  · next q' hq' => exact next q' hq'

/-- With one first component the second ones ascend. -/
theorem pairwise_withMiddle : (withMiddle n p q).Pairwise Before := by
  fun_induction withMiddle n p q with
  | case1 q hq later r hr ih =>
    refine List.pairwise_cons.2 ⟨fun t ht => ?_, later_induction .nil ih⟩
    obtain ⟨hlt, rfl, -⟩ := (mem_later_iff fun q' _ => mem_withMiddle_iff).1 ht
    exact .inr ⟨rfl, .inl hlt⟩
  | case2 q hq later hnone ih => exact later_induction .nil ih
  | case3 q hq => exact .nil

theorem pairwise_withFirst : (withFirst n p).Pairwise Before := by
  fun_induction withFirst n p with
  | case1 p hp hnone => exact .nil
  | case2 p hp q hsome ih =>
    refine List.pairwise_append.2 ⟨pairwise_withMiddle, ih, ?_⟩
    intro t ht u hu
    obtain ⟨-, rfl, -⟩ := mem_withMiddle_iff.1 ht
    have hlater : q.val ≤ u.p.val := (mem_withFirst_iff.1 hu).1
    exact .inl (Nat.lt_of_lt_of_le (lt_of_nextPrimeAfter hsome) hlater)
  | case3 p hp => exact .nil

/-- **The enumeration ascends.** -/
theorem pairwise_enumerate (n : Nat) : (enumerate n).Pairwise Before := pairwise_withFirst

theorem nodup_enumerate (n : Nat) : (enumerate n).Nodup := by
  refine (pairwise_enumerate n).imp ?_
  rintro t _ h rfl
  exact h.irrefl

/-! ## The loops over words -/

/-- The triad of three numbers, if all are prime. -/
def ofNats? (p q r : Nat) : Option Triad :=
  match Prime.ofNat p, Prime.ofNat q, Prime.ofNat r with
  | .ok p, .ok q, .ok r => some ⟨p, q, r⟩
  | _, _, _ => none

/-- The triads of the target that begin with `p` and have a middle component from `q` on; nothing at
all once a difference is negative. -/
def middleLoop (target : Prime) (p q : Nat) : Option (List Triad) :=
  if _h : clampWord (p + clampWord (q * 2)) < target.val then do
    let rest ← checkedSub target.val p
    let r ← checkedSub rest q
    let later ← middleLoop target p (nextPrimeOrLast q)
    return if isPrime r then (ofNats? p q r).toList ++ later else later
  else some []
termination_by lastWord - q
decreasing_by
  have hlast : q < lastWord := by
    have := (clampWord_sum_lt_iff target.lt_wordLimit).1 _h
    have := target.lt_wordLimit
    unfold lastWord
    omega
  have := lt_nextPrimeOrLast hlast
  omega

/-- The triads of the target with a first component from `p` on. -/
def firstLoop (target : Prime) (p : Nat) : Option (List Triad) :=
  if _h : clampWord (p * 3) < target.val then do
    let found ← middleLoop target p (nextPrimeOrLast p)
    let later ← firstLoop target (nextPrimeOrLast p)
    return found ++ later
  else some []
termination_by lastWord - p
decreasing_by
  have hlast : p < lastWord := by
    have := (clampWord_triple_lt_iff target.lt_wordLimit).1 _h
    have := target.lt_wordLimit
    unfold lastWord
    omega
  have := lt_nextPrimeOrLast hlast
  omega

/-- The triads of the target as the loops find them. -/
def wordTriads (target : Prime) : Option (List Triad) := firstLoop target 3

theorem ofNats?_val (p q r : Prime) : ofNats? p.val q.val r.val = some ⟨p, q, r⟩ := by
  simp only [ofNats?, Prime.ofNat_val]

/-! ## What the loops find -/

section Loops

variable {a b : Nat}

/-- Below the bound no difference is negative: what is left for the third component is a word. -/
theorem middleLoop_of_lt (h : a + 2 * b < target.val) :
    middleLoop target a b = (middleLoop target a (nextPrimeOrLast b)).map fun later =>
      if isPrime (target.val - a - b) then (ofNats? a b (target.val - a - b)).toList ++ later
      else later := by
  rw [middleLoop, dif_pos ((clampWord_sum_lt_iff target.lt_wordLimit).2 h)]
  simp only [Option.bind_eq_bind, checkedSub_of_le (show a ≤ target.val by omega),
    checkedSub_of_le (show b ≤ target.val - a by omega), Option.bind_some]
  cases middleLoop target a (nextPrimeOrLast b) <;> rfl

theorem middleLoop_of_not_lt (h : ¬ a + 2 * b < target.val) : middleLoop target a b = some [] := by
  rw [middleLoop, dif_neg (mt (clampWord_sum_lt_iff target.lt_wordLimit).1 h)]

theorem firstLoop_of_lt (h : 3 * a < target.val) :
    firstLoop target a = (middleLoop target a (nextPrimeOrLast a)).bind fun found =>
      (firstLoop target (nextPrimeOrLast a)).map (found ++ ·) := by
  rw [firstLoop, dif_pos ((clampWord_triple_lt_iff target.lt_wordLimit).2 h)]
  cases middleLoop target a (nextPrimeOrLast a) with
  | none => rfl
  | some found => cases firstLoop target (nextPrimeOrLast a) <;> rfl

theorem firstLoop_of_not_lt (h : ¬ 3 * a < target.val) : firstLoop target a = some [] := by
  rw [firstLoop, dif_neg (mt (clampWord_triple_lt_iff target.lt_wordLimit).1 h)]

/-- The largest word ends both loops, so no search goes on from it. -/
theorem loops_lastWord (target : Prime) (a : Nat) :
    middleLoop target a lastWord = some [] ∧ firstLoop target lastWord = some [] := by
  have hword := target.lt_wordLimit
  have hlast : target.val ≤ lastWord := by
    unfold lastWord
    omega
  exact ⟨middleLoop_of_not_lt (by omega), firstLoop_of_not_lt (by omega)⟩

end Loops

/-- A loop that goes on at the next prime, or ends at the largest word, finds the later triads. -/
theorem loop_nextPrimeOrLast {loop : Nat → Option (List Triad)} {f : Prime → List Triad}
    (last : loop lastWord = some [])
    (next : ∀ q', nextPrimeAfter q.val = some q' → loop q'.val = some (f q')) :
    loop (nextPrimeOrLast q.val) =
      some (match _h : nextPrimeAfter q.val with | none => [] | some q' => f q') := by
  split
  · next hnone =>
    simp only [nextPrimeOrLast, hnone]
    exact last
  · next q' hq' =>
    simp only [nextPrimeOrLast, hq']
    exact next q' hq'

theorem middleLoop_eq : middleLoop target p.val q.val = some (withMiddle target.val p q) := by
  fun_induction withMiddle target.val p q with
  | case1 q hq later r hr ih =>
    have hlater : middleLoop target p.val (nextPrimeOrLast q.val) = some later :=
      loop_nextPrimeOrLast (loops_lastWord target p.val).1 ih
    have hrest : target.val - p.val - q.val = r.val :=
      (Prime.val_of_ofNat (toOption_eq_some_iff.1 hr)).symm
    rw [middleLoop_of_lt hq, hlater, hrest, ofNats?_val]
    simp [r.accepted]
  | case2 q hq later hnone ih =>
    have hlater : middleLoop target p.val (nextPrimeOrLast q.val) = some later :=
      loop_nextPrimeOrLast (loops_lastWord target p.val).1 ih
    have hrefused : ¬ isPrime (target.val - p.val - q.val) = true := by
      intro haccepted
      have hword : target.val - p.val - q.val < wordLimit := by
        have := target.lt_wordLimit
        omega
      simp [Prime.ofNat, hword, haccepted, Except.toOption] at hnone
    rw [middleLoop_of_lt hq, hlater, Option.map_some, if_neg hrefused]
  | case3 q hq => exact middleLoop_of_not_lt hq

theorem firstLoop_eq : firstLoop target p.val = some (withFirst target.val p) := by
  fun_induction withFirst target.val p with
  | case1 p hp hnone =>
    have hnext : nextPrimeOrLast p.val = lastWord := by simp only [nextPrimeOrLast, hnone]
    obtain ⟨hmiddle, hfirst⟩ := loops_lastWord target p.val
    rw [firstLoop_of_lt hp, hnext, hmiddle, hfirst]
    rfl
  | case2 p hp q hsome ih =>
    have hnext : nextPrimeOrLast p.val = q.val := by simp only [nextPrimeOrLast, hsome]
    rw [firstLoop_of_lt hp, hnext, middleLoop_eq, ih]
    rfl
  | case3 p hp => exact firstLoop_of_not_lt hp

/-- **The loops over words find what the enumeration does**, and no difference is negative. -/
theorem wordTriads_eq (target : Prime) : wordTriads target = some (enumerate target.val) :=
  firstLoop_eq (p := .three)

/-! ## Numbers and fusions -/

/-- The components as numbers. -/
def numbers (t : Triad) : Nat × Nat × Nat := (t.p.val, t.q.val, t.r.val)

/-- All components of a triad of a number are odd, since the least one is. -/
theorem IsFor.odd_components (h : t.IsFor n) : ∀ p ∈ [t.p, t.q, t.r], p.val % 2 = 1 := by
  have hp : 3 ≤ t.p.val := t.p.isOdd_iff.1 h.odd
  have hpq := h.p_lt_q
  have hqr := h.q_lt_r
  intro p hp'
  have hthree : 3 ≤ p.val := by
    simp only [List.mem_cons, List.not_mem_nil, or_false] at hp'
    rcases hp' with rfl | rfl | rfl <;> omega
  simpa [Prime.isOdd] using p.isOdd_iff.2 hthree

/-- The numbers of the enumerated triads are the ascending odd primes with the sum. -/
theorem mem_numbers_enumerate_iff {a b c : Nat} :
    (a, b, c) ∈ (enumerate target.val).map numbers ↔
      (∀ m ∈ [a, b, c], isPrime m = true ∧ m % 2 = 1) ∧ a < b ∧ b < c ∧
        a + b + c = target.val := by
  rw [List.mem_map]
  constructor
  · rintro ⟨t, ht, heq⟩
    obtain ⟨rfl, rfl, rfl⟩ : t.p.val = a ∧ t.q.val = b ∧ t.r.val = c := by
      simpa [numbers] using heq
    have hfor := mem_enumerate_iff.1 ht
    refine ⟨?_, hfor.p_lt_q, hfor.q_lt_r, hfor.sum_eq⟩
    intro m hm
    obtain ⟨p, hp, rfl⟩ : ∃ p ∈ [t.p, t.q, t.r], p.val = m := List.mem_map.1 hm
    exact ⟨p.accepted, hfor.odd_components p hp⟩
  · rintro ⟨hprime, hab, hbc, hsum⟩
    have hword := target.lt_wordLimit
    obtain ⟨⟨ha, hodd⟩, ⟨hb, -⟩, ⟨hc, -⟩, -⟩ := by
      simpa only [List.forall_mem_cons] using hprime
    refine ⟨⟨.ofAccepted a ⟨by omega, ha⟩, .ofAccepted b ⟨by omega, hb⟩,
      .ofAccepted c ⟨by omega, hc⟩⟩, mem_enumerate_iff.2 ⟨?_, hab, hbc, hsum⟩, rfl⟩
    exact beq_iff_eq.2 hodd

/-- An enumerated triad is a fusion to the target. -/
theorem IsFor.fused (h : t.IsFor target.val) :
    ∃ f, t.toTerm = .ok (.fusion f) ∧ f.fused? = some target := by
  obtain ⟨f, hf, hp, hq, hr⟩ := h.ofNats
  refine ⟨f, ?_, ?_⟩
  · rw [toTerm, Term.fuse, hf]
    rfl
  · rw [Fusion.fused?_eq_some, hp, hq, hr]
    exact h.sum_eq.symm

end Triad

/-- **The enumeration of triads is exact.**  Asked for a prime, a canonicalizer answers with triads
in strictly ascending lexicographic order, which are the odd primes in ascending order with that
sum, each once, and each a fusion to the target.  The loops over words find these triads and no
others: no difference is negative, and a clamped sum or product passes its bound exactly when the
true one does. -/
theorem triads_exact (w : Weights) (c : Canonicalizer) (hc : Canonicalizer.Reached w c)
    (target : Prime) :
    ∃ ts c', c.triads target.val = .ok (ts, c') ∧
      ts.Pairwise Triad.Before ∧ ts.Nodup ∧
      (∀ a b d : Nat, (a, b, d) ∈ ts.map Triad.numbers ↔
        (∀ m ∈ [a, b, d], isPrime m = true ∧ m % 2 = 1) ∧ a < b ∧ b < d ∧
          a + b + d = target.val) ∧
      (∀ t ∈ ts, ∃ f, t.toTerm = .ok (.fusion f) ∧ f.fused? = some target) ∧
      Triad.wordTriads target = some ts ∧
      ∀ p q : Nat, (clampWord (p * 3) < target.val ↔ 3 * p < target.val) ∧
        (clampWord (p + clampWord (q * 2)) < target.val ↔ p + 2 * q < target.val) := by
  obtain ⟨c', hcall, -⟩ := hc.faithful.triads target
  refine ⟨_, c', hcall, Triad.pairwise_enumerate _, Triad.nodup_enumerate _,
    fun a b d => Triad.mem_numbers_enumerate_iff, ?_, Triad.wordTriads_eq target, fun p q => ?_⟩
  · intro t ht
    exact (Triad.mem_enumerate_iff.1 ht).fused
  · exact ⟨clampWord_triple_lt_iff target.lt_wordLimit, clampWord_sum_lt_iff target.lt_wordLimit⟩

open OverlappingRedexes in
/-- The triads of 23, asked for after those of 13, of which there are none. -/
theorem triads_exact_23 :
    ∃ c, Canonicalizer.Reached .standard c ∧
      ∃ ts c', c.triads p23.val = .ok (ts, c') ∧ (5, 7, 11) ∈ ts.map Triad.numbers ∧
        (3, 9, 11) ∉ ts.map Triad.numbers ∧ Triad.wordTriads p23 = some ts := by
  obtain ⟨_, c, hused, _⟩ := triads_exact .standard (.ofWeights .standard) .new p13
  have hc : Canonicalizer.Reached .standard c := .triads .new hused
  obtain ⟨ts, c', hcall, _, _, hmem, _, hloops, _⟩ := triads_exact .standard c hc p23
  refine ⟨c, hc, ts, c', hcall, (hmem 5 7 11).2 (by decide), fun h => ?_, hloops⟩
  exact absurd ((hmem 3 9 11).1 h) (by decide)

end PrimeLanguage
