import Mathlib.NumberTheory.Bertrand
import PrimeLanguage.Proofs.Operator.Refusal
import PrimeLanguage.Proofs.Prime.Oracle
import PrimeLanguage.Proofs.Prime.Search
import PrimeLanguage.Proofs.Reduction.Progress
import PrimeLanguage.Proofs.Typing.Derivation

/-!
# How fast operators grow

The oracle accepts every prime, so there is an accepted one between a number and its double.
Operators that look for the next prime at or above a sum or a product therefore find one that is at
most twice the product of their arguments.

* `Operator.AtMostDoubles` — the operator succeeds on small primes, with at most twice their
  product;
* `Term.heft` — what a typed term evaluates to under such operators at most.

Principal result: `HasType.evaluates` — typed terms of little heft evaluate under every operator
that at most doubles.
-/

namespace PrimeLanguage

/-! ## Small primes -/

/-- Below this the trial divisors decide. -/
def trialLimit : Nat := 61 * 61

/-- Between a small number and its double there is an accepted prime. -/
theorem exists_nextPrime_le_double {n k : Nat} (hn : n ≤ k) (hk : 0 < k)
    (hlt : 2 * k < trialLimit) : ∃ p, nextPrime n = some p ∧ p.val ≤ 2 * k := by
  obtain ⟨b, hb, hkb, hbk⟩ := Nat.exists_prime_lt_and_le_two_mul k (Nat.ne_of_gt hk)
  have hword : b < wordLimit := Nat.lt_trans (Nat.lt_of_le_of_lt hbk hlt) (by decide)
  obtain ⟨p, hp, hle⟩ := exists_nextPrime (.ofAccepted b ⟨hword, isPrime_of_prime hb hword⟩)
    (Nat.le_trans hn (Nat.le_of_lt hkb))
  exact ⟨p, hp, Nat.le_trans hle hbk⟩

/-! ## Operators -/

namespace Operator

/-- Small primes combine, to at most twice their product. -/
def AtMostDoubles (op : Operator) : Prop :=
  ∀ p q : Prime, 2 * (p.val * q.val) < trialLimit →
    ∃ c, op.combine p q = .ok c ∧ c.result.val ≤ 2 * (p.val * q.val)

/-- It is enough that the result is at most twice the product, in whatever order the operator takes
its arguments. -/
theorem atMostDoubles_ofResult {name : String} {accepts : Nat → Nat → Bool}
    {result : Nat → Nat → Option Prime}
    (h : ∀ p q : Prime, 2 * (p.val * q.val) < trialLimit →
      ∃ r, result p.val q.val = some r ∧ r.val ≤ 2 * (p.val * q.val)) :
    (ofResult name accepts result).AtMostDoubles := by
  have happly : ∀ p q : Prime, (ofResult name accepts result).accepts p.val q.val = true →
      2 * (p.val * q.val) < trialLimit →
      ∃ r, (ofResult name accepts result).apply p.val q.val = .ok r ∧
        r.val ≤ 2 * (p.val * q.val) := by
    intro p q hacc hlt
    obtain ⟨r, hr, hle⟩ := h p q hlt
    refine ⟨r, ?_, hle⟩
    simp only [ofResult] at hacc ⊢
    rw [if_pos hacc, hr]
  intro p q hlt
  by_cases hpq : (ofResult name accepts result).accepts p.val q.val = true
  · obtain ⟨r, hr, hle⟩ := happly p q hpq hlt
    exact ⟨⟨r, .forward⟩, by rw [combine, if_pos hpq, hr]; rfl, hle⟩
  · by_cases hqp : (ofResult name accepts result).accepts q.val p.val = true
    · rw [Nat.mul_comm p.val] at hlt ⊢
      obtain ⟨r, hr, hle⟩ := happly q p hqp hlt
      exact ⟨⟨r, .swapped⟩, by rw [combine, if_neg hpq, if_pos hqp, hr]; rfl, hle⟩
    · refine ⟨⟨p.larger q, .fallback⟩, by rw [combine, if_neg hpq, if_neg hqp], ?_⟩
      have hp := p.two_le
      have hq := q.two_le
      simp only [Prime.larger]
      split <;> nlinarith

/-- **Next prime, modular and identity at most double**, whatever the modulus is. -/
theorem build_atMostDoubles {k : OperatorKind} (hk : k ≠ .resonance) (m : Modulus) :
    (k.build m).AtMostDoubles := by
  have hpos : ∀ p q : Prime, 0 < p.val * q.val := fun p q =>
    Nat.mul_pos (Nat.lt_of_lt_of_le (by decide) p.two_le)
      (Nat.lt_of_lt_of_le (by decide) q.two_le)
  cases k with
  | resonance => exact absurd rfl hk
  | nextPrime =>
    refine atMostDoubles_ofResult fun p q hlt => ?_
    have hsum : q.val + p.val ≤ p.val * q.val :=
      Nat.add_comm q.val p.val ▸ Nat.add_le_mul p.two_le q.two_le
    have hword : q.val + p.val < wordLimit := by
      simp only [trialLimit, wordLimit] at hlt ⊢
      omega
    rw [checkedAdd_eq_some.2 ⟨rfl, hword⟩]
    exact exists_nextPrime_le_double hsum (hpos p q) hlt
  | modular =>
    exact atMostDoubles_ofResult fun p q hlt =>
      exists_nextPrime_le_double (mulMod_le _ _ _) (hpos p q) hlt
  | identity =>
    refine atMostDoubles_ofResult fun p q _ => ⟨q, at?_val q, ?_⟩
    have hp := p.two_le
    nlinarith

end Operator

/-! ## Terms -/

namespace Term

/-- By how much an operator of a chain multiplies a noun at most. -/
def factor : Term → Nat
  | .adj p => 2 * p.val
  | _ => 1

/-- What a typed term evaluates to at most, in a sentence the largest noun. -/
def heft : Term → Nat
  | .noun q => q.val
  | .adj _ => 0
  | .chain o os e => ((o :: os).map factor).prod * e.heft
  | .fusion f => f.p.val + f.q.val + f.r.val
  | .sentence e => e.heft
  | .join _ l r => max l.heft r.heft

theorem prod_factor_pos (os : List Term) : 0 < (os.map factor).prod := by
  refine List.prod_pos fun n hn => ?_
  obtain ⟨o, _, rfl⟩ := List.mem_map.1 hn
  cases o with
  | adj p => exact Nat.mul_pos (by decide) (Nat.lt_of_lt_of_le (by decide) p.two_le)
  | noun | chain | fusion | sentence | join => exact Nat.one_pos

end Term

namespace Operator

variable {op : Operator}

/-- Adjectives act on a noun, each of them at most doubling. -/
theorem AtMostDoubles.exists_bigStepOperators (hop : op.AtMostDoubles) {os : List Term}
    (hos : ∀ o ∈ os, ∃ p, o = .adj p) {q : Prime}
    (hlt : (os.map Term.factor).prod * q.val < trialLimit) :
    ∃ r, op.bigStepOperators os q = .ok r ∧ r.result.val ≤ (os.map Term.factor).prod * q.val := by
  induction os generalizing q with
  | nil => exact ⟨_, rfl, by simp⟩
  | cons o os ih =>
    obtain ⟨⟨p, rfl⟩, hrest⟩ := List.forall_mem_cons.1 hos
    have htotal : ((Term.adj p :: os).map Term.factor).prod * q.val =
        (os.map Term.factor).prod * (2 * (p.val * q.val)) := by
      rw [List.map_cons, List.prod_cons, Term.factor]
      ring
    rw [htotal] at hlt ⊢
    have hfirst : 2 * (p.val * q.val) ≤ (os.map Term.factor).prod * (2 * (p.val * q.val)) :=
      Nat.le_mul_of_pos_left _ (Term.prod_factor_pos os)
    obtain ⟨c, hc, hcle⟩ := hop p q (Nat.lt_of_le_of_lt hfirst hlt)
    have hmono := Nat.mul_le_mul_left (os.map Term.factor).prod hcle
    obtain ⟨r, hr, hrle⟩ := ih hrest (Nat.lt_of_le_of_lt hmono hlt)
    refine ⟨r.cons ⟨[], .apply p q c⟩, ?_, Nat.le_trans hrle hmono⟩
    simp only [bigStepOperators, hc, hr, bind, Except.bind]
    rfl

end Operator

namespace HasType

variable {op : Operator} {t : Term} {ty : Ty}

/-- A typed noun expression of little heft evaluates to a noun within its heft. -/
theorem exists_bigStepNoun {i : Option Prime} (h : HasType t (.noun i)) (hop : op.AtMostDoubles)
    (hlt : t.heft < trialLimit) : ∃ r, op.bigStepNoun t = .ok r ∧ r.result.val ≤ t.heft := by
  induction t using Term.induction generalizing i with
  | noun q => exact ⟨_, rfl, Nat.le_refl _⟩
  | adj | sentence | join => cases h
  | fusion f =>
    cases h with
    | fusion hf =>
      refine ⟨_, by rw [Operator.bigStepNoun, hf], ?_⟩
      exact Nat.le_of_eq (Fusion.fused?_eq_some.1 hf)
  | chain o os e _ _ ih =>
    cases h with
    | chain hos he =>
      rw [Term.heft] at hlt ⊢
      have hinner : e.heft ≤ ((o :: os).map Term.factor).prod * e.heft :=
        Nat.le_mul_of_pos_left _ (Term.prod_factor_pos (o :: os))
      obtain ⟨x, hx, hxle⟩ := ih he (Nat.lt_of_le_of_lt hinner hlt)
      have hmono := Nat.mul_le_mul_left ((o :: os).map Term.factor).prod hxle
      obtain ⟨y, hy, hyle⟩ :=
        hop.exists_bigStepOperators hos (Nat.lt_of_le_of_lt hmono hlt)
      refine ⟨_, bind_eq_ok_iff.2 ⟨x, hx, bind_eq_ok_iff.2 ⟨y, hy, rfl⟩⟩, ?_⟩
      exact Nat.le_trans hyle hmono

/-- **Typed terms of little heft evaluate** under every operator that at most doubles. -/
theorem evaluates (h : HasType t ty) (hop : op.AtMostDoubles) (hlt : t.heft < trialLimit) :
    op.Evaluates t := by
  induction h with
  | noun | adj => exact ⟨_, rfl⟩
  | fusion hf =>
    obtain ⟨r, hr, _⟩ := exists_bigStepNoun (.fusion hf) hop hlt
    exact ⟨_, map_eq_ok_iff.2 ⟨r, hr, rfl⟩⟩
  | chain hos he =>
    obtain ⟨r, hr, _⟩ := exists_bigStepNoun (.chain hos he) hop hlt
    exact ⟨_, map_eq_ok_iff.2 ⟨r, hr, rfl⟩⟩
  | sentence _ ih => exact Operator.evaluates_sentence.2 (ih hlt)
  | join _ _ ihl ihr =>
    rw [Term.heft, max_lt_iff] at hlt
    exact Operator.evaluates_join.2 ⟨ihl hlt.1, ihr hlt.2⟩

end HasType

end PrimeLanguage
