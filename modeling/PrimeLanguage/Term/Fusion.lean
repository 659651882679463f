import PrimeLanguage.Prime.Basic

/-!
# Fusions

A fusion is a triple of distinct odd primes.  It is well formed when its components add up to a
prime word; an ill-formed fusion is a legitimate value that nothing reduces.

* `Fusion.ofNats` — validates a triple: every component in turn, then distinctness;
* `Fusion.fused?` — the prime a well-formed fusion stands for.
-/

namespace PrimeLanguage

/-- Three distinct odd primes. -/
structure Fusion where
  p : Prime
  q : Prime
  r : Prime
  odd : p.isOdd = true ∧ q.isOdd = true ∧ r.isOdd = true
  distinct : p ≠ q ∧ q ≠ r ∧ p ≠ r
  deriving DecidableEq

namespace Fusion

/-- An odd prime. -/
def component (n : Nat) : Except InvalidPrime { p : Prime // p.isOdd = true } :=
  match Prime.ofNat n with
  | .error e => .error e
  | .ok p => if h : p.isOdd = true then .ok ⟨p, h⟩ else .error ⟨n, .notOdd⟩

/-- Validates a triple.  A repeated component is named by its first occurrence. -/
def ofNats (p q r : Nat) : Except InvalidPrime Fusion := do
  let ⟨p, hp⟩ ← component p
  let ⟨q, hq⟩ ← component q
  let ⟨r, hr⟩ ← component r
  if h : p ≠ q ∧ q ≠ r ∧ p ≠ r then
    return ⟨p, q, r, ⟨hp, hq, hr⟩, h⟩
  else
    throw ⟨if p = q ∨ p = r then p.val else q.val, .notDistinct⟩

/-- `p + q + r`, if it is a word. -/
def sum? (f : Fusion) : Option Nat :=
  (checkedAdd f.p.val f.q.val).bind (checkedAdd · f.r.val)

/-- The prime that a well-formed fusion stands for. -/
def fused? (f : Fusion) : Option Prime :=
  f.sum?.bind fun s => (Prime.ofNat s).toOption

/-- Whether the components add up to a prime. -/
def isWellFormed (f : Fusion) : Bool := f.fused?.isSome

theorem component_val {q : Prime} (h : q.isOdd = true) : component q.val = .ok ⟨q, h⟩ := by
  simp [component, h]

/-- The components of a fusion make that fusion. -/
theorem ofNats_val (f : Fusion) : ofNats f.p.val f.q.val f.r.val = .ok f := by
  obtain ⟨hp, hq, hr⟩ := f.odd
  simp only [ofNats, component_val hp, component_val hq, component_val hr, bind, Except.bind,
    dif_pos f.distinct]
  rfl

theorem sum?_eq_some {f : Fusion} {s : Nat} :
    f.sum? = some s ↔ s = f.p.val + f.q.val + f.r.val ∧ s < wordLimit := by
  simp only [sum?, Option.bind_eq_some_iff, checkedAdd_eq_some]
  constructor
  · rintro ⟨a, ⟨rfl, _⟩, rfl, h⟩; exact ⟨rfl, h⟩
  · rintro ⟨rfl, h⟩; exact ⟨_, ⟨rfl, by omega⟩, rfl, h⟩

theorem fused?_eq_some {f : Fusion} {s : Prime} :
    f.fused? = some s ↔ s.val = f.p.val + f.q.val + f.r.val := by
  simp only [fused?, Option.bind_eq_some_iff]
  constructor
  · rintro ⟨n, hn, hs⟩
    cases h : Prime.ofNat n with
    | error e => simp [h, Except.toOption] at hs
    | ok p =>
      have : p = s := by simpa [h, Except.toOption] using hs
      rw [← this, Prime.val_of_ofNat h]
      exact (sum?_eq_some.1 hn).1
  · intro h
    refine ⟨s.val, sum?_eq_some.2 ⟨h, s.lt_wordLimit⟩, ?_⟩
    simp [Except.toOption]

end Fusion

end PrimeLanguage
