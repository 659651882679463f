import PrimeLanguage.Prime.Oracle

/-!
# Primes

A `Prime` is a word accepted by the oracle, so every noun, adjective and fusion component holds a
validated number.  `Prime.ofNat` is the only way to make one from a number; a refusal says which
number was refused and why (`InvalidPrime`).
-/

namespace PrimeLanguage

/-- A word accepted by the oracle. -/
structure Prime where
  val : Nat
  lt_wordLimit : val < wordLimit
  accepted : isPrime val = true
  deriving DecidableEq

namespace Prime

instance : Hashable Prime := ⟨fun p => hash p.val⟩

instance : LT Prime := ⟨fun p q => p.val < q.val⟩

instance (p q : Prime) : Decidable (p < q) := inferInstanceAs (Decidable (p.val < q.val))

theorem ext {p q : Prime} (h : p.val = q.val) : p = q := by
  cases p; cases q; cases h; rfl

/-- The prime that an accepted word is. -/
def ofAccepted (n : Nat) (h : n < wordLimit ∧ isPrime n = true) : Prime := ⟨n, h.1, h.2⟩

/-- The least odd prime. -/
def three : Prime := ofAccepted 3 (by decide)

theorem two_le (p : Prime) : 2 ≤ p.val := isPrime_ge_two p.accepted

/-- The only even prime is 2. -/
def isOdd (p : Prime) : Bool := p.val % 2 == 1

/-- The larger of two primes. -/
def larger (p q : Prime) : Prime := if p < q then q else p

/-- The decimal digits of the prime. -/
def digits (p : Prime) : List Char := Nat.toDigits 10 p.val

instance : ToString Prime := ⟨fun p => String.ofList p.digits⟩

end Prime

/-- Why a number is refused at a place that asks for a prime. -/
inductive PrimeFault where
  | notPrime
  | notOdd
  | notDistinct
  deriving DecidableEq, Repr

def PrimeFault.message : PrimeFault → String
  | .notPrime => "not prime"
  | .notOdd => "fusion components must be odd"
  | .notDistinct => "fusion components must be distinct"

/-- A number that was refused, and why. -/
structure InvalidPrime where
  value : Nat
  fault : PrimeFault
  deriving DecidableEq, Repr

def InvalidPrime.message (e : InvalidPrime) : String :=
  s!"invalid prime argument {e.value}: {e.fault.message}"

/-- Validates a number as a prime. -/
def Prime.ofNat (n : Nat) : Except InvalidPrime Prime :=
  if h : n < wordLimit ∧ isPrime n = true then .ok (.ofAccepted n h) else .error ⟨n, .notPrime⟩

@[simp] theorem Prime.ofNat_val (p : Prime) : Prime.ofNat p.val = .ok p := by
  simp [Prime.ofNat, Prime.ofAccepted, p.lt_wordLimit, p.accepted]

theorem Prime.val_of_ofNat {n : Nat} {p : Prime} (h : Prime.ofNat n = .ok p) : p.val = n := by
  unfold Prime.ofNat at h
  split at h
  · cases h; rfl
  · simp at h

theorem Prime.error_of_ofNat {n : Nat} {e : InvalidPrime} (h : Prime.ofNat n = .error e) :
    e = ⟨n, .notPrime⟩ := by
  unfold Prime.ofNat at h
  split at h
  · simp at h
  · cases h; rfl

end PrimeLanguage
