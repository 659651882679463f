import PrimeLanguage.Error

/-!
# Moduli

The modular operator works modulo a word of at least two; modulo one every product would be zero.
A modulus is read from decimal text by the rule for words.
-/

namespace PrimeLanguage

/-- A word of at least two. -/
structure Modulus where
  val : Nat
  two_le : 2 ≤ val
  lt_wordLimit : val < wordLimit

namespace Modulus

/-- The modulus used unless another is chosen. -/
def standard : Modulus := ⟨1000003, by decide, by decide⟩

/-- Validates a word as a modulus. -/
def ofNat (n : Nat) : Except Error Modulus :=
  if h : 2 ≤ n ∧ n < wordLimit then .ok ⟨n, h.1, h.2⟩ else .error (.invalidModulus n)

/-- Reads a modulus; the error is the message to show. -/
def read (text : String) : Except String Modulus :=
  match readWord text.toList with
  | .error fault => .error s!"invalid modulus '{text}': {fault.message}"
  | .ok n =>
    match ofNat n with
    | .error e => .error e.message
    | .ok m => .ok m

end Modulus

end PrimeLanguage
