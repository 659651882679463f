/-!
# Machine words

Every number of the language is an unsigned word below `wordLimit = 2^64`.  Arithmetic is done on
naturals; the two ways in which a result that does not fit is treated are

* `checkedAdd` — no result at all;
* `clampWord` — the largest word.

A product of two words need not fit either.  `mulMod` takes it as a double word, divides, and cuts
what is left to a word; `mulMod_eq` says that nothing is lost on the way.

`readWord` reads a word from decimal text: an optional `+`, then digits, leading zeros allowed.
The first character at fault decides which `WordFault` is reported.
-/

namespace PrimeLanguage

/-- The number of words, `2^64`: every word is below it. -/
def wordLimit : Nat := 18446744073709551616

/-- The sum of two words, if it is a word. -/
def checkedAdd (a b : Nat) : Option Nat :=
  if a + b < wordLimit then some (a + b) else none

theorem checkedAdd_eq_some {a b c : Nat} :
    checkedAdd a b = some c ↔ c = a + b ∧ a + b < wordLimit := by
  unfold checkedAdd
  split <;> simp_all [eq_comm]

/-- The word nearest to `n`. -/
def clampWord (n : Nat) : Nat :=
  min n (wordLimit - 1)

/-- The number of double words, `2^128`. -/
def doubleWordLimit : Nat := 340282366920938463463374607431768211456

/-- The product of two words modulo a third, with a double word for the product. -/
def mulMod (a b m : Nat) : Nat :=
  a * b % doubleWordLimit % m % wordLimit

theorem mulMod_eq {a b m : Nat} (ha : a < wordLimit) (hb : b < wordLimit) (hm : 0 < m)
    (hm' : m ≤ wordLimit) : mulMod a b m = a * b % m := by
  have hproduct : a * b < doubleWordLimit := Nat.mul_lt_mul'' ha hb
  have hresidue : a * b % m < wordLimit := Nat.lt_of_lt_of_le (Nat.mod_lt _ hm) hm'
  rw [mulMod, Nat.mod_eq_of_lt hproduct, Nat.mod_eq_of_lt hresidue]

theorem mulMod_le (a b m : Nat) : mulMod a b m ≤ a * b :=
  calc
    mulMod a b m ≤ a * b % doubleWordLimit % m := Nat.mod_le _ _
    _ ≤ a * b % doubleWordLimit := Nat.mod_le _ _
    _ ≤ a * b := Nat.mod_le _ _

/-- Why a text is not the decimal form of a word. -/
inductive WordFault where
  | empty
  | notDigit
  | tooLarge
  deriving DecidableEq, Repr

def WordFault.message : WordFault → String
  | .empty => "cannot parse integer from empty string"
  | .notDigit => "invalid digit found in string"
  | .tooLarge => "number too large to fit in target type"

/-- The value of an ASCII decimal digit. -/
def digitValue? (c : Char) : Option Nat :=
  if c.isDigit then some (c.toNat - '0'.toNat) else none

/-- Continues a number whose leading digits have the value `acc`. -/
def readDigits (acc : Nat) : List Char → Except WordFault Nat
  | [] => .ok acc
  | c :: cs =>
    match digitValue? c with
    | none => .error .notDigit
    | some d => if acc * 10 + d < wordLimit then readDigits (acc * 10 + d) cs else .error .tooLarge

/-- Reads a word: an optional `+` in front of at least one digit. -/
def readWord (text : List Char) : Except WordFault Nat :=
  match text with
  | [] => .error .empty
  | '+' :: [] => .error .notDigit
  | '+' :: cs => readDigits 0 cs
  | cs => readDigits 0 cs

end PrimeLanguage
