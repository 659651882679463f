import PrimeLanguage.Lambda.Expr

/-!
# Fresh names

A `NameSupply` is a counter that only grows.  A fresh name is made from a hint: the hint without
the decimal digits at its end (or `v` if nothing is left) and the counter.  Names that are to be
avoided are skipped; since every attempt uses another number, at most as many attempts fail as
there are names to avoid.
-/

namespace PrimeLanguage

/-- A source of variable names. -/
structure NameSupply where
  next : Nat
  deriving DecidableEq, Repr

namespace NameSupply

def start : NameSupply := ⟨0⟩

/-- The part of a hint that fresh names keep. -/
def stem (hint : String) : List Char :=
  match (hint.toList.reverse.dropWhile Char.isDigit).reverse with
  | [] => ['v']
  | base => base

/-- The name of a stem with a number. -/
def numbered (base : List Char) (n : Nat) : String := String.ofList (base ++ Nat.toDigits 10 n)

/-- The first numbered name from `n` on that is not to be avoided, and the number after it. -/
def pick (base : List Char) (n : Nat) (avoid : List String) : String × Nat :=
  let name := numbered base n
  if name ∈ avoid then pick base (n + 1) (avoid.erase name) else (name, n + 1)
termination_by avoid.length
decreasing_by
  rename_i h
  have := List.length_pos_of_mem h
  rw [List.length_erase_of_mem h]
  omega

/-- A name made from `hint` that is not in `avoid`. -/
def fresh (s : NameSupply) (hint : String) (avoid : List String) : String × NameSupply :=
  let (name, next) := pick (stem hint) s.next avoid
  (name, ⟨next⟩)

end NameSupply

end PrimeLanguage
