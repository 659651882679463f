import PrimeLanguage.Lambda.NameSupply
import PrimeLanguage.Error

/-!
# The meaning of terms

| Term | Meaning |
|------|---------|
| `N(p)` | `p` |
| `A(p)` | `λx.⊕(p, x)` with a fresh `x` |
| `FUSE(p,q,r)` | `p+q+r` |
| `A(p)…A(q) e` | the meanings of the adjectives applied, the nearest first, to that of `e` |
| `[e]` | the meaning of `e` |
| sentences under a connective | a pair under that connective |

The primitive is named after the operator.  A fusion whose sum is not prime has no meaning.  Among
the terms without such fusions, the shape alone decides which expression is built and whether there
is one; the primes only fill in its constants.
-/

namespace PrimeLanguage

/-- Whether a term may stand in the noun position of a chain. -/
def Term.isNounShaped : Term → Bool
  | .noun _ | .fusion _ | .chain .. => true
  | .adj _ | .sentence _ | .join .. => false

/-- The meaning of an adjective. -/
def adjectiveMeaning (operator : String) (p : Prime) (s : NameSupply) : Expr × NameSupply :=
  let (x, s) := s.fresh "x" []
  (.lam x (.prim operator (.const p) (.var x)), s)

/-- Applies operators to `e`, the first one first. -/
def applyMeanings (operator : String) :
    List Term → Expr → NameSupply → Except Error (Expr × NameSupply)
  | [], e, s => .ok (e, s)
  | .adj p :: os, e, s =>
    let (f, s) := adjectiveMeaning operator p s
    applyMeanings operator os (.app f e) s
  | o :: _, _, _ => .error (.noMeaning o .operatorPosition)

/-- The meaning of a term, with bound names from the supply. -/
def Term.meaningFrom (operator : String) :
    Term → NameSupply → Except Error (Expr × NameSupply)
  | .noun p, s => .ok (.const p, s)
  | .adj p, s => .ok (adjectiveMeaning operator p s)
  | .chain o os e, s =>
    if e.isNounShaped then do
      let (e, s) ← meaningFrom operator e s
      applyMeanings operator (o :: os) e s
    else .error (.noMeaning e .nounPosition)
  | .fusion f, s =>
    match f.fused? with
    | some p => .ok (.const p, s)
    | none => .error (.illFormedFusion f)
  | .sentence e, s => meaningFrom operator e s
  | .join c l r, s => do
    let (l, s) ← meaningFrom operator l s
    let (r, s) ← meaningFrom operator r s
    return (.join c l r, s)

/-- The meaning of a term; its bound names are numbered from zero. -/
def Term.meaning (operator : String) (t : Term) : Except Error Expr :=
  (t.meaningFrom operator .start).map (·.1)

end PrimeLanguage
