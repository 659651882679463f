import PrimeLanguage.Term.Basic

/-!
# Lambda expressions

The expressions that give terms their meaning: variables, prime constants, abstraction,
application, a pair for each connective, and a primitive named after the operator it stands for.

* `Expr.isValue` — constants, abstractions, and pairs of values;
* `Expr.free` — the variables that occur free, in order of occurrence;
* `Expr.alphaEq` — equality up to the names of bound variables.
-/

namespace PrimeLanguage

/-- A lambda expression. -/
inductive Expr where
  | var (x : String)
  | const (p : Prime)
  | lam (x : String) (body : Expr)
  | app (function argument : Expr)
  | join (c : Connective) (left right : Expr)
  | prim (operator : String) (left right : Expr)
  deriving DecidableEq

namespace Expr

/-- The prime of a constant. -/
def const? : Expr → Option Prime
  | .const p => some p
  | _ => none

def isValue : Expr → Bool
  | .const _ | .lam .. => true
  | .join _ l r => l.isValue && r.isValue
  | .var _ | .app .. | .prim .. => false

/-- The number of nodes. -/
def size : Expr → Nat
  | .var _ | .const _ => 1
  | .lam _ b => b.size + 1
  | .app l r | .join _ l r | .prim _ l r => l.size + r.size + 1

/-- The free occurrences of variables, from left to right. -/
def free : Expr → List String
  | .var x => [x]
  | .const _ => []
  | .lam x b => b.free.filter (· ≠ x)
  | .app l r | .join _ l r | .prim _ l r => l.free ++ r.free

/-- The free variables, each once, in the order of strings. -/
def freeNames (e : Expr) : List String :=
  e.free.eraseDups.mergeSort fun x y => decide (x ≤ y)

/-- Whether two variables are bound by the same pair of binders, or are both free and equal.  The
binders in scope are listed from the innermost pair. -/
def sameVariable (binders : List (String × String)) (x y : String) : Bool :=
  match binders with
  | [] => x == y
  | (l, r) :: outer => if l == x || r == y then l == x && r == y else sameVariable outer x y

/-- Equality up to bound names under the given pairs of binders. -/
def alphaEqUnder : List (String × String) → Expr → Expr → Bool
  | bs, .var x, .var y => sameVariable bs x y
  | _, .const p, .const q => p = q
  | bs, .lam x b, .lam y b' => alphaEqUnder ((x, y) :: bs) b b'
  | bs, .app f a, .app f' a' => alphaEqUnder bs f f' && alphaEqUnder bs a a'
  | bs, .join c l r, .join c' l' r' => c = c' && alphaEqUnder bs l l' && alphaEqUnder bs r r'
  | bs, .prim o l r, .prim o' l' r' => o == o' && alphaEqUnder bs l l' && alphaEqUnder bs r r'
  | _, _, _ => false

/-- Equality up to the names of bound variables. -/
def alphaEq (e e' : Expr) : Bool := alphaEqUnder [] e e'

def text : Expr → String
  | .var x => x
  | .const p => toString p
  | .lam x b => s!"λ{x}.{b.text}"
  | .app f a => s!"({f.text} {a.text})"
  | .join .seq l r => s!"⟨{l.text}, {r.text}⟩"
  | .join .imp l r => s!"({l.text} ⇒ {r.text})"
  | .prim o l r => s!"⊕{o}({l.text}, {r.text})"

instance : ToString Expr := ⟨text⟩

end Expr

end PrimeLanguage
