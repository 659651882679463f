import PrimeLanguage.Lambda.NameSupply

/-!
# Capture-avoiding substitution

`Expr.substitute` replaces the free occurrences of a variable.  A binder that would capture a free
variable of the value is renamed first, by the same substitution, to a name that is free neither in
the value nor in the body and is not the variable itself.

Replacing a variable by a variable does not change the size of an expression; this fact is part of
the result of `substituteSized`, since the renamed body is substituted into again.
-/

namespace PrimeLanguage

namespace Expr

/-- Substitution together with the size of its result. -/
def substituteSized (x : String) (v : Expr) :
    (e : Expr) → NameSupply → { r : Expr // v.size = 1 → r.size = e.size } × NameSupply
  | .var y, s =>
    if y = x then (⟨v, fun h => by rw [h, size]⟩, s) else (⟨.var y, fun _ => rfl⟩, s)
  | .const p, s => (⟨.const p, fun _ => rfl⟩, s)
  | .lam y b, s =>
    if y = x then (⟨.lam y b, fun _ => rfl⟩, s)
    else if y ∈ v.free then
      match s.fresh y (v.free ++ b.free ++ [x]) with
      | (z, s) =>
        match substituteSized y (.var z) b s with
        | (renamed, s) =>
          have := renamed.2 rfl
          match substituteSized x v renamed.1 s with
          | (r, s) => (⟨.lam z r.1, fun h => by simp [size, r.2 h, renamed.2 rfl]⟩, s)
    else
      match substituteSized x v b s with
      | (r, s) => (⟨.lam y r.1, fun h => by simp [size, r.2 h]⟩, s)
  | .app f a, s =>
    match substituteSized x v f s with
    | (f', s) =>
      match substituteSized x v a s with
      | (a', s) => (⟨.app f'.1 a'.1, fun h => by simp [size, f'.2 h, a'.2 h]⟩, s)
  | .join c l r, s =>
    match substituteSized x v l s with
    | (l', s) =>
      match substituteSized x v r s with
      | (r', s) => (⟨.join c l'.1 r'.1, fun h => by simp [size, l'.2 h, r'.2 h]⟩, s)
  | .prim o l r, s =>
    match substituteSized x v l s with
    | (l', s) =>
      match substituteSized x v r s with
      | (r', s) => (⟨.prim o l'.1 r'.1, fun h => by simp [size, l'.2 h, r'.2 h]⟩, s)
termination_by e => e.size
decreasing_by all_goals (simp only [size]; omega)

/-- `e` with `v` for the free occurrences of `x`. -/
def substitute (e : Expr) (x : String) (v : Expr) (s : NameSupply) : Expr × NameSupply :=
  match substituteSized x v e s with
  | (r, s) => (r.1, s)

end Expr

end PrimeLanguage
