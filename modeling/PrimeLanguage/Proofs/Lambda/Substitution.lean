import Mathlib.Data.Finset.Dedup
import Mathlib.Data.Finset.Basic
import PrimeLanguage.Lambda.Substitution
import PrimeLanguage.Proofs.Lambda.Nameless

/-!
# Substitution avoids capture

Without bound names, substitution is the nameless one (`Expr.nameless_substitute`): a renamed binder
closes its renamed body over the new name, which is the body closed over the old name.

* `NameSupply.fresh_notMem` — a fresh name is not one of those to be avoided;
* `Expr.renaming_induction` — induction on expressions in which a binder brings a hypothesis for
  every body of the same size, such as the renamed one.

Principal result: `substitute_avoids_capture`.
-/

namespace PrimeLanguage

/-! ## Fresh names -/

namespace NameSupply

theorem numbered_injective (base : List Char) : Function.Injective (numbered base) := by
  intro n m h
  have hdigits : Nat.toDigits 10 n = Nat.toDigits 10 m :=
    List.append_cancel_left (String.ofList_injective h)
  rw [← Nat.ofDigitChars_ten_toDigits (n := n), hdigits, Nat.ofDigitChars_ten_toDigits]

/-- The name picked has the first number from `n` on that makes a name which is not to be avoided. -/
theorem pick_eq (base : List Char) (n : Nat) (avoid : List String) :
    ∃ m, n ≤ m ∧ pick base n avoid = (numbered base m, m + 1) ∧ numbered base m ∉ avoid ∧
      ∀ i, n ≤ i → i < m → numbered base i ∈ avoid := by
  fun_induction pick base n avoid with
  | case1 n avoid name hname ih =>
    obtain ⟨m, hm, hpick, havoid, hpassed⟩ := ih
    -- the name struck off the list is not met again: its number is passed
    have hne : numbered base m ≠ name := fun h => by
      have := numbered_injective base h
      omega
    refine ⟨m, by omega, hpick, fun h => havoid ((List.mem_erase_of_ne hne).2 h), ?_⟩
    intro i hi him
    by_cases heq : i = n
    · exact heq ▸ hname
    · exact List.mem_of_mem_erase (hpassed i (by omega) him)
  | case2 n avoid name hname => exact ⟨n, Nat.le_refl n, rfl, hname, fun i hi him => by omega⟩

theorem fresh_notMem (s : NameSupply) (hint : String) (avoid : List String) :
    (s.fresh hint avoid).1 ∉ avoid := by
  obtain ⟨m, _, hpick, havoid, _⟩ := pick_eq (stem hint) s.next avoid
  simpa [fresh, hpick] using havoid

end NameSupply

namespace Expr

variable {x y : String} {v b : Expr} {s : NameSupply}

/-! ## Equations of substitution -/

theorem substitute_var (v : Expr) (s : NameSupply) :
    ((Expr.var y).substitute x v s).1 = if y = x then v else .var y := by
  simp only [substitute, substituteSized]
  split <;> rfl

theorem substitute_const (p : Prime) (v : Expr) (s : NameSupply) :
    ((Expr.const p).substitute x v s).1 = .const p := by
  simp only [substitute, substituteSized]

theorem substitute_app (x : String) (f a v : Expr) (s : NameSupply) :
    ∃ s', ((Expr.app f a).substitute x v s).1 =
      .app (f.substitute x v s).1 (a.substitute x v s').1 := by
  simp only [substitute, substituteSized]
  exact ⟨_, rfl⟩

theorem substitute_join (x : String) (c : Connective) (l r v : Expr) (s : NameSupply) :
    ∃ s', ((Expr.join c l r).substitute x v s).1 =
      .join c (l.substitute x v s).1 (r.substitute x v s').1 := by
  simp only [substitute, substituteSized]
  exact ⟨_, rfl⟩

theorem substitute_prim (x : String) (o : String) (l r v : Expr) (s : NameSupply) :
    ∃ s', ((Expr.prim o l r).substitute x v s).1 =
      .prim o (l.substitute x v s).1 (r.substitute x v s').1 := by
  simp only [substitute, substituteSized]
  exact ⟨_, rfl⟩

/-- A binder of the variable hides it. -/
theorem substitute_lam_self (x : String) (b v : Expr) (s : NameSupply) :
    ((Expr.lam x b).substitute x v s).1 = .lam x b := by
  simp only [substitute, substituteSized, if_true]

/-- A binder that does not capture stays. -/
theorem substitute_lam_of_notMem (hy : y ≠ x) (hv : y ∉ v.free) (b : Expr) (s : NameSupply) :
    ((Expr.lam y b).substitute x v s).1 = .lam y (b.substitute x v s).1 := by
  simp only [substitute, substituteSized, if_neg hy, if_neg hv]

/-- A binder that would capture is renamed first, to a fresh name. -/
theorem substitute_lam_eq_rename (hy : y ≠ x) (hv : y ∈ v.free) (b : Expr) (s : NameSupply) :
    ∃ s₁ s₂, ((Expr.lam y b).substitute x v s).1 =
      .lam (s.fresh y (v.free ++ b.free ++ [x])).1
        ((b.substitute y (.var (s.fresh y (v.free ++ b.free ++ [x])).1) s₁).1.substitute x v s₂).1 := by
  simp only [substitute, substituteSized, if_neg hy, if_pos hv]
  exact ⟨_, _, rfl⟩

/-- The new name of a binder is not taken. -/
theorem substitute_lam_of_mem (hy : y ≠ x) (hv : y ∈ v.free) (b : Expr) (s : NameSupply) :
    ∃ z s₁ s₂, z ∉ v.free ∧ z ∉ b.free ∧ z ≠ x ∧
      ((Expr.lam y b).substitute x v s).1 =
        .lam z ((b.substitute y (.var z) s₁).1.substitute x v s₂).1 := by
  have hfresh := NameSupply.fresh_notMem s y (v.free ++ b.free ++ [x])
  simp only [List.mem_append, List.mem_singleton, not_or] at hfresh
  obtain ⟨s₁, s₂, hsub⟩ := substitute_lam_eq_rename hy hv b s
  exact ⟨_, s₁, s₂, hfresh.1.1, hfresh.1.2, hfresh.2, hsub⟩

/-- Renaming keeps the size. -/
theorem size_substitute_var (e : Expr) (y z : String) (s : NameSupply) :
    (e.substitute y (.var z) s).1.size = e.size :=
  (substituteSized y (.var z) e s).1.2 rfl

/-- Induction on expressions; a binder brings a hypothesis for every body as large as its own. -/
@[elab_as_elim]
theorem renaming_induction {motive : Expr → Prop}
    (var : ∀ x, motive (.var x))
    (const : ∀ p, motive (.const p))
    (lam : ∀ x b, (∀ b' : Expr, b'.size = b.size → motive b') → motive (.lam x b))
    (app : ∀ f a, motive f → motive a → motive (.app f a))
    (join : ∀ c l r, motive l → motive r → motive (.join c l r))
    (prim : ∀ o l r, motive l → motive r → motive (.prim o l r))
    (e : Expr) : motive e := by
  induction hn : e.size using Nat.strongRecOn generalizing e with
  | ind n ih =>
    subst hn
    have smaller : ∀ e' : Expr, e'.size < e.size → motive e' := fun e' h => ih e'.size h e' rfl
    cases e with
    | var x => exact var x
    | const p => exact const p
    | lam x b =>
      refine lam x b fun b' hb' => smaller b' ?_
      simp only [size]
      omega
    | app l r =>
      simp only [size] at smaller
      exact app l r (smaller l (by omega)) (smaller r (by omega))
    | join c l r =>
      simp only [size] at smaller
      exact join c l r (smaller l (by omega)) (smaller r (by omega))
    | prim o l r =>
      simp only [size] at smaller
      exact prim o l r (smaller l (by omega)) (smaller r (by omega))

/-! ## Substitution without bound names -/

/-- **Substitution is the nameless one**, whatever names the supply has. -/
theorem nameless_substitute (e : Expr) (x : String) (v : Expr) (s : NameSupply) :
    (e.substitute x v s).1.nameless = e.nameless.subst x v.nameless := by
  induction e using renaming_induction generalizing x v s with
  | var y =>
    rw [substitute_var, nameless_var, Nameless.subst]
    split <;> rfl
  | const p => rw [substitute_const]; rfl
  | lam y b ih =>
    -- the binder hides the variable, is renamed, or stays
    rw [nameless_lam, Nameless.subst, lift_nameless]
    by_cases hyx : y = x
    · subst hyx
      have hclosed : y ∉ (b.nameless.close 0 y).names := by simp
      rw [substitute_lam_self, nameless_lam, Nameless.subst_of_notMem hclosed]
    · by_cases hv : y ∈ v.free
      · obtain ⟨z, s₁, s₂, hzv, hzb, hzx, hsub⟩ := substitute_lam_of_mem hyx hv b s
        rw [← mem_names_nameless] at hzv hzb
        -- the renamed body is no part of the abstraction, but as large as one
        have hrenamed : (b.substitute y (.var z) s₁).1.nameless =
            b.nameless.subst y (.free z) := ih b rfl y (.var z) s₁
        rw [hsub, nameless_lam, ih _ (size_substitute_var b y z s₁), hrenamed,
          ← Nameless.subst_close hzx hzv, Nameless.close_subst_free hzb]
      · rw [substitute_lam_of_notMem hyx hv, nameless_lam, ih b rfl]
        rw [← mem_names_nameless] at hv
        rw [Nameless.subst_close hyx hv]
  | app f a ihf iha =>
    obtain ⟨s', hsub⟩ := substitute_app x f a v s
    rw [hsub, nameless_app, nameless_app, ihf, iha, Nameless.subst]
  | join c l r ihl ihr =>
    obtain ⟨s', hsub⟩ := substitute_join x c l r v s
    rw [hsub, nameless_join, nameless_join, ihl, ihr, Nameless.subst]
  | prim o l r ihl ihr =>
    obtain ⟨s', hsub⟩ := substitute_prim x o l r v s
    rw [hsub, nameless_prim, nameless_prim, ihl, ihr, Nameless.subst]

/-! ## Free variables and bound names -/

theorem mem_freeNames {e : Expr} : x ∈ e.freeNames ↔ x ∈ e.free := by
  simp [freeNames]

theorem mem_free_substitute (e v : Expr) (s : NameSupply) :
    y ∈ (e.substitute x v s).1.free ↔ (y ∈ e.free ∧ y ≠ x) ∨ (x ∈ e.free ∧ y ∈ v.free) := by
  simp only [← mem_names_nameless, nameless_substitute, Nameless.mem_names_subst]

/-- **The free variables of a substitution**: those of the value take the place of the variable. -/
theorem freeNames_substitute (e : Expr) (x : String) (v : Expr) (s : NameSupply) :
    (e.substitute x v s).1.freeNames.toFinset =
      if x ∈ e.freeNames then e.freeNames.toFinset.erase x ∪ v.freeNames.toFinset
      else e.freeNames.toFinset := by
  ext y
  split
  · rename_i hx
    rw [mem_freeNames] at hx
    simp only [List.mem_toFinset, Finset.mem_union, Finset.mem_erase, mem_freeNames,
      mem_free_substitute, hx, true_and]
    rw [and_comm]
  · rename_i hx
    rw [mem_freeNames] at hx
    simp only [List.mem_toFinset, mem_freeNames, mem_free_substitute, hx, false_and, or_false]
    exact ⟨And.left, fun hy => ⟨hy, fun h => hx (h ▸ hy)⟩⟩

theorem alphaEq_substitute {e e' v' : Expr} (he : e.alphaEq e' = true) (hv : v.alphaEq v' = true)
    (x : String) (s s' : NameSupply) :
    (e.substitute x v s).1.alphaEq (e'.substitute x v' s').1 = true := by
  rw [alphaEq_iff] at he hv ⊢
  rw [nameless_substitute, nameless_substitute, he, hv]

/-- **Substitution avoids capture.**  It has a result for every expression, variable, value and
supply of names, which without bound names is the nameless substitution.  So the free variables of
the value take the place of the variable if it is free, and expressions and values that are equal up
to bound names have results that are, from any two supplies. -/
theorem substitute_avoids_capture :
    (∀ (e : Expr) (x : String) (v : Expr) (s : NameSupply),
      (e.substitute x v s).1.nameless = e.nameless.subst x v.nameless ∧
      (e.substitute x v s).1.freeNames.toFinset =
        if x ∈ e.freeNames then e.freeNames.toFinset.erase x ∪ v.freeNames.toFinset
        else e.freeNames.toFinset) ∧
    ∀ (e e' : Expr) (x : String) (v v' : Expr) (s s' : NameSupply),
      e.alphaEq e' = true → v.alphaEq v' = true →
        (e.substitute x v s).1.alphaEq (e'.substitute x v' s').1 = true := by
  constructor
  · intro e x v s
    exact ⟨nameless_substitute e x v s, freeNames_substitute e x v s⟩
  · intro e e' x v v' s s' he hv
    exact alphaEq_substitute he hv x s s'

/-- A binder that would capture the value, under two names and from two supplies; under the second
name it does not capture. -/
theorem substitute_avoids_capture_binder :
    let e := Expr.lam "y" (.app (.var "x") (.var "y"))
    let e' := Expr.lam "w" (.app (.var "x") (.var "w"))
    (e.substitute "x" (.var "y") .start).1.nameless = .lam (.app (.free "y") (.bound 0)) ∧
    e.alphaEq e' = true ∧ (Expr.var "y").alphaEq (.var "y") = true ∧
    (e.substitute "x" (.var "y") .start).1.alphaEq (e'.substitute "x" (.var "y") ⟨5⟩).1 = true := by
  have he : (Expr.lam "y" (.app (.var "x") (.var "y"))).alphaEq
      (.lam "w" (.app (.var "x") (.var "w"))) = true := by decide
  have hv : (Expr.var "y").alphaEq (.var "y") = true := by decide
  exact ⟨(substitute_avoids_capture.1 _ _ _ _).1, he, hv,
    substitute_avoids_capture.2 _ _ "x" _ _ .start ⟨5⟩ he hv⟩

end Expr

end PrimeLanguage
