import PrimeLanguage.Proofs.Lambda.Renaming

/-!
# Equality up to bound names

`Expr.alphaEq` walks two expressions at once and keeps the binders it has passed in pairs.  It
decides whether the expressions are the same without their bound names (`alphaEq_iff`), so it is
what an equality is: an equivalence that every form of expression respects.

* `Expr.Congruence` — an equivalence that every form of expression respects;
* `Expr.RenamesBinders` — a binder may take a name that is not free in its body;
* `alphaEq_lam_iff` — abstractions are equal when their bodies are, under one new name for both
  parameters;
* `alphaEq_iff_least` — equality up to bound names is the least congruence that renames binders.

Principal result: `alphaEq_decides`.
-/

namespace PrimeLanguage

namespace Nameless

variable {n n' : Nameless} {x : String}

/-- A variable in its own place changes nothing. -/
theorem subst_free_self (n : Nameless) (x : String) : n.subst x (.free x) = n := by
  induction n with
  | bound | const => rfl
  | free y =>
    by_cases hy : y = x
    · rw [subst, if_pos hy, hy]
    · rw [subst, if_neg hy]
  | lam b ih => exact congrArg Nameless.lam ih
  | app l r ihl ihr | join _ l r ihl ihr | prim _ l r ihl ihr => simp only [subst, ihl, ihr]

/-- Bodies in which every bound variable has its binder are told apart by their abstractions. -/
theorem close_inj (hn : n.lift 0 = n) (hn' : n'.lift 0 = n') :
    n.close 0 x = n'.close 0 x ↔ n = n' := by
  refine ⟨fun h => ?_, fun h => h ▸ rfl⟩
  calc n = (n.close 0 x).fill 0 (.free x) := by rw [fill_close hn, subst_free_self]
    _ = (n'.close 0 x).fill 0 (.free x) := by rw [h]
    _ = n' := by rw [fill_close hn', subst_free_self]

end Nameless

namespace Expr

variable {e e' b b' : Expr} {x y z : String}

/-! ## Congruence -/

/-- An equivalence of expressions that every form of expression respects. -/
structure Congruence (r : Expr → Expr → Prop) : Prop extends Equivalence r where
  lam : ∀ (x : String) {b b' : Expr}, r b b' → r (.lam x b) (.lam x b')
  app : ∀ {f f' a a' : Expr}, r f f' → r a a' → r (.app f a) (.app f' a')
  join : ∀ (c : Connective) {l l' k k' : Expr}, r l l' → r k k' → r (.join c l k) (.join c l' k')
  prim : ∀ (o : String) {l l' k k' : Expr}, r l l' → r k k' → r (.prim o l k) (.prim o l' k')

/-- An abstraction is related to the one with another parameter that is not free in the body. -/
def RenamesBinders (r : Expr → Expr → Prop) : Prop :=
  ∀ (x z : String) (b : Expr) (s : NameSupply), z ∉ b.free →
    r (.lam x b) (.lam z (b.substitute x (.var z) s).1)

theorem alphaEq_equivalence : Equivalence fun e e' : Expr => e.alphaEq e' = true := by
  simp only [alphaEq_iff]
  exact ⟨fun _ => rfl, Eq.symm, Eq.trans⟩

/-- Under one parameter the bodies decide. -/
theorem alphaEq_lam (x : String) (b b' : Expr) :
    (Expr.lam x b).alphaEq (.lam x b') = b.alphaEq b' := by
  rw [Bool.eq_iff_iff, alphaEq_iff, alphaEq_iff, nameless_lam, nameless_lam, Nameless.lam.injEq]
  exact Nameless.close_inj (lift_nameless b) (lift_nameless b')

theorem alphaEq_congruence : Congruence fun e e' : Expr => e.alphaEq e' = true where
  toEquivalence := alphaEq_equivalence
  lam x _ _ h := (alphaEq_lam x _ _).trans h
  app hf ha := alphaEq_iff_alike.2 (.app (alphaEq_iff_alike.1 hf) (alphaEq_iff_alike.1 ha))
  join c _ _ _ _ hl hk :=
    alphaEq_iff_alike.2 (.join c (alphaEq_iff_alike.1 hl) (alphaEq_iff_alike.1 hk))
  prim o _ _ _ _ hl hk :=
    alphaEq_iff_alike.2 (.prim o (alphaEq_iff_alike.1 hl) (alphaEq_iff_alike.1 hk))

/-! ## Renaming -/

/-- A body under a new name for its parameter closes over that name as it did over the old one. -/
theorem close_nameless_substitute (hz : z ∉ b.free) (x : String) (s : NameSupply) :
    (b.substitute x (.var z) s).1.nameless.close 0 z = b.nameless.close 0 x := by
  rw [← mem_names_nameless] at hz
  rw [nameless_substitute, nameless_var, Nameless.close_subst_free hz]

theorem alphaEq_renamesBinders : RenamesBinders fun e e' : Expr => e.alphaEq e' = true := by
  intro x z b s hz
  rw [alphaEq_iff, nameless_lam, nameless_lam, close_nameless_substitute hz]

/-- **Two abstractions are equal up to bound names** when their bodies are, once both parameters
have one name that is free in neither. -/
theorem alphaEq_lam_iff (hz : z ∉ b.free) (hz' : z ∉ b'.free) (s s' : NameSupply) :
    (Expr.lam x b).alphaEq (.lam y b') = true ↔
      (b.substitute x (.var z) s).1.alphaEq (b'.substitute y (.var z) s').1 = true := by
  rw [← alphaEq_lam z (b.substitute x (.var z) s).1, alphaEq_iff, alphaEq_iff]
  simp only [nameless_lam, close_nameless_substitute hz, close_nameless_substitute hz']

/-- **Equality up to bound names is the least congruence that renames binders.** -/
theorem alphaEq_iff_least :
    e.alphaEq e' = true ↔
      ∀ r : Expr → Expr → Prop, Congruence r → RenamesBinders r → r e e' := by
  refine ⟨fun h r hr hrename => ?_, fun h => h _ alphaEq_congruence alphaEq_renamesBinders⟩
  rw [alphaEq_iff_alike] at h
  induction e using renaming_induction generalizing e' with
  | var | const =>
    cases h
    exact hr.refl _
  | lam x b ih =>
    cases h with
    | @lam _ y _ b' h =>
      -- both parameters take a name that is free in neither body, and the bodies are smaller
      have hfresh := NameSupply.fresh_notMem .start x (b.free ++ b'.free)
      obtain ⟨hz, hz'⟩ := not_or.1 (mt List.mem_append.2 hfresh)
      have hlam : (Expr.lam x b).alphaEq (.lam y b') = true := alphaEq_iff_alike.2 (.lam h)
      have hbodies := (alphaEq_lam_iff hz hz' .start .start).1 hlam
      have hr' := ih _ (size_substitute_var b x _ .start) (alphaEq_iff_alike.1 hbodies)
      exact hr.trans (hrename x _ b .start hz)
        (hr.trans (hr.lam _ hr') (hr.symm (hrename y _ b' .start hz')))
  | app f a ihf iha =>
    cases h with
    | app hf ha => exact hr.app (ihf hf) (iha ha)
  | join c l k ihl ihk =>
    cases h with
    | join _ hl hk => exact hr.join c (ihl hl) (ihk hk)
  | prim o l k ihl ihk =>
    cases h with
    | prim _ hl hk => exact hr.prim o (ihl hl) (ihk hk)

/-! ## What equal expressions share -/

/-- Expressions that are alike have the same free occurrences of variables, in the same order. -/
theorem Alike.free (h : Alike e e') : e.free = e'.free := by
  rw [← names_nameless, ← names_nameless, h.nameless]

/-- **Equality up to bound names is decided.**  Two expressions are equal up to bound names exactly
when they are the same with every bound variable replaced by the number of binders up to its own.
So this equality is an equivalence that every form of expression respects, and expressions that are
equal in this sense have the same free variables and are values together. -/
theorem alphaEq_decides :
    (∀ e e' : Expr, e.alphaEq e' = true ↔ e.nameless = e'.nameless) ∧
    Congruence (fun e e' : Expr => e.alphaEq e' = true) ∧
    ∀ e e' : Expr, e.alphaEq e' = true →
      e.freeNames = e'.freeNames ∧ e.isValue = e'.isValue := by
  refine ⟨fun e e' => alphaEq_iff, alphaEq_congruence, fun e e' h => ?_⟩
  have halike := alphaEq_iff_alike.1 h
  refine ⟨?_, halike.isValue⟩
  rw [freeNames, freeNames, halike.free]

/-- Two abstractions that hide names of each other: the inner parameter of one is the outer one of
the other, and a variable is free under both. -/
theorem alphaEq_decides_shadowed :
    let e := Expr.lam "x" (.lam "y" (.app (.app (.var "x") (.var "y")) (.var "z")))
    let e' := Expr.lam "y" (.lam "x" (.app (.app (.var "y") (.var "x")) (.var "z")))
    e.nameless = .lam (.lam (.app (.app (.bound 1) (.bound 0)) (.free "z"))) ∧
    e.alphaEq e' = true ∧ e'.alphaEq e = true ∧ e.freeNames = e'.freeNames ∧
    e.isValue = e'.isValue := by
  intro e e'
  have h : e.alphaEq e' = true := by decide
  obtain ⟨_, hcong, hshare⟩ := alphaEq_decides
  exact ⟨rfl, h, hcong.symm h, hshare e e' h⟩

end Expr

end PrimeLanguage
