import Mathlib.Data.List.Basic
import Mathlib.Tactic.Tauto
import PrimeLanguage.Lambda.Expr

/-!
# Expressions without bound names

In a nameless expression a bound variable is the number of binders that lie between it and its own
binder; free variables keep their names.  Two expressions are equal up to bound names if they are
the same without them (`Expr.alphaEq_iff`).

* `Expr.nameless` — an expression without its bound names;
* `Nameless.subst` — a nameless expression in place of a free variable;
* `Nameless.close`, `Nameless.fill` — a free variable becomes bound, and a bound one is replaced;
  substitution is one after the other (`Nameless.fill_close`).

`Expr.nameless_lam` says what a binder does: it closes its body over the variable.
-/

namespace PrimeLanguage

/-- A lambda expression whose bound variables have no names. -/
inductive Nameless where
  | bound (distance : Nat)
  | free (x : String)
  | const (p : Prime)
  | lam (body : Nameless)
  | app (function argument : Nameless)
  | join (c : Connective) (left right : Nameless)
  | prim (operator : String) (left right : Nameless)
  deriving DecidableEq

namespace Nameless

/-- The variable `x` under the binders of the names listed, the innermost one first. -/
def ofVariable (binders : List String) (x : String) : Nameless :=
  if x ∈ binders then .bound (binders.idxOf x) else .free x

/-- The free variables, from left to right. -/
def names : Nameless → List String
  | .bound _ | .const _ => []
  | .free x => [x]
  | .lam b => b.names
  | .app l r | .join _ l r | .prim _ l r => l.names ++ r.names

/-- Makes room for a binder outside of the `k` innermost ones. -/
def lift (k : Nat) : Nameless → Nameless
  | .bound i => if i < k then .bound i else .bound (i + 1)
  | .free x => .free x
  | .const p => .const p
  | .lam b => .lam (b.lift (k + 1))
  | .app f a => .app (f.lift k) (a.lift k)
  | .join c l r => .join c (l.lift k) (r.lift k)
  | .prim o l r => .prim o (l.lift k) (r.lift k)

/-- `u` in place of the free variable `x`. -/
def subst (n : Nameless) (x : String) (u : Nameless) : Nameless :=
  match n with
  | .bound i => .bound i
  | .free y => if y = x then u else .free y
  | .const p => .const p
  | .lam b => .lam (b.subst x (u.lift 0))
  | .app f a => .app (f.subst x u) (a.subst x u)
  | .join c l r => .join c (l.subst x u) (r.subst x u)
  | .prim o l r => .prim o (l.subst x u) (r.subst x u)

/-- Binds the free variable `x` outside of the `k` innermost binders. -/
def close (k : Nat) (x : String) : Nameless → Nameless
  | .bound i => .bound i
  | .free y => if y = x then .bound k else .free y
  | .const p => .const p
  | .lam b => .lam (b.close (k + 1) x)
  | .app f a => .app (f.close k x) (a.close k x)
  | .join c l r => .join c (l.close k x) (r.close k x)
  | .prim o l r => .prim o (l.close k x) (r.close k x)

/-- `u` in place of the variable that is bound outside of the `k` innermost binders. -/
def fill (n : Nameless) (k : Nat) (u : Nameless) : Nameless :=
  match n with
  | .bound i => if i = k then u else .bound i
  | .free y => .free y
  | .const p => .const p
  | .lam b => .lam (b.fill (k + 1) (u.lift 0))
  | .app f a => .app (f.fill k u) (a.fill k u)
  | .join c l r => .join c (l.fill k u) (r.fill k u)
  | .prim o l r => .prim o (l.fill k u) (r.fill k u)

variable {n u : Nameless} {x y z : String}

/-! ## Variables -/

/-- A binder of another name moves a variable one binder further from its own. -/
theorem ofVariable_cons (b : String) (binders : List String) (x : String) :
    ofVariable (b :: binders) x = if b = x then .bound 0 else (ofVariable binders x).lift 0 := by
  by_cases hb : b = x
  · simp [ofVariable, hb]
  · have hx : x ≠ b := Ne.symm hb
    simp only [ofVariable, List.mem_cons, hx, false_or, if_neg hb, List.idxOf_cons_ne _ hb]
    split <;> rfl

theorem lift_ofVariable_inj {binders binders' : List String} :
    (ofVariable binders x).lift 0 = (ofVariable binders' y).lift 0 ↔
      ofVariable binders x = ofVariable binders' y := by
  simp only [ofVariable]
  split <;> split <;> simp [lift]

theorem lift_ofVariable_ne_bound (binders : List String) (x : String) :
    (ofVariable binders x).lift 0 ≠ .bound 0 := by
  simp only [ofVariable]
  split <;> simp [lift]

/-! ## Free variables -/

@[simp] theorem names_lift (n : Nameless) (k : Nat) : (n.lift k).names = n.names := by
  induction n generalizing k with
  | bound i => simp only [lift]; split <;> rfl
  | free | const => rfl
  | lam b ih => exact ih (k + 1)
  | app l r ihl ihr | join _ l r ihl ihr | prim _ l r ihl ihr => simp only [lift, names, ihl, ihr]

/-- Binding a variable strikes its free occurrences off. -/
theorem names_close (n : Nameless) (k : Nat) (x : String) :
    (n.close k x).names = n.names.filter (· ≠ x) := by
  induction n generalizing k with
  | bound | const => rfl
  | free z =>
    by_cases hz : z = x
    · simp [close, names, hz]
    · simp [close, names, hz]
  | lam b ih => exact ih (k + 1)
  | app l r ihl ihr | join _ l r ihl ihr | prim _ l r ihl ihr =>
    simp only [close, names, List.filter_append, ihl, ihr]

@[simp] theorem mem_names_close (n : Nameless) (k : Nat) :
    y ∈ (n.close k x).names ↔ y ∈ n.names ∧ y ≠ x := by
  simp [names_close]

theorem mem_names_subst (n u : Nameless) :
    y ∈ (n.subst x u).names ↔ (y ∈ n.names ∧ y ≠ x) ∨ (x ∈ n.names ∧ y ∈ u.names) := by
  induction n generalizing u with
  | bound | const => simp [subst, names]
  | free z =>
    by_cases hz : z = x
    · simp [subst, names, hz]
    · have hx : x ≠ z := Ne.symm hz
      simp only [subst, if_neg hz, names, List.mem_singleton, hx, false_and, or_false]
      exact ⟨fun h => ⟨h, h ▸ hz⟩, And.left⟩
  | lam b ih => simp only [subst, names, ih, names_lift]
  | app l r ihl ihr | join _ l r ihl ihr | prim _ l r ihl ihr =>
    simp only [subst, names, List.mem_append, ihl, ihr]
    tauto

/-! ## What does not occur -/

theorem close_of_notMem (h : x ∉ n.names) (k : Nat) : n.close k x = n := by
  induction n generalizing k with
  | bound | const => rfl
  | free y => exact if_neg fun hy => h (by simp [names, hy])
  | lam b ih => rw [close, ih h]
  | app l r ihl ihr | join _ l r ihl ihr | prim _ l r ihl ihr =>
    simp only [names, List.mem_append, not_or] at h
    rw [close, ihl h.1, ihr h.2]

theorem subst_of_notMem (h : x ∉ n.names) (u : Nameless) : n.subst x u = n := by
  induction n generalizing u with
  | bound | const => rfl
  | free y => exact if_neg fun hy => h (by simp [names, hy])
  | lam b ih => rw [subst, ih h]
  | app l r ihl ihr | join _ l r ihl ihr | prim _ l r ihl ihr =>
    simp only [names, List.mem_append, not_or] at h
    rw [subst, ihl h.1, ihr h.2]

/-! ## Binding and substituting -/

/-- Substitution passes a binder of another variable that does not capture. -/
theorem subst_close (hyx : y ≠ x) (hy : y ∉ u.names) (n : Nameless) (k : Nat) :
    (n.close k y).subst x u = (n.subst x u).close k y := by
  induction n generalizing u k with
  | bound | const => rfl
  | free z =>
    by_cases hzy : z = y
    · subst hzy
      simp only [close, subst, if_neg hyx, if_true]
    · by_cases hzx : z = x
      · subst hzx
        simp only [close, subst, if_neg hzy, if_true, close_of_notMem hy]
      · simp only [close, subst, if_neg hzy, if_neg hzx]
  | lam b ih =>
    have hlift : y ∉ (u.lift 0).names := by rwa [names_lift]
    simp only [close, subst, ih hlift]
  | app l r ihl ihr | join _ l r ihl ihr | prim _ l r ihl ihr =>
    simp only [close, subst, ihl hy, ihr hy]

/-- Renaming a variable to a new one before binding it changes nothing. -/
theorem close_subst_free (hz : z ∉ n.names) (k : Nat) :
    (n.subst y (.free z)).close k z = n.close k y := by
  induction n generalizing k with
  | bound | const => rfl
  | free w =>
    have hw : w ≠ z := fun h => hz (by simp [names, h])
    by_cases hwy : w = y
    · simp only [subst, close, if_pos hwy, if_true]
    · simp only [subst, close, if_neg hwy, if_neg hw]
  | lam b ih => exact congrArg Nameless.lam (ih hz (k + 1))
  | app l r ihl ihr | join _ l r ihl ihr | prim _ l r ihl ihr =>
    simp only [names, List.mem_append, not_or] at hz
    simp only [subst, close, ihl hz.1, ihr hz.2]

/-- **Binding a variable and filling its place is substitution**, where every bound variable has its
binder among the `k` innermost ones. -/
theorem fill_close {k : Nat} (hn : n.lift k = n) (u : Nameless) :
    (n.close k x).fill k u = n.subst x u := by
  induction n generalizing k u with
  | bound i =>
    have hi : i ≠ k := by
      rintro rfl
      simp [lift] at hn
    exact if_neg hi
  | const => rfl
  | free y =>
    by_cases hy : y = x
    · simp only [close, subst, if_pos hy, fill, if_true]
    · simp only [close, subst, if_neg hy, fill]
  | lam b ih => exact congrArg Nameless.lam (ih (Nameless.lam.inj hn) (u.lift 0))
  | app l r ihl ihr | join _ l r ihl ihr | prim _ l r ihl ihr =>
    simp only [lift, app.injEq, join.injEq, prim.injEq, true_and] at hn
    simp only [close, subst, fill, ihl hn.1, ihr hn.2]

end Nameless

namespace Expr

open Nameless

/-- The expression without its bound names, under the binders of the names listed. -/
def namelessUnder (binders : List String) : Expr → Nameless
  | .var x => ofVariable binders x
  | .const p => .const p
  | .lam x b => .lam (b.namelessUnder (x :: binders))
  | .app f a => .app (f.namelessUnder binders) (a.namelessUnder binders)
  | .join c l r => .join c (l.namelessUnder binders) (r.namelessUnder binders)
  | .prim o l r => .prim o (l.namelessUnder binders) (r.namelessUnder binders)

/-- The expression without its bound names. -/
def nameless (e : Expr) : Nameless := e.namelessUnder []

variable {e e' : Expr}

/-! ## Binders -/

theorem namelessUnder_concat (e : Expr) (binders : List String) (x : String) :
    e.namelessUnder (binders ++ [x]) = (e.namelessUnder binders).close binders.length x := by
  induction e generalizing binders with
  | var y =>
    simp only [namelessUnder, ofVariable, List.mem_append, List.mem_singleton]
    by_cases hy : y ∈ binders
    · simp [hy, close, List.idxOf_append_of_mem]
    · by_cases hyx : y = x
      · subst hyx
        simp [hy, close, List.idxOf_append_of_notMem]
      · simp [hy, hyx, close]
  | const => rfl
  | lam y b ih => exact congrArg Nameless.lam (ih (y :: binders))
  | app l r ihl ihr | join _ l r ihl ihr | prim _ l r ihl ihr =>
    simp only [namelessUnder, close, ihl, ihr]

@[simp] theorem nameless_var (x : String) : (Expr.var x).nameless = .free x := rfl

@[simp] theorem nameless_const (p : Prime) : (Expr.const p).nameless = .const p := rfl

/-- A binder closes its body over the variable. -/
@[simp] theorem nameless_lam (x : String) (b : Expr) :
    (Expr.lam x b).nameless = .lam (b.nameless.close 0 x) :=
  congrArg Nameless.lam (namelessUnder_concat b [] x)

@[simp] theorem nameless_app (f a : Expr) :
    (Expr.app f a).nameless = .app f.nameless a.nameless := rfl

@[simp] theorem nameless_join (c : Connective) (l r : Expr) :
    (Expr.join c l r).nameless = .join c l.nameless r.nameless := rfl

@[simp] theorem nameless_prim (o : String) (l r : Expr) :
    (Expr.prim o l r).nameless = .prim o l.nameless r.nameless := rfl

/-- Every bound variable has its binder. -/
theorem lift_namelessUnder (e : Expr) (binders : List String) :
    (e.namelessUnder binders).lift binders.length = e.namelessUnder binders := by
  induction e generalizing binders with
  | var x =>
    simp only [namelessUnder, ofVariable]
    split
    · rename_i hx
      exact if_pos (List.idxOf_lt_length_iff.2 hx)
    · rfl
  | const => rfl
  | lam x b ih => exact congrArg Nameless.lam (ih (x :: binders))
  | app l r ihl ihr | join _ l r ihl ihr | prim _ l r ihl ihr =>
    simp only [namelessUnder, lift, ihl, ihr]

@[simp] theorem lift_nameless (e : Expr) : e.nameless.lift 0 = e.nameless :=
  lift_namelessUnder e []

/-! ## Free variables -/

/-- The free occurrences of variables are kept, in their order. -/
theorem names_nameless (e : Expr) : e.nameless.names = e.free := by
  induction e with
  | var | const => rfl
  | lam y b ih => rw [nameless_lam, names, names_close, ih, free]
  | app l r ihl ihr | join _ l r ihl ihr | prim _ l r ihl ihr =>
    simp only [nameless_app, nameless_join, nameless_prim, names, free, ihl, ihr]

theorem mem_names_nameless {x : String} (e : Expr) : x ∈ e.nameless.names ↔ x ∈ e.free := by
  rw [names_nameless]

/-! ## Equality up to bound names -/

/-- Pairs of binders match two variables exactly when both stand for the same nameless one. -/
theorem sameVariable_iff (bs : List (String × String)) (x y : String) :
    sameVariable bs x y = true ↔
      ofVariable (bs.map Prod.fst) x = ofVariable (bs.map Prod.snd) y := by
  induction bs with
  | nil => simp [sameVariable, ofVariable]
  | cons b bs ih =>
    obtain ⟨l, r⟩ := b
    simp only [sameVariable, List.map_cons, ofVariable_cons]
    by_cases hx : l = x
    · by_cases hy : r = y
      · simp [hx, hy]
      · simp [hx, hy, (lift_ofVariable_ne_bound _ y).symm]
    · by_cases hy : r = y
      · simp [hx, hy, lift_ofVariable_ne_bound _ x]
      · simp [hx, hy, ih, lift_ofVariable_inj]

theorem alphaEqUnder_iff (e e' : Expr) (bs : List (String × String)) :
    alphaEqUnder bs e e' = true ↔
      e.namelessUnder (bs.map Prod.fst) = e'.namelessUnder (bs.map Prod.snd) := by
  induction e generalizing e' bs with
  | var x =>
    cases e' with
    | var y => exact sameVariable_iff bs x y
    | _ => simp only [alphaEqUnder, namelessUnder, ofVariable]; split <;> simp
  | const p =>
    cases e' with
    | var y => simp only [alphaEqUnder, namelessUnder, ofVariable]; split <;> simp
    | _ => simp [alphaEqUnder, namelessUnder]
  | lam x b ih =>
    cases e' with
    | var y => simp only [alphaEqUnder, namelessUnder, ofVariable]; split <;> simp
    | lam y b' => simpa [alphaEqUnder, namelessUnder] using ih b' ((x, y) :: bs)
    | _ => simp [alphaEqUnder, namelessUnder]
  | app l r ihl ihr | join _ l r ihl ihr | prim _ l r ihl ihr =>
    cases e' with
    | var y => simp only [alphaEqUnder, namelessUnder, ofVariable]; split <;> simp
    | _ => simp [alphaEqUnder, namelessUnder, ihl, ihr, and_assoc]

/-- **Two expressions are equal up to bound names if they are the same without them.** -/
theorem alphaEq_iff {e e' : Expr} : e.alphaEq e' = true ↔ e.nameless = e'.nameless :=
  alphaEqUnder_iff e e' []

end Expr

end PrimeLanguage
