import Mathlib.Data.List.Forall2
import PrimeLanguage.Proofs.Reduction.Run
import PrimeLanguage.Proofs.Typing.Derivation

/-!
# Replacing fusions

What typing, meaning and reduction do not see of a term: which fusion stands for a prime.

* `Term.mapFusions` — a term with every fusion replaced by another one;
* `Term.Related` — two terms that are the same except for related fusions at the same places;
* `Error.SameCause`, `Corresponds` — two results that both succeed, with related values, or both
  fail, for causes of the same kind.

Principal results, for every replacement that keeps the prime a fusion stands for, if there is one:
`infer_mapFusions`, `meaning_mapFusions` and `normalize_mapFusions`.  One step is followed by
`contract_mapFusions`: the replaced term contracts at the same place by the same rule, and what it
contracts to is replaced the same way.  Terminal terms hold no fusion outside of adjectives and
nouns (`mapFusions_of_terminal`), so a run ends where the run of the replaced term ends.
-/

namespace PrimeLanguage

/-! ## Results of the same kind -/

/-- The errors have the same cause, whatever they are about. -/
def Error.SameCause (err err' : Error) : Prop := err.ctorIdx = err'.ctorIdx

/-- Both results succeed, with related values, or both fail, with the same cause. -/
inductive Corresponds {α β : Type} (R : α → β → Prop) : Except Error α → Except Error β → Prop where
  | ok {a : α} {b : β} (h : R a b) : Corresponds R (.ok a) (.ok b)
  | error {err err' : Error} (h : err.SameCause err') : Corresponds R (.error err) (.error err')

namespace Corresponds

variable {α β γ δ : Type} {R : α → β → Prop} {S : γ → δ → Prop}
  {x : Except Error α} {y : Except Error β}

theorem refl (x : Except Error α) : Corresponds Eq x x := by
  cases x with
  | error err => exact .error rfl
  | ok a => exact .ok rfl

theorem exists_ok {b : β} (h : Corresponds R x (.ok b)) : ∃ a, x = .ok a ∧ R a b := by
  cases h with
  | ok h => exact ⟨_, rfl, h⟩

theorem bind {f : α → Except Error γ} {g : β → Except Error δ} (h : Corresponds R x y)
    (hf : ∀ a b, R a b → Corresponds S (f a) (g b)) : Corresponds S (x >>= f) (y >>= g) := by
  cases h with
  | ok h => exact hf _ _ h
  | error h => exact .error h

theorem map {f : α → γ} {g : β → δ} (h : Corresponds R x y) (hf : ∀ a b, R a b → S (f a) (g b)) :
    Corresponds S (x.map f) (y.map g) := by
  cases h with
  | ok h => exact .ok (hf _ _ h)
  | error h => exact .error h

end Corresponds

/-! ## Replacing -/

/-- The replacement keeps the prime that a fusion stands for, if there is one. -/
def KeepsFused (g : Fusion → Fusion) : Prop := ∀ f, (g f).fused? = f.fused?

namespace Term

mutual

/-- The term with every fusion replaced. -/
def mapFusions (g : Fusion → Fusion) : Term → Term
  | .noun p => .noun p
  | .adj p => .adj p
  | .chain o os e => .chain (o.mapFusions g) (mapFusionsAll g os) (e.mapFusions g)
  | .fusion f => .fusion (g f)
  | .sentence e => .sentence (e.mapFusions g)
  | .join c l r => .join c (l.mapFusions g) (r.mapFusions g)

/-- The terms of a list with every fusion replaced. -/
def mapFusionsAll (g : Fusion → Fusion) : List Term → List Term
  | [] => []
  | t :: ts => t.mapFusions g :: mapFusionsAll g ts

end

variable {g : Fusion → Fusion}

theorem mapFusionsAll_eq (g : Fusion → Fusion) (ts : List Term) :
    mapFusionsAll g ts = ts.map (mapFusions g) := by
  induction ts with
  | nil => rfl
  | cons t ts ih => simp [mapFusionsAll, ih]

theorem mapFusions_ofOperators (os : List Term) (e : Term) :
    (ofOperators os e).mapFusions g = ofOperators (mapFusionsAll g os) (e.mapFusions g) := by
  cases os <;> rfl

@[simp] theorem isNounShaped_mapFusions (t : Term) :
    (t.mapFusions g).isNounShaped = t.isNounShaped := by
  cases t <;> rfl

@[simp] theorem shape_mapFusions (t : Term) : (t.mapFusions g).shape = t.shape := by
  cases t with
  | join c l r => cases c <;> rfl
  | noun | adj | chain | fusion | sentence => rfl

@[simp] theorem weight_mapFusions (w : Nat) (t : Term) :
    (t.mapFusions g).weight w = t.weight w := by
  induction t using Term.induction with
  | noun | adj | fusion => rfl
  | chain o os e _ _ ih => simp [mapFusions, weight, ih, mapFusionsAll_eq]
  | sentence e ih => simpa [mapFusions, weight] using ih
  | join c l r ihl ihr => simp [mapFusions, weight, ihl, ihr]

/-! ## Terms up to fusions -/

variable {R : Fusion → Fusion → Prop}

/-- The terms are the same except for related fusions at the same places. -/
inductive Related (R : Fusion → Fusion → Prop) : Term → Term → Prop where
  | noun (p : Prime) : Related R (.noun p) (.noun p)
  | adj (p : Prime) : Related R (.adj p) (.adj p)
  | chain {o o' : Term} {os os' : List Term} {e e' : Term} (ho : Related R o o')
    (hos : List.Forall₂ (Related R) os os') (he : Related R e e') :
    Related R (.chain o os e) (.chain o' os' e')
  | fusion {f f' : Fusion} (h : R f f') : Related R (.fusion f) (.fusion f')
  | sentence {e e' : Term} (he : Related R e e') : Related R (.sentence e) (.sentence e')
  | join (c : Connective) {l l' r r' : Term} (hl : Related R l l') (hr : Related R r r') :
    Related R (.join c l r) (.join c l' r')

theorem related_mapFusions (h : ∀ f, R f (g f)) (t : Term) : Related R t (t.mapFusions g) := by
  induction t using Term.induction with
  | noun p => exact .noun p
  | adj p => exact .adj p
  | chain o os e iho ihos ihe =>
    refine .chain iho ?_ ihe
    rw [mapFusionsAll_eq, List.forall₂_map_right_iff, List.forall₂_same]
    exact ihos
  | fusion f => exact .fusion (h f)
  | sentence e ih => exact .sentence ih
  | join c l r ihl ihr => exact .join c ihl ihr

theorem mapFusionsAll_eq_iff {ts : List Term}
    (ih : ∀ t ∈ ts, ∀ u, t.mapFusions g = u.mapFusions g ↔ Related R t u) (us : List Term) :
    mapFusionsAll g ts = mapFusionsAll g us ↔ List.Forall₂ (Related R) ts us := by
  induction ts generalizing us with
  | nil => cases us <;> simp [mapFusionsAll]
  | cons t ts ihs =>
    obtain ⟨iht, ihts⟩ := List.forall_mem_cons.1 ih
    cases us with
    | nil => simp [mapFusionsAll]
    | cons u us =>
      simp only [mapFusionsAll, List.cons.injEq, List.forall₂_cons, iht u, ihs ihts us]

/-- **Replaced terms are equal when the terms are the same up to fusions that are replaced alike.** -/
theorem mapFusions_eq_iff (h : ∀ f f', g f = g f' ↔ R f f') (t u : Term) :
    t.mapFusions g = u.mapFusions g ↔ Related R t u := by
  induction t using Term.induction generalizing u with
  | noun p =>
    cases u with
    | noun q => exact ⟨fun heq => Term.noun.inj heq ▸ .noun p, fun hrel => by cases hrel; rfl⟩
    | adj | chain | fusion | sentence | join => constructor <;> intro hu <;> cases hu
  | adj p =>
    cases u with
    | adj q => exact ⟨fun heq => Term.adj.inj heq ▸ .adj p, fun hrel => by cases hrel; rfl⟩
    | noun | chain | fusion | sentence | join => constructor <;> intro hu <;> cases hu
  | chain o os e iho ihos ihe =>
    cases u with
    | chain o' os' e' =>
      simp only [mapFusions, Term.chain.injEq, iho, mapFusionsAll_eq_iff ihos, ihe]
      exact ⟨fun ⟨ho, hos, he⟩ => .chain ho hos he, fun (.chain ho hos he) => ⟨ho, hos, he⟩⟩
    | noun | adj | fusion | sentence | join => constructor <;> intro hu <;> cases hu
  | fusion f =>
    cases u with
    | fusion f' =>
      simp only [mapFusions, Term.fusion.injEq, h]
      exact ⟨.fusion, fun (.fusion hf) => hf⟩
    | noun | adj | chain | sentence | join => constructor <;> intro hu <;> cases hu
  | sentence e ih =>
    cases u with
    | sentence e' =>
      simp only [mapFusions, Term.sentence.injEq, ih]
      exact ⟨.sentence, fun (.sentence he) => he⟩
    | noun | adj | chain | fusion | join => constructor <;> intro hu <;> cases hu
  | join c l r ihl ihr =>
    cases u with
    | join c' l' r' =>
      simp only [mapFusions, Term.join.injEq, ihl, ihr]
      constructor
      · rintro ⟨rfl, hl, hr⟩
        exact .join c hl hr
      · intro hrel
        cases hrel with
        | join _ hl hr => exact ⟨rfl, hl, hr⟩
    | noun | adj | chain | fusion | sentence => constructor <;> intro hu <;> cases hu

theorem mapFusions_idem (h : ∀ f, g (g f) = g f) (t : Term) :
    (t.mapFusions g).mapFusions g = t.mapFusions g := by
  induction t using Term.induction with
  | noun | adj => rfl
  | chain o os e iho ihos ihe =>
    simp only [mapFusions, iho, ihe, mapFusionsAll_eq, List.map_map]
    exact congrArg (Term.chain _ · _) (List.map_congr_left ihos)
  | fusion f => exact congrArg Term.fusion (h f)
  | sentence e ih => exact congrArg Term.sentence ih
  | join c l r ihl ihr => simp only [mapFusions, ihl, ihr]

end Term

open Term

variable {g : Fusion → Fusion} {t : Term}

/-! ## Typing -/

theorem expect_mapFusions (ty : Ty) (kind : Kind) (t : Term) :
    Corresponds Eq (ty.expect kind (t.mapFusions g)) (ty.expect kind t) := by
  unfold Ty.expect
  split
  · exact .refl _
  · exact .error rfl

theorem expectSentence_mapFusions (ty : Ty) (t : Term) :
    Corresponds Eq (ty.expectSentence (t.mapFusions g)) (ty.expectSentence t) := by
  cases ty with
  | sentence s => exact .refl _
  | noun | adj => exact .error rfl

theorem inferOperators_mapFusions {os : List Term}
    (h : ∀ o ∈ os, Corresponds Eq (infer .empty (o.mapFusions g)) (infer .empty o)) :
    Corresponds Eq (inferOperators .empty (mapFusionsAll g os)) (inferOperators .empty os) := by
  induction os with
  | nil => exact .refl _
  | cons o os ih =>
    obtain ⟨ho, hos⟩ := List.forall_mem_cons.1 h
    refine (ih hos).bind fun _ _ _ => ho.bind fun ty _ hty => ?_
    exact hty ▸ expect_mapFusions ty .adj o

/-- **Typing does not see which fusion stands for a prime.** -/
theorem infer_mapFusions (hg : KeepsFused g) (t : Term) :
    Corresponds Eq (infer .empty (t.mapFusions g)) (infer .empty t) := by
  induction t using Term.induction with
  | noun | adj => exact .refl _
  | chain o os e iho ihos ihe =>
    refine (inferOperators_mapFusions ihos).bind fun _ _ _ => ?_
    refine iho.bind fun ty _ hty => hty ▸ (expect_mapFusions ty .adj o).bind fun _ _ _ => ?_
    refine ihe.bind fun ty _ hty => hty ▸ (expect_mapFusions ty .noun e).bind fun _ _ _ => ?_
    simp only [Context.confirm_empty]
    exact .refl _
  | fusion f =>
    simp only [mapFusions, infer, hg f]
    cases f.fused? with
    | none => exact .error rfl
    | some s =>
      simp only [Context.confirm_empty]
      exact .refl _
  | sentence e ih =>
    refine ih.bind fun ty _ hty => hty ▸ (expect_mapFusions ty .noun e).bind fun _ _ _ => ?_
    simp only [Context.confirm_empty]
    exact .refl _
  | join c l r ihl ihr =>
    refine ihl.bind fun ty _ hty => hty ▸ (expectSentence_mapFusions ty l).bind fun s _ hs => ?_
    refine ihr.bind fun ty _ hty => hty ▸ (expectSentence_mapFusions ty r).bind fun s' _ hs' => ?_
    simp only [hs, hs', Context.confirm_empty]
    exact .refl _

/-! ## Meaning -/

theorem applyMeanings_mapFusions (name : String) (os : List Term) (e : Expr) (s : NameSupply) :
    Corresponds Eq (applyMeanings name (mapFusionsAll g os) e s) (applyMeanings name os e s) := by
  induction os generalizing e s with
  | nil => exact .refl _
  | cons o os ih =>
    cases o with
    | adj p => exact ih _ _
    | noun | chain | fusion | sentence | join => exact .error rfl

theorem meaningFrom_mapFusions (hg : KeepsFused g) (name : String) (t : Term) (s : NameSupply) :
    Corresponds Eq ((t.mapFusions g).meaningFrom name s) (t.meaningFrom name s) := by
  induction t using Term.induction generalizing s with
  | noun | adj => exact .refl _
  | chain o os e _ _ ih =>
    simp only [mapFusions, meaningFrom, isNounShaped_mapFusions]
    split
    · refine (ih s).bind fun x _ hx => hx ▸ ?_
      exact applyMeanings_mapFusions name (o :: os) x.1 x.2
    · exact .error rfl
  | fusion f =>
    simp only [mapFusions, meaningFrom, hg f]
    cases f.fused? with
    | none => exact .error rfl
    | some p => exact .refl _
  | sentence e ih => exact ih s
  | join c l r ihl ihr =>
    refine (ihl s).bind fun x _ hx => hx ▸ (ihr x.2).bind fun y _ hy => hy ▸ ?_
    exact .refl _

/-- **The meaning does not show which fusion stands for a prime.** -/
theorem meaning_mapFusions (hg : KeepsFused g) (name : String) (t : Term) :
    Corresponds Eq ((t.mapFusions g).meaning name) (t.meaning name) :=
  (meaningFrom_mapFusions hg name t .start).map fun _ _ h => congrArg Prod.fst h

/-! ## One step -/

/-- A contraction of the replaced term and one of the term: at the same place, by the same rule, and
to the replaced term. -/
structure Contraction.Mapped (g : Fusion → Fusion) (k k' : Contraction) : Prop where
  after : k.after = k'.after.mapFusions g
  path : k.path = k'.path
  rule : k.details.rule = k'.details.rule

namespace Contraction.Mapped

variable {k k' : Contraction}

theorem inChain (h : k.Mapped g k') (o : Term) (os : List Term) :
    (k.inChain (o.mapFusions g) (mapFusionsAll g os)).Mapped g (k'.inChain o os) :=
  ⟨congrArg (Term.chain _ _) h.after, congrArg (_ :: ·) h.path, h.rule⟩

theorem inBody (h : k.Mapped g k') : k.inBody.Mapped g k'.inBody :=
  ⟨congrArg Term.sentence h.after, congrArg (_ :: ·) h.path, h.rule⟩

theorem inLeft (h : k.Mapped g k') (c : Connective) (r : Term) :
    (k.inLeft c (r.mapFusions g)).Mapped g (k'.inLeft c r) :=
  ⟨congrArg (Term.join c · _) h.after, congrArg (_ :: ·) h.path, h.rule⟩

theorem inRight (h : k.Mapped g k') (c : Connective) (l : Term) :
    (k.inRight c (l.mapFusions g)).Mapped g (k'.inRight c l) :=
  ⟨congrArg (Term.join c _) h.after, congrArg (_ :: ·) h.path, h.rule⟩

end Contraction.Mapped

variable {op : Operator} {strategy : Strategy}

theorem applyFirst_mapFusions (o : Term) (os : List Term) (q : Prime) :
    Corresponds (Contraction.Mapped g) (applyFirst op (o.mapFusions g) (mapFusionsAll g os) q)
      (applyFirst op o os q) := by
  cases o with
  | adj p =>
    refine (Corresponds.refl (op.combine p q)).map fun c _ hc => hc ▸ ⟨?_, rfl, rfl⟩
    exact (mapFusions_ofOperators os (.noun c.result)).symm
  | noun | chain | fusion | sentence | join => exact .error rfl

theorem contractExpr_mapFusions (hg : KeepsFused g) (t : Term) :
    Corresponds (Contraction.Mapped g) (contractExpr op (t.mapFusions g)) (contractExpr op t) := by
  fun_induction contractExpr op t with
  | case1 f s hs =>
    simp only [mapFusions, contractExpr, hg f, hs]
    exact .ok ⟨rfl, rfl, rfl⟩
  | case2 f hf =>
    simp only [mapFusions, contractExpr, hg f, hf]
    exact .error rfl
  | case3 o os q => exact applyFirst_mapFusions o os q
  | case4 o os e he ih =>
    cases e with
    | noun q => exact absurd rfl (he q)
    | adj | chain | fusion | sentence | join => exact ih.map fun _ _ h => h.inChain o os
  | case5 t hf hn hc =>
    cases t with
    | fusion f => exact absurd rfl (hf f)
    | chain o os e => exact absurd rfl (hc o os e)
    | noun | adj | sentence | join => exact .error rfl

/-- **A step does not see which fusion stands for a prime**: the redex, the rule and what is left
correspond. -/
theorem contract_mapFusions (hg : KeepsFused g) (t : Term) :
    Corresponds (Option.Rel (Contraction.Mapped g)) (contract op strategy (t.mapFusions g))
      (contract op strategy t) := by
  induction t using Term.induction with
  | noun | adj => exact .ok .none
  | chain o os e => exact (contractExpr_mapFusions hg (.chain o os e)).map fun _ _ => .some
  | fusion f => exact (contractExpr_mapFusions hg (.fusion f)).map fun _ _ => .some
  | sentence e ih =>
    refine ih.bind fun x y h => .ok ?_
    cases h with
    | none => exact .none
    | some h => exact .some h.inBody
  | join c l r ihl ihr =>
    cases strategy with
    | leftmostFirst =>
      refine ihl.bind fun x y h => ?_
      cases h with
      | some h => exact .ok (.some (h.inLeft c r))
      | none =>
        refine ihr.bind fun x y h => .ok ?_
        cases h with
        | none => exact .none
        | some h => exact .some (h.inRight c l)
    | rightmostFirst =>
      refine ihr.bind fun x y h => ?_
      cases h with
      | some h => exact .ok (.some (h.inRight c l))
      | none =>
        refine ihl.bind fun x y h => .ok ?_
        cases h with
        | none => exact .none
        | some h => exact .some (h.inLeft c r)

/-- A terminal term has nothing to replace. -/
theorem mapFusions_of_terminal (h : contract op strategy t = .ok none) : t.mapFusions g = t := by
  induction t using Term.induction with
  | noun | adj => rfl
  | chain | fusion =>
    obtain ⟨k, _, hk⟩ := map_eq_ok_iff.1 h
    cases hk
  | sentence e ih =>
    obtain ⟨x, hx, hnone⟩ := bind_eq_ok_iff.1 h
    cases x with
    | some k => cases hnone
    | none => rw [mapFusions, ih hx]
  | join c l r ihl ihr =>
    obtain ⟨hl, hr⟩ := Operator.contract_join_none h
    rw [mapFusions, ihl hl, ihr hr]

/-! ## Runs -/

/-- Rule and place of a step. -/
def Step.outline (s : Step) : Rule × List Position := (s.rule, s.path)

namespace Engine

variable {e : Engine}

/-- A step of the replaced term and one of the term: at the same place, by the same rule, and to the
replaced term. -/
theorem step_mapFusions (hg : KeepsFused g) (e : Engine) (t : Term) :
    Corresponds
      (Option.Rel fun s s' => s.outline = s'.outline ∧ s.after = s'.after.mapFusions g)
      (e.step (t.mapFusions g)) (e.step t) := by
  refine (contract_mapFusions hg t).map fun x y h => ?_
  cases h with
  | none => exact .none
  | some h => exact .some ⟨Prod.ext h.rule h.path, h.after⟩

theorem run_mapFusions (hg : KeepsFused g) (e : Engine) (m : Nat) (t : Term) :
    Corresponds
      (fun ss ss' => ss.map Step.outline = ss'.map Step.outline ∧
        (Trace.mk (t.mapFusions g) ss).final = (Trace.mk t ss').final)
      (e.run m (t.mapFusions g)) (e.run m t) := by
  induction m generalizing t with
  | zero =>
    have hstep := step_mapFusions hg e t
    rw [run, run]
    generalize e.step (t.mapFusions g) = x at hstep
    generalize hy : e.step t = y at hstep
    cases hstep with
    | error h => exact .error h
    | ok h =>
      cases h with
      | none => exact .ok ⟨rfl, mapFusions_of_terminal (step_eq_ok_none hy)⟩
      | some h => exact .error rfl
  | succ m ih =>
    have hstep := step_mapFusions hg e t
    rw [run, run]
    generalize e.step (t.mapFusions g) = x at hstep
    generalize hy : e.step t = y at hstep
    cases hstep with
    | error h => exact .error h
    | ok h =>
      cases h with
      | none => exact .ok ⟨rfl, mapFusions_of_terminal (step_eq_ok_none hy)⟩
      | @some s s' h =>
        have hrun := ih s'.after
        rw [← h.2] at hrun
        refine hrun.bind fun ss ss' hss => .ok ⟨?_, ?_⟩
        · rw [List.map_cons, List.map_cons, h.1, hss.1]
        · rw [Trace.final_cons, Trace.final_cons, hss.2]

/-- **A normalization does not show which fusions stood for a prime.** -/
theorem normalize_mapFusions (hg : KeepsFused g) (e : Engine) (t : Term) :
    Corresponds
      (fun x y => x.final = y.final ∧ x.steps.map Step.outline = y.steps.map Step.outline)
      (e.normalize (t.mapFusions g)) (e.normalize t) :=
  (run_mapFusions hg e e.maxSteps t).map fun _ _ h => ⟨h.2, h.1⟩

end Engine

end PrimeLanguage
