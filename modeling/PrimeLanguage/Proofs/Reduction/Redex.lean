import PrimeLanguage.Lambda.Meaning
import PrimeLanguage.Reduction.Step
import PrimeLanguage.Proofs.Results

/-!
# Redexes

What a contraction can be, said once for every way in which a redex is chosen.

* `Operator.Contracts` — a redex of a term, at any place that sentences and joins lead to, and its
  contraction.

`contracts_of_contract` and `contracts_of_mem_contractAll` say that the redex of a strategy and all
redexes of a term are of this kind, so that a property of contractions is shown by one induction;
`Contracts.measure` is the first of them.  `contract_join_none`, `contract_join_some` and
`contract_join_error` say which part of a join an answer comes from.
-/

namespace PrimeLanguage

namespace Operator

variable {op : Operator} {strategy : Strategy} {t : Term}

/-! ## Redexes of noun expressions -/

theorem isNounShaped_ofOperators (os : List Term) (q : Prime) :
    (Term.ofOperators os (.noun q)).isNounShaped = true := by
  cases os <;> rfl

theorem applyFirst_eq_ok {o : Term} {os : List Term} {q : Prime} {k : Contraction}
    (h : applyFirst op o os q = .ok k) : ∃ p c, o = .adj p ∧ op.combine p q = .ok c ∧
      k = ⟨.ofOperators os (.noun c.result), [], .apply p q c⟩ := by
  cases o with
  | adj p =>
    obtain ⟨c, hc, rfl⟩ := map_eq_ok_iff.1 h
    exact ⟨p, c, rfl, hc, rfl⟩
  | noun | chain | fusion | sentence | join => cases h

/-- Only noun expressions contract, and they stay noun expressions. -/
theorem isNounShaped_of_contractExpr {k : Contraction} (h : contractExpr op t = .ok k) :
    t.isNounShaped = true ∧ k.after.isNounShaped = true := by
  fun_induction contractExpr op t generalizing k with
  | case1 f s hs => cases h; exact ⟨rfl, rfl⟩
  | case2 | case5 => cases h
  | case3 o os q =>
    obtain ⟨p, c, rfl, _, rfl⟩ := applyFirst_eq_ok h
    exact ⟨rfl, isNounShaped_ofOperators os c.result⟩
  | case4 o os e _ ih =>
    obtain ⟨k', _, rfl⟩ := map_eq_ok_iff.1 h
    exact ⟨rfl, rfl⟩

/-! ## Redexes of joins

A part is contracted when the strategy looks at it first, or when the other part is terminal. -/

section Join

variable {c : Connective} {l r : Term}

theorem contract_join_none (h : contract op strategy (.join c l r) = .ok none) :
    contract op strategy l = .ok none ∧ contract op strategy r = .ok none := by
  cases strategy with
  | leftmostFirst =>
    obtain ⟨x, hl, h⟩ := bind_eq_ok_iff.1 h
    cases x with
    | some k => cases h
    | none =>
      obtain ⟨y, hr, h⟩ := bind_eq_ok_iff.1 h
      cases y with
      | some k => cases h
      | none => exact ⟨hl, hr⟩
  | rightmostFirst =>
    obtain ⟨y, hr, h⟩ := bind_eq_ok_iff.1 h
    cases y with
    | some k => cases h
    | none =>
      obtain ⟨x, hl, h⟩ := bind_eq_ok_iff.1 h
      cases x with
      | some k => cases h
      | none => exact ⟨hl, hr⟩

theorem contract_join_some {k : Contraction}
    (h : contract op strategy (.join c l r) = .ok (some k)) :
    (∃ k', contract op strategy l = .ok (some k') ∧ k = k'.inLeft c r ∧
      (strategy = .rightmostFirst → contract op strategy r = .ok none)) ∨
    (∃ k', contract op strategy r = .ok (some k') ∧ k = k'.inRight c l ∧
      (strategy = .leftmostFirst → contract op strategy l = .ok none)) := by
  cases strategy with
  | leftmostFirst =>
    obtain ⟨x, hl, h⟩ := bind_eq_ok_iff.1 h
    cases x with
    | some k' => cases h; exact Or.inl ⟨k', hl, rfl, fun hs => by cases hs⟩
    | none =>
      obtain ⟨y, hr, h⟩ := bind_eq_ok_iff.1 h
      cases y with
      | some k' => cases h; exact Or.inr ⟨k', hr, rfl, fun _ => hl⟩
      | none => cases h
  | rightmostFirst =>
    obtain ⟨y, hr, h⟩ := bind_eq_ok_iff.1 h
    cases y with
    | some k' => cases h; exact Or.inr ⟨k', hr, rfl, fun hs => by cases hs⟩
    | none =>
      obtain ⟨x, hl, h⟩ := bind_eq_ok_iff.1 h
      cases x with
      | some k' => cases h; exact Or.inl ⟨k', hl, rfl, fun _ => hr⟩
      | none => cases h

theorem contract_join_error {err : Error}
    (h : contract op strategy (.join c l r) = .error err) :
    (contract op strategy l = .error err ∧
      (strategy = .rightmostFirst → contract op strategy r = .ok none)) ∨
    (contract op strategy r = .error err ∧
      (strategy = .leftmostFirst → contract op strategy l = .ok none)) := by
  cases strategy with
  | leftmostFirst =>
    rcases bind_eq_error_iff.1 h with hl | ⟨x, hl, h⟩
    · exact Or.inl ⟨hl, fun hs => by cases hs⟩
    · cases x with
      | some k => cases h
      | none =>
        rcases bind_eq_error_iff.1 h with hr | ⟨y, _, h⟩
        · exact Or.inr ⟨hr, fun _ => hl⟩
        · cases h
  | rightmostFirst =>
    rcases bind_eq_error_iff.1 h with hr | ⟨y, hr, h⟩
    · exact Or.inr ⟨hr, fun hs => by cases hs⟩
    · cases y with
      | some k => cases h
      | none =>
        rcases bind_eq_error_iff.1 h with hl | ⟨x, _, h⟩
        · exact Or.inl ⟨hl, fun _ => hr⟩
        · cases h

end Join

/-! ## Any redex -/

/-- `k` contracts a redex of the term. -/
inductive Contracts (op : Operator) : Term → Contraction → Prop where
  | expr {t : Term} {k : Contraction} (h : contractExpr op t = .ok k) : Contracts op t k
  | body {e : Term} {k : Contraction} (h : Contracts op e k) : Contracts op (.sentence e) k.inBody
  | left {c : Connective} {l r : Term} {k : Contraction} (h : Contracts op l k) :
    Contracts op (.join c l r) (k.inLeft c r)
  | right {c : Connective} {l r : Term} {k : Contraction} (h : Contracts op r k) :
    Contracts op (.join c l r) (k.inRight c l)

theorem contracts_of_contract {k : Contraction} (h : contract op strategy t = .ok (some k)) :
    op.Contracts t k := by
  induction t using Term.induction generalizing k with
  | noun | adj => cases h
  | chain | fusion =>
    obtain ⟨k', hk, hsome⟩ := map_eq_ok_iff.1 h
    cases hsome
    exact .expr hk
  | sentence e ih =>
    obtain ⟨x, hk, hsome⟩ := bind_eq_ok_iff.1 h
    cases x with
    | none => cases hsome
    | some k' => cases hsome; exact .body (ih hk)
  | join c l r ihl ihr =>
    rcases contract_join_some h with ⟨k', hl, rfl, _⟩ | ⟨k', hr, rfl, _⟩
    · exact .left (ihl hl)
    · exact .right (ihr hr)

theorem contracts_of_mem_contractAll {ks : List Contraction} {k : Contraction}
    (h : contractAll op t = .ok ks) (hk : k ∈ ks) : op.Contracts t k := by
  induction t using Term.induction generalizing ks k with
  | noun | adj => cases h; cases hk
  | chain | fusion =>
    obtain ⟨k', hk', rfl⟩ := map_eq_ok_iff.1 h
    rw [List.mem_singleton.1 hk]
    exact .expr hk'
  | sentence e ih =>
    obtain ⟨ks', he, h⟩ := bind_eq_ok_iff.1 h
    cases h
    obtain ⟨k', hk', rfl⟩ := List.mem_map.1 hk
    exact .body (ih he hk')
  | join c l r ihl ihr =>
    obtain ⟨ls, hl, h⟩ := bind_eq_ok_iff.1 h
    obtain ⟨rs, hr, h⟩ := bind_eq_ok_iff.1 h
    cases h
    rcases List.mem_append.1 hk with hk | hk
    · obtain ⟨k', hk', rfl⟩ := List.mem_map.1 hk
      exact .left (ihl hl hk')
    · obtain ⟨k', hk', rfl⟩ := List.mem_map.1 hk
      exact .right (ihr hr hk')

/-- **A contraction takes one off the measure**, whatever redex it contracts. -/
theorem Contracts.measure {k : Contraction} (h : op.Contracts t k) :
    k.after.measure + 1 = t.measure := by
  induction h with
  | expr h => exact contractExpr_measure h
  | body _ ih => exact ih
  | left _ ih | right _ ih =>
    simp only [Contraction.inLeft, Contraction.inRight, Term.measure, Term.weight] at ih ⊢
    omega

end Operator

end PrimeLanguage
