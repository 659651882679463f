import PrimeLanguage.Proofs.Lambda.Renaming
import PrimeLanguage.Proofs.Lambda.Steps
import PrimeLanguage.Proofs.Semantics.Agreement
import PrimeLanguage.Proofs.Reduction.Accounting

/-!
# Step bounds are budgets

A larger bound changes no answer that a smaller one allows for; where the smaller one is used up,
reduction and evaluation go on from where they stopped.

* `Engine.normalize_of_le`, `Engine.leads_of_nonTermination`, `Engine.Leads.isPrefix` — the engine;
* `Evaluator.run_add`, `Evaluator.evaluate_of_le` — the evaluator;
* `Semantics.agreement_of_le`, `Semantics.equivalent_of_le` — both together.

Two evaluations that are not finished may draw different names when they go on, so the last of these
rests on `Evaluator.run_alike`.

Principal result: `bounds_are_budgets`.
-/

namespace PrimeLanguage

/-! ## Reduction -/

namespace Engine

variable {op : Operator} {strategy : Strategy} {e : Engine} {m m' n : Nat} {t u u' : Term}
  {ss ss' : List Step} {trace : Trace}

/-- The bound has no part in the steps. -/
theorem Leads.rebound (h : (Engine.mk op m strategy).Leads t ss u) (m' : Nat) :
    (Engine.mk op m' strategy).Leads t ss u := by
  induction h with
  | nil t => exact .nil t
  | cons hstep _ ih => exact .cons hstep ih

/-- The engine takes one way only. -/
theorem Leads.isPrefix (h : e.Leads t ss u) (h' : e.Leads t ss' u')
    (hle : ss.length ≤ ss'.length) : ss <+: ss' := by
  induction h generalizing ss' with
  | nil t => exact List.nil_prefix
  | cons hstep _ ih =>
    cases h' with
    | nil => exact absurd hle (Nat.not_succ_le_zero _)
    | cons hstep' rest' =>
      rw [hstep] at hstep'
      cases hstep'
      exact List.cons_prefix_cons.2 ⟨rfl, ih rest' (Nat.le_of_succ_le_succ hle)⟩

/-- **A trace within a bound is the trace within every larger one.** -/
theorem normalize_of_le (hm : m ≤ m') (h : (Engine.mk op m strategy).normalize t = .ok trace) :
    (Engine.mk op m' strategy).normalize t = .ok trace := by
  obtain ⟨hinit, ⟨u, hleads, hend⟩, hlen⟩ := normalize_eq_ok_iff.1 h
  exact normalize_eq_ok_iff.2 ⟨hinit, ⟨u, hleads.rebound m', hend⟩, Nat.le_trans hlen hm⟩

/-- **A run for want of steps has led as far as the bound allows**, to a term with another step. -/
theorem leads_of_run_nonTermination {k : Nat} (h : e.run n t = .error (.nonTermination k u)) :
    e.operator.Refuses (.nonTermination k u) ∨
    k = e.maxSteps ∧ ∃ ss s, e.Leads t ss u ∧ ss.length = n ∧ e.step u = .ok (some s) := by
  rcases leads_of_run_error h with hbig | ⟨ss, u, s, hleads, hlen, hstep, herr⟩
  · rcases Operator.blames_or_refuses_of_bigStep_error hbig "" with ⟨_, _, err, _, hblame⟩ | href
    · cases hblame
    · exact Or.inl href
  · cases herr
    exact Or.inr ⟨rfl, ss, s, hleads, hlen, hstep⟩

/-- **What is reported for want of steps is reached by as many steps as the bound**, and they start
every trace within another bound. -/
theorem leads_of_nonTermination {k : Nat}
    (h : (Engine.mk op m strategy).normalize t = .error (.nonTermination k u)) :
    op.Refuses (.nonTermination k u) ∨
    k = m ∧ ∃ ss s, (Engine.mk op m strategy).Leads t ss u ∧ ss.length = m ∧
      (Engine.mk op m strategy).step u = .ok (some s) ∧
      ∀ m' trace, (Engine.mk op m' strategy).normalize t = .ok trace → ss <+: trace.steps := by
  refine (leads_of_run_nonTermination (n := m) (map_eq_error_iff.1 h)).imp_right ?_
  rintro ⟨hk, ss, s, hleads, hlen, hnext⟩
  refine ⟨hk, ss, s, hleads, hlen, hnext, fun m' trace htrace => ?_⟩
  obtain ⟨hinit, ⟨v, hleads', hend⟩, _⟩ := normalize_eq_ok_iff.1 htrace
  refine hleads.isPrefix (hleads'.rebound m) ?_
  -- a trace no longer than the bound would have been found
  by_contra hlt
  have hshort : trace.steps.length ≤ m := by omega
  have hok : (Engine.mk op m strategy).normalize t = .ok trace :=
    normalize_eq_ok_iff.2 ⟨hinit, ⟨v, hleads'.rebound m, hend⟩, hshort⟩
  rw [hok] at h
  cases h

end Engine

/-! ## Evaluation -/

namespace Evaluator

open PrimeLanguage.Expr

variable {ev : Evaluator} {op : Operator} {e : Expr} {n n' : Nat}

/-- The bound has no part in a run. -/
theorem run_rebound (op : Operator) (m m' n k : Nat) (e : Expr) (s : NameSupply) :
    (Evaluator.mk op m).run n k e s = (Evaluator.mk op m').run n k e s := by
  induction n generalizing k e s with
  | zero => rfl
  | succ n ih => simp only [run, ih]

theorem isValue_run (n k : Nat) (e : Expr) (s : NameSupply) :
    (ev.run n k e s).isValue = (ev.run n k e s).result.isValue := by
  induction n generalizing k e s with
  | zero => rfl
  | succ n ih =>
    simp only [run]
    split
    · rfl
    · exact ih _ _ _

theorem run_of_no_step {s : NameSupply} (h : e.step ev.operator s = none) (n k : Nat) :
    ev.run n k e s = ⟨e, k, e.isValue⟩ := by
  cases n with
  | zero => rfl
  | succ n => simp only [run, h]

/-- **A run goes on from where a shorter one stopped**, with some supply of names. -/
theorem run_add (ev : Evaluator) (n d k : Nat) (e : Expr) (s : NameSupply) :
    ∃ s', ev.run (n + d) k e s = ev.run d (ev.run n k e s).steps (ev.run n k e s).result s' := by
  induction n generalizing k e s with
  | zero => exact ⟨s, by rw [Nat.zero_add, run]⟩
  | succ n ih =>
    rw [Nat.succ_add]
    simp only [run]
    cases hz : e.step ev.operator s with
    | none => exact ⟨s, (run_of_no_step hz d k).symm⟩
    | some z => exact ih (k + 1) z.1 z.2

/-- Where a run stops with a value or before its bound there is no further step. -/
theorem no_step_of_run {k : Nat} {s : NameSupply}
    (h : (ev.run n k e s).isValue = true ∨ (ev.run n k e s).steps < k + n) (s' : NameSupply) :
    (ev.run n k e s).result.step ev.operator s' = none := by
  rcases h with hvalue | hsteps
  · rw [isValue_run] at hvalue
    exact step_of_isValue hvalue s'
  · induction n generalizing k e s with
    | zero => exact absurd hsteps (Nat.lt_irrefl k)
    | succ n ih =>
      simp only [run] at hsteps ⊢
      cases hz : e.step ev.operator s with
      | none => exact step_eq_none hz s'
      | some z =>
        rw [hz] at hsteps
        have hlt : (ev.run n (k + 1) z.1 z.2).steps < k + 1 + n := by
          change (ev.run n (k + 1) z.1 z.2).steps < k + (n + 1) at hsteps
          omega
        exact ih hlt

/-- An evaluation goes on from where one with a smaller bound stopped. -/
theorem evaluate_eq_run_of_le (op : Operator) (hn : n ≤ n') (e : Expr) :
    ∃ s', (Evaluator.mk op n').evaluate e =
      (Evaluator.mk op n).run (n' - n) ((Evaluator.mk op n).evaluate e).steps
        ((Evaluator.mk op n).evaluate e).result s' := by
  have hbound : (Evaluator.mk op n').evaluate e = (Evaluator.mk op n).run n' 0 e .start :=
    run_rebound op n' n n' 0 e .start
  obtain ⟨s', h⟩ := (Evaluator.mk op n).run_add n (n' - n) 0 e .start
  rw [Nat.add_sub_cancel' hn] at h
  exact ⟨s', hbound.trans h⟩

/-- **An outcome that did not use up its bound is the outcome with every larger one.** -/
theorem evaluate_of_le (hn : n ≤ n')
    (h : ((Evaluator.mk op n).evaluate e).isValue = true ∨
      ((Evaluator.mk op n).evaluate e).steps < n) :
    (Evaluator.mk op n').evaluate e = (Evaluator.mk op n).evaluate e := by
  obtain ⟨s', heval⟩ := evaluate_eq_run_of_le op hn e
  have hstep : ((Evaluator.mk op n).evaluate e).result.step op s' = none :=
    no_step_of_run (h.imp_right fun hlt => by rwa [Nat.zero_add]) s'
  have hvalue : ((Evaluator.mk op n).evaluate e).isValue =
      ((Evaluator.mk op n).evaluate e).result.isValue := isValue_run _ _ _ _
  rw [heval, run_of_no_step hstep, ← hvalue]

end Evaluator

/-! ## Both together -/

namespace Semantics

variable {op : Operator} {strategy : Strategy} {m m' n n' : Nat} {t u : Term}

theorem denote_of_le {d : Outcome} (hn : n ≤ n') (hvalue : d.isValue = true)
    (h : (Semantics.mk ⟨op, m, strategy⟩ n).denote t = .ok d) :
    (Semantics.mk ⟨op, m', strategy⟩ n').denote t = .ok d := by
  obtain ⟨x, hx, rfl⟩ := map_eq_ok_iff.1 h
  exact map_eq_ok_iff.2 ⟨x, hx, Evaluator.evaluate_of_le hn (Or.inl hvalue)⟩

/-- **An agreement within bounds is the agreement within larger ones.** -/
theorem agreement_of_le {a : Agreement} (hm : m ≤ m') (hn : n ≤ n')
    (h : (Semantics.mk ⟨op, m, strategy⟩ n).agreement t = .ok a) :
    (Semantics.mk ⟨op, m', strategy⟩ n').agreement t = .ok a := by
  obtain ⟨trace, htrace, h⟩ := bind_eq_ok_iff.1 h
  obtain ⟨d, hd, h⟩ := bind_eq_ok_iff.1 h
  obtain ⟨x, hx, h⟩ := bind_eq_ok_iff.1 h
  have hvalue : d.isValue = true := by
    split at h
    · rename_i hagree
      exact (Bool.and_eq_true_iff.1 hagree).1
    · cases h
  have htrace' : (Engine.mk op m' strategy).normalize t = .ok trace :=
    Engine.normalize_of_le hm htrace
  have hd' : (Semantics.mk ⟨op, m', strategy⟩ n').denote t = .ok d := denote_of_le hn hvalue hd
  exact bind_eq_ok_iff.2 ⟨trace, htrace', bind_eq_ok_iff.2 ⟨d, hd', bind_eq_ok_iff.2 ⟨x, hx, h⟩⟩⟩

/-- **Denotations that are equal up to bound names stay so with a larger bound**, also where both
evaluations go on. -/
theorem equivalent_of_le (hn : n ≤ n')
    (h : (Semantics.mk ⟨op, m, strategy⟩ n).equivalent t u = .ok true) :
    (Semantics.mk ⟨op, m', strategy⟩ n').equivalent t u = .ok true := by
  obtain ⟨d, hd, h⟩ := bind_eq_ok_iff.1 h
  obtain ⟨d', hd', h⟩ := bind_eq_ok_iff.1 h
  obtain ⟨x, hx, rfl⟩ := map_eq_ok_iff.1 hd
  obtain ⟨y, hy, rfl⟩ := map_eq_ok_iff.1 hd'
  have hstopped : Expr.Alike ((Evaluator.mk op n).evaluate x).result
      ((Evaluator.mk op n).evaluate y).result :=
    Expr.alphaEq_iff_alike.1 (Except.ok.inj h)
  obtain ⟨s, hs⟩ := Evaluator.evaluate_eq_run_of_le op hn x
  obtain ⟨s', hs'⟩ := Evaluator.evaluate_eq_run_of_le op hn y
  -- neither evaluation need be finished: both go on from expressions that are alike
  have halike : Expr.Alike ((Evaluator.mk op n').evaluate x).result
      ((Evaluator.mk op n').evaluate y).result := by
    rw [hs, hs']
    exact (Evaluator.run_alike hstopped (n' - n) _ _ s s').2.2
  refine bind_eq_ok_iff.2 ⟨_, map_eq_ok_iff.2 ⟨x, hx, rfl⟩, ?_⟩
  refine bind_eq_ok_iff.2 ⟨_, map_eq_ok_iff.2 ⟨y, hy, rfl⟩, ?_⟩
  exact congrArg Except.ok (Expr.alphaEq_iff_alike.2 halike)

/-- **Step bounds are budgets.**  Whatever the operator and the strategy: a trace within a bound is
the trace within every larger one.  Where the bound is used up, the term reported is reached by
exactly as many steps, which start every trace within another bound; an operator that keeps its
contract never causes such a report.  An evaluation that reaches a value or stops before its bound
has the same outcome with every larger one.  Agreements stay the same with larger bounds, and terms
whose denotations are equivalent with a bound on evaluation steps are so with every larger one. -/
theorem bounds_are_budgets (op : Operator) (strategy : Strategy) :
    (∀ (t : Term) (m m' : Nat) (trace : Trace), m ≤ m' →
      (Engine.mk op m strategy).normalize t = .ok trace →
        (Engine.mk op m' strategy).normalize t = .ok trace) ∧
    (∀ (t u : Term) (m k : Nat),
      (Engine.mk op m strategy).normalize t = .error (.nonTermination k u) →
        (op.Refuses (.nonTermination k u) ∧ ¬ op.FailsByDomain) ∨
        k = m ∧ ∃ ss s, (Engine.mk op m strategy).Leads t ss u ∧ ss.length = m ∧
          (Engine.mk op m strategy).step u = .ok (some s) ∧
          ∀ m' trace, (Engine.mk op m' strategy).normalize t = .ok trace → ss <+: trace.steps) ∧
    (∀ (e : Expr) (n n' : Nat), n ≤ n' →
      ((Evaluator.mk op n).evaluate e).isValue = true ∨
        ((Evaluator.mk op n).evaluate e).steps < n →
      (Evaluator.mk op n').evaluate e = (Evaluator.mk op n).evaluate e) ∧
    ∀ (t u : Term) (m m' n n' : Nat), m ≤ m' → n ≤ n' →
      (∀ a, (Semantics.mk ⟨op, m, strategy⟩ n).agreement t = .ok a →
        (Semantics.mk ⟨op, m', strategy⟩ n').agreement t = .ok a) ∧
      ((Semantics.mk ⟨op, m, strategy⟩ n).equivalent t u = .ok true →
        (Semantics.mk ⟨op, m', strategy⟩ n').equivalent t u = .ok true) := by
  refine ⟨?_, ?_, ?_, ?_⟩
  · intro t m m' trace hm h
    exact Engine.normalize_of_le hm h
  · intro t u m k h
    refine (Engine.leads_of_nonTermination h).imp_left fun href => ⟨href, fun hdom => ?_⟩
    obtain ⟨name, p, q, hcon⟩ := hdom.isDomain href
    cases hcon
  · intro e n n' hn h
    exact Evaluator.evaluate_of_le hn h
  · intro t u m m' n n' hm hn
    exact ⟨fun a h => agreement_of_le hm hn h, fun h => equivalent_of_le hn h⟩

open OverlappingRedexes in
/-- The pair within bounds of one, two and three steps; and an adjective over a noun and its
sentence, whose evaluations are not finished after one step. -/
theorem bounds_are_budgets_pair :
    let chain := identityChain [p2] p7
    (∃ trace, (Engine.mk .identity 3 .leftmostFirst).normalize pair = .ok trace ∧
      trace.final = pairReduced) ∧
    (Engine.mk .identity 1 .leftmostFirst).normalize pair = .error (.nonTermination 1 pairFused) ∧
    (∃ ss trace, (Engine.mk .identity 1 .leftmostFirst).Leads pair ss pairFused ∧ ss.length = 1 ∧
      (Engine.mk .identity 2 .leftmostFirst).normalize pair = .ok trace ∧ ss <+: trace.steps) ∧
    (Evaluator.mk .identity 5).evaluate (.const p7) =
      (Evaluator.mk .identity 0).evaluate (.const p7) ∧
    (∃ a, (Semantics.mk ⟨.identity, 3, .leftmostFirst⟩ 3).agreement chain = .ok a) ∧
    (Semantics.mk ⟨.identity, 1, .leftmostFirst⟩ 2).equivalent chain (.sentence chain) =
      .ok true := by
  intro chain
  have hnorm : (Engine.mk .identity 2 .leftmostFirst).normalize pair =
      .ok ⟨pair, [⟨pair, pairFused, pairFuse.path, pairFuse.details⟩,
        ⟨pairFused, pairReduced, pairApply.path, pairApply.details⟩]⟩ := by rfl
  have hused : (Engine.mk .identity 1 .leftmostFirst).normalize pair =
      .error (.nonTermination 1 pairFused) := by rfl
  have hagrees : ∃ a, (Semantics.mk ⟨.identity, 1, .leftmostFirst⟩ 2).agreement chain = .ok a :=
    ⟨_, by cbv⟩
  have hunfinished : (Semantics.mk ⟨.identity, 1, .leftmostFirst⟩ 1).equivalent chain
      (.sentence chain) = .ok true := by cbv
  obtain ⟨htraces, hreports, houtcomes, hboth⟩ := bounds_are_budgets .identity .leftmostFirst
  refine ⟨⟨_, htraces pair 2 3 _ (by decide) hnorm, rfl⟩, hused, ?_, ?_, ?_, ?_⟩
  · rcases hreports pair pairFused 1 1 hused with
      ⟨_, hcontract⟩ | ⟨_, ss, s, hleads, hlen, _, hstart⟩
    · exact absurd (Operator.ofResult_failsByDomain _ _ _) hcontract
    · exact ⟨ss, _, hleads, hlen, hnorm, hstart 2 _ hnorm⟩
  · exact houtcomes (.const p7) 0 5 (by decide) (Or.inl rfl)
  · obtain ⟨a, ha⟩ := hagrees
    exact ⟨a, (hboth chain chain 1 3 2 3 (by decide) (by decide)).1 a ha⟩
  · exact (hboth chain (.sentence chain) 1 1 1 2 (by decide) (by decide)).2 hunfinished

end Semantics

end PrimeLanguage
