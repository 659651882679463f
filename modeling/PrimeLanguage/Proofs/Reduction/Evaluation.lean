import PrimeLanguage.Proofs.Reduction.Accounting

/-!
# Reduction is recursive evaluation

The engine finds one redex after another and rebuilds the whole term around each.  What it computes
is a recursion on the term: a chain folds its operators over the value of its noun position, and
sentences evaluate their parts from left to right.

* `Operator.actOn` — an operator of a chain over the value so far;
* `Operator.nounValue`, `Operator.value` — the value of a noun expression and of a term, or the
  first error.

`value_eq_bigStep` compares the recursion with the evaluation that keeps the events; from there the
engine's loop is known (`Engine.bigStep_of_normalize`).  A bound is large enough when it makes up
for the excess of the measure over the number of leaves (`Engine.bigStep_of_run_error_leaves`).

Principal result: `normalize_computes_value`.
-/

namespace PrimeLanguage

/-- The sum of the components, if it is prime. -/
theorem Fusion.fused?_eq (f : Fusion) :
    f.fused? = (Prime.ofNat (f.p.val + f.q.val + f.r.val)).toOption := by
  refine Option.ext fun s => ?_
  rw [fused?_eq_some, toOption_eq_some_iff]
  constructor
  · intro h
    rw [← h, Prime.ofNat_val]
  · intro h
    exact Prime.val_of_ofNat h

namespace Operator

/-! ## The recursion -/

/-- Lets an operator of a chain act on the value `v`; only an adjective can. -/
def actOn (op : Operator) (v : Prime) (o : Term) : Except Error Prime :=
  match o with
  | .adj p => (op.combine p v).map (·.result)
  | _ => .error (shapeMismatch .adj o)

/-- The value of a noun expression: a fusion stands for its sum, and the operators of a chain act on
the value of the noun position, the nearest first. -/
def nounValue (op : Operator) : Term → Except Error Prime
  | .noun q => .ok q
  | .fusion f =>
    match Prime.ofNat (f.p.val + f.q.val + f.r.val) with
    | .ok s => .ok s
    | .error _ => .error (.illFormedFusion f)
  | .chain o os e => do
    let v ← nounValue op e
    (o :: os).foldlM op.actOn v
  | t => .error (shapeMismatch .noun t)

/-- The value of a term: a noun for a noun expression; an adjective is its own value, and a sentence
has its parts evaluated, the left one first. -/
def value (op : Operator) : Term → Except Error Term
  | .adj p => .ok (.adj p)
  | .sentence e => do
    let x ← value op e
    return .sentence x
  | .join c l r => do
    let x ← value op l
    let y ← value op r
    return .join c x y
  | t => (op.nounValue t).map .noun

variable {op : Operator}

theorem foldlM_actOn (os : List Term) (q : Prime) :
    os.foldlM op.actOn q = (op.bigStepOperators os q).map (·.result) := by
  induction os generalizing q with
  | nil => rfl
  | cons o os ih =>
    cases o with
    | adj p =>
      rw [List.foldlM_cons, actOn, bigStepOperators]
      cases op.combine p q with
      | error err => rfl
      | ok c =>
        refine (ih c.result).trans ?_
        simp only [bind, Except.bind]
        cases op.bigStepOperators os c.result <;> rfl
    | noun | chain | fusion | sentence | join => rfl

theorem nounValue_eq_bigStepNoun (t : Term) :
    op.nounValue t = (op.bigStepNoun t).map (·.result) := by
  induction t using Term.induction with
  | noun | adj | sentence | join => rfl
  | fusion f =>
    rw [nounValue, bigStepNoun, f.fused?_eq]
    cases Prime.ofNat (f.p.val + f.q.val + f.r.val) <;> rfl
  | chain o os e _ _ ih =>
    rw [nounValue, bigStepNoun, ih]
    cases op.bigStepNoun e with
    | error err => rfl
    | ok r =>
      refine (foldlM_actOn (o :: os) r.result).trans ?_
      simp only [bind, Except.bind]
      cases op.bigStepOperators (o :: os) r.result <;> rfl

/-- **The recursion computes what the evaluation with events ends in**, and fails with the same
error. -/
theorem value_eq_bigStep (t : Term) :
    op.value t = (op.bigStep .leftmostFirst t).map (·.result) := by
  induction t using Term.induction with
  | noun | adj => rfl
  | fusion | chain =>
    change (op.nounValue _).map Term.noun = _
    rw [nounValue_eq_bigStepNoun, bigStep]
    cases op.bigStepNoun _ <;> rfl
  | sentence e ih =>
    rw [value, bigStep, ih]
    cases op.bigStep .leftmostFirst e <;> rfl
  | join c l r ihl ihr =>
    rw [value, bigStep, ihl, ihr]
    cases op.bigStep .leftmostFirst l with
    | error err => rfl
    | ok x => cases op.bigStep .leftmostFirst r <;> rfl

end Operator

/-! ## The loop of the engine -/

namespace Engine

variable {e : Engine} {t : Term}

/-- A bound that makes up for the excess of the measure over the number of leaves is never what a
run fails for: after as many steps there is none left. -/
theorem bigStep_of_run_error_leaves {m : Nat} {err : Error} (h : e.run m t = .error err)
    (hm : t.measure ≤ m + t.leaves.length) : e.bigStep t = .error err := by
  refine (leads_of_run_error h).resolve_right ?_
  rintro ⟨ss, u, s, hleads, hlen, hstep, -⟩
  have hmeasure := hleads.measure_add_length
  have hleaves := hleads.length_leaves
  obtain ⟨k, hk, -⟩ := step_eq_ok_some hstep
  have hcontracts := Operator.contracts_of_contract hk
  have hone : k.after.measure + 1 = u.measure := hcontracts.measure
  have hafter : k.after.leaves.length ≤ k.after.measure :=
    Term.length_leaves_le_weight (by decide) k.after
  rw [hcontracts.length_leaves] at hafter
  omega

/-- With such a bound, normalization and evaluation have the same answer. -/
theorem evaluate_eq_bigStep (hm : t.measure ≤ e.maxSteps + t.leaves.length) :
    e.evaluate t = (e.bigStep t).map (·.result) := by
  cases h : e.normalize t with
  | ok trace =>
    rw [evaluate, h, (bigStep_of_normalize h).1]
    rfl
  | error err =>
    rw [evaluate, h, bigStep_of_run_error_leaves (map_eq_error_iff.1 h) hm]
    rfl

/-- Whatever the bound and the strategy are, a normalization ends in the value of the term. -/
theorem value_of_normalize {trace : Trace} (h : e.normalize t = .ok trace) :
    e.operator.value t = .ok trace.final := by
  have hbig := Operator.bigStep_eq_of_ok (bigStep_of_normalize h).1 .leftmostFirst
  rw [Operator.value_eq_bigStep, hbig]
  rfl

end Engine

/-- **Normalization computes the value of the term.**  With a bound that makes up for the excess of
the measure over the number of leaves, leftmost-first normalization succeeds exactly when the term
has a value, ends in that value, and fails with the error that the recursion meets first.  Within
any bound and under any strategy, a normalization that succeeds ends in the value, and leftmost
first one that fails meets the error of the recursion or the bound. -/
theorem normalize_computes_value (op : Operator) (t : Term) :
    (∀ m, t.measure ≤ m + t.leaves.length →
      (Engine.mk op m .leftmostFirst).evaluate t = op.value t ∧
      ((∃ trace, (Engine.mk op m .leftmostFirst).normalize t = .ok trace) ↔
        ∃ v, op.value t = .ok v) ∧
      ∀ err, (Engine.mk op m .leftmostFirst).normalize t = .error err ↔
        op.value t = .error err) ∧
    (∀ m strategy trace, (Engine.mk op m strategy).normalize t = .ok trace →
      op.value t = .ok trace.final) ∧
    ∀ m err, (Engine.mk op m .leftmostFirst).normalize t = .error err →
      op.value t = .error err ∨ ∃ u, err = .nonTermination m u := by
  refine ⟨fun m hm => ?_, fun m strategy trace h => Engine.value_of_normalize h,
    fun m err h => ?_⟩
  · have hvalue : (Engine.mk op m .leftmostFirst).evaluate t = op.value t :=
      (Engine.evaluate_eq_bigStep hm).trans (Operator.value_eq_bigStep t).symm
    refine ⟨hvalue, ?_, fun err => ?_⟩
    · rw [← hvalue]
      constructor
      · rintro ⟨trace, h⟩
        exact ⟨trace.final, map_eq_ok_iff.2 ⟨trace, h, rfl⟩⟩
      · rintro ⟨v, h⟩
        obtain ⟨trace, htrace, _⟩ := map_eq_ok_iff.1 h
        exact ⟨trace, htrace⟩
    · rw [← hvalue]
      exact map_eq_error_iff.symm
  · refine (Engine.error_of_normalize h).imp_left fun hbig => ?_
    rw [Operator.value_eq_bigStep]
    exact map_eq_error_iff.2 hbig

namespace OverlappingRedexes

/-- Adjectives over a chain over a fusion, next to a chain that has a noun for an operator. -/
def nestedThenBroken : Term :=
  .join .imp (.sentence (.chain (.adj p3) [.adj p2] (.chain (.adj p13) [] fusion23)))
    (.sentence (.chain (.noun p5) [] (.noun p7)))

end OverlappingRedexes

open OverlappingRedexes in
/-- A pair with the least bound that is large enough, and a term whose right part is refused after
the left one has been evaluated. -/
theorem normalize_computes_value_pair :
    (Engine.mk .identity 2 .leftmostFirst).evaluate pair = .ok pairReduced ∧
    (∃ trace, (Engine.mk .identity 2 .rightmostFirst).normalize pair = .ok trace ∧
      Operator.identity.value pair = .ok trace.final) ∧
    (Engine.mk .identity 5 .leftmostFirst).normalize nestedThenBroken =
      .error (shapeMismatch .adj (.noun p5)) ∧
    Operator.identity.value nestedThenBroken = .error (shapeMismatch .adj (.noun p5)) := by
  have hvalue : Operator.identity.value pair = .ok pairReduced := by rfl
  have htrace : (Engine.mk .identity 2 .rightmostFirst).normalize pair =
      .ok ⟨pair, [⟨pair, pairApplied, pairApply.path, pairApply.details⟩,
        ⟨pairApplied, pairReduced, pairFuse.path, pairFuse.details⟩]⟩ := by rfl
  have hrefused : (Engine.mk .identity 5 .leftmostFirst).normalize nestedThenBroken =
      .error (shapeMismatch .adj (.noun p5)) := by rfl
  obtain ⟨hlarge, hstrategies, _⟩ := normalize_computes_value .identity pair
  obtain ⟨_, _, hbounds⟩ := normalize_computes_value .identity nestedThenBroken
  refine ⟨(hlarge 2 (by decide)).1.trans hvalue, ?_, hrefused, ?_⟩
  · exact ⟨_, htrace, hstrategies 2 .rightmostFirst _ htrace⟩
  · exact (hbounds 5 _ hrefused).resolve_right nofun

end PrimeLanguage
