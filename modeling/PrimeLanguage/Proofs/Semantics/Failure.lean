import PrimeLanguage.Proofs.Semantics.Agreement

/-!
# When reduction and meaning fail

With a bound on reduction steps not below the measure of the term, and a bound on evaluation steps
not below twice the measure, only three things can go wrong: an ill-formed fusion, a term of the
wrong shape, and a refusal of the operator.  The first two are seen by both semantics alike; the
third is an error of the reduction and a stuck expression of the evaluator.

* `refuses_of_normalize` — a term with a meaning fails to normalize by refusal only;
* `value_iff_normalizes` — it normalizes exactly when its meaning evaluates to a value.

Principal result: `failure_agreement`.
-/

namespace PrimeLanguage

namespace Semantics

variable {s : Semantics} {e : Engine} {op : Operator} {t : Term} {name : String}

theorem meaning_eq_error_iff {err : Error} :
    t.meaning name = .error err ↔ t.meaningFrom name .start = .error err :=
  map_eq_error_iff

theorem applications_le_measure {trace : Trace} (h : e.normalize t = .ok trace) :
    trace.applications ≤ t.measure := by
  have hmeas := Engine.measure_of_normalize h
  have hcount : trace.applications ≤ trace.steps.length := List.countP_le_length
  omega

/-! ## Operators that never fail -/

theorem meaning_iff_normalizes {m : Nat} (hop : op.NeverFails) (hm : t.measure ≤ m) :
    (∃ e, t.meaning name = .ok e) ↔
      ∃ trace, (Engine.mk op m .leftmostFirst).normalize t = .ok trace := by
  constructor
  · rintro ⟨e, he⟩
    obtain ⟨s', he⟩ := meaning_eq_ok_iff.1 he
    cases h : (Engine.mk op m .leftmostFirst).normalize t with
    | ok trace => exact ⟨trace, rfl⟩
    | error err =>
      have hbig := Engine.bigStep_of_normalize_error h hm
      exact absurd (Operator.refuses_of_bigStep_error he hbig) hop.not_refuses
  · rintro ⟨trace, h⟩
    have hbig := (Engine.bigStep_of_normalize h).1
    obtain ⟨⟨e, s'⟩, he⟩ := (Operator.answers_meaning t name .start).exists_ok_right hbig
    exact ⟨e, meaning_eq_ok_iff.2 ⟨s', he⟩⟩

theorem sameBlame_of_normalize {m : Nat} {err err' : Error} (hop : op.NeverFails)
    (hm : t.measure ≤ m) (h : (Engine.mk op m .leftmostFirst).normalize t = .error err)
    (h' : t.meaning name = .error err') : err.SameBlame err' := by
  have hbig := Engine.bigStep_of_normalize_error h hm
  have hanswers : op.Answers (op.bigStep .leftmostFirst t) (t.meaningFrom name .start) :=
    Operator.answers_meaning t name .start
  exact (hanswers.sameBlame hbig (meaning_eq_error_iff.1 h')).resolve_right hop.not_refuses

/-! ## Terms with a meaning -/

/-- **A term with a meaning fails to normalize by refusal only.** -/
theorem refuses_of_normalize {err : Error} {x : Expr} (hx : t.meaning name = .ok x)
    (hm : t.measure ≤ e.maxSteps) (h : e.normalize t = .error err) : e.operator.Refuses err := by
  obtain ⟨s', hx⟩ := meaning_eq_ok_iff.1 hx
  exact Operator.refuses_of_bigStep_error hx (Engine.bigStep_of_normalize_error h hm)

/-- The evaluation fails leftmost first if it fails under some strategy. -/
theorem bigStep_leftmostFirst_of_error {strategy : Strategy} {err : Error}
    (h : op.bigStep strategy t = .error err) :
    ∃ err', op.bigStep .leftmostFirst t = .error err' := by
  cases hleft : op.bigStep .leftmostFirst t with
  | error err' => exact ⟨err', rfl⟩
  | ok r => rw [Operator.bigStep_eq_of_ok hleft strategy] at h; cases h

/-- **A term with a meaning normalizes exactly when its meaning evaluates to a value.** -/
theorem value_iff_normalizes {x : Expr} (hx : s.meaning t = .ok x)
    (hm : t.measure ≤ s.engine.maxSteps) (hn : 2 * t.measure ≤ s.evaluationSteps) :
    (∃ trace, s.engine.normalize t = .ok trace) ↔ (s.evaluator.evaluate x).isValue = true := by
  constructor
  · rintro ⟨trace, h⟩
    obtain ⟨x', v, hx', hv, _⟩ := yields_of_normalize h
    rw [hx] at hx'
    cases hx'
    have happ := applications_le_measure h
    have hle : 2 * trace.applications ≤ s.evaluationSteps := by omega
    have heval : s.evaluator.evaluate x = ⟨v, 2 * trace.applications, true⟩ :=
      Evaluator.evaluate_of_yields hv hle
    rw [heval]
  · intro hvalue
    cases h : s.engine.normalize t with
    | ok trace => exact ⟨trace, rfl⟩
    | error err =>
      have hbig := Engine.bigStep_of_normalize_error h hm
      obtain ⟨err', hleft⟩ := bigStep_leftmostFirst_of_error hbig
      obtain ⟨s', hx⟩ := meaning_eq_ok_iff.1 hx
      have hstuck : (s.evaluator.evaluate x).isValue = false :=
        Evaluator.evaluate_of_getsStuck (Operator.getsStuck_meaning hx hleft)
      rw [hstuck] at hvalue
      cases hvalue

/-- **Reduction and meaning fail together.**  Under an operator that never fails, leftmost-first
reduction succeeds exactly when the term has a meaning, and where both fail they blame the same
fusion or term.  Under every operator and strategy, a term with a meaning fails to normalize by a
refusal of the operator only, and normalizes exactly when its meaning evaluates to a value. -/
theorem failure_agreement :
    (∀ (op : Operator) (m : Nat) (name : String) (t : Term), op.NeverFails → t.measure ≤ m →
      ((∃ x, t.meaning name = .ok x) ↔
        ∃ trace, (Engine.mk op m .leftmostFirst).normalize t = .ok trace) ∧
      ∀ err err', (Engine.mk op m .leftmostFirst).normalize t = .error err →
        t.meaning name = .error err' → err.SameBlame err') ∧
    ∀ (s : Semantics) (t : Term) (x : Expr), s.meaning t = .ok x →
      t.measure ≤ s.engine.maxSteps → 2 * t.measure ≤ s.evaluationSteps →
      (∀ err, s.engine.normalize t = .error err →
        s.engine.operator.Refuses err ∧ (s.engine.operator.FailsByDomain → err.IsDomain)) ∧
      ((∃ trace, s.engine.normalize t = .ok trace) ↔
        (s.evaluator.evaluate x).isValue = true) := by
  refine ⟨fun op m name t hop hm => ⟨meaning_iff_normalizes hop hm, ?_⟩, ?_⟩
  · intro err err' h h'
    exact sameBlame_of_normalize hop hm h h'
  · intro s t x hx hm hn
    refine ⟨fun err h => ?_, value_iff_normalizes hx hm hn⟩
    have href := refuses_of_normalize hx hm h
    exact ⟨href, fun hdom => hdom.isDomain href⟩

open OverlappingRedexes Operator in
/-- A noun for an operator under the identity, and an adjective under an operator that refuses. -/
theorem failure_agreement_chains :
    Error.SameBlame (.typeMismatch (.kind .adj) (.kind .noun) (.noun p2))
      (.noMeaning (.noun p2) .operatorPosition) ∧
    refusing.Refuses (.operatorDomain "refusing" 2 7) ∧
    (Error.operatorDomain "refusing" 2 7).IsDomain ∧
    ¬ ∃ trace, (Engine.mk refusing 2 .leftmostFirst).normalize (identityChain [p2] p7) =
      .ok trace := by
  have hx : Semantics.meaning ⟨⟨refusing, 2, .leftmostFirst⟩, 4⟩ (identityChain [p2] p7) =
      .ok (.app (.lam "x0" (.prim "refusing" (.const p2) (.var "x0"))) (.const p7)) := by cbv
  have hpart := failure_agreement.2 ⟨⟨refusing, 2, .leftmostFirst⟩, 4⟩ (identityChain [p2] p7) _ hx
    (by decide) (by decide)
  obtain ⟨href, hdom⟩ := hpart.1 (.operatorDomain "refusing" 2 7) (by cbv)
  refine ⟨?_, href, hdom refusing_failsByDomain, ?_⟩
  · exact (failure_agreement.1 .identity 2 "identity" (.chain (.noun p2) [] (.noun p7))
      identity_neverFails (by decide)).2 _ _ (by cbv) (by cbv)
  · intro h
    exact absurd (hpart.2.1 h) (Bool.eq_false_iff.1 (by cbv))

end Semantics

end PrimeLanguage
