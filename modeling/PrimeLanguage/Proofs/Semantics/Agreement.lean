import Mathlib
import PrimeLanguage.Reduction.Confluence
import PrimeLanguage.Semantics
import PrimeLanguage.Proofs.Lambda.Adequacy
import PrimeLanguage.Proofs.Lambda.Blame
import PrimeLanguage.Proofs.Reduction.Run

/-!
# When reduction and meaning agree

The check of `Semantics.agreement` fails for one reason beyond those of the reduction: the bound on
evaluation steps is below two for each application.

* `Agreement.Records` — what an agreement says about the reduction and the denotation;
* `identityChain` — adjectives over a noun, which the identity leaves as it is.

`denote_of_normalize` evaluates the meaning of a term that normalizes; `agreement_of_normalize`,
`agreement_of_short` and `agreement_of_error` are the three answers of the check.

Principal result: `agreement_adequate`.
-/

namespace PrimeLanguage

/-- The agreement keeps the reduction `trace` and a denotation that matches it: a value, reached in
two steps for each application, that is the meaning of the terminal term up to bound names. -/
structure Agreement.Records (a : Agreement) (s : Semantics) (trace : Trace) : Prop where
  term : a.term = trace.initial
  operational : a.operational = trace.final
  operationalSteps : a.operationalSteps = trace.steps.length
  denotation : s.denote trace.initial = .ok a.outcome
  value : a.outcome.isValue = true ∧ a.outcome.result.isValue = true
  steps : a.outcome.steps = 2 * trace.applications
  meaning : ∃ e, s.meaning trace.final = .ok e ∧ a.outcome.result.alphaEq e = true

namespace Semantics

variable {s : Semantics} {t : Term} {trace : Trace}

/-! ## The denotation of a term that normalizes -/

theorem meaning_eq_ok_iff {name : String} {e : Expr} :
    t.meaning name = .ok e ↔ ∃ s', t.meaningFrom name .start = .ok (e, s') := by
  rw [Term.meaning, map_eq_ok_iff]
  constructor
  · rintro ⟨⟨e, s'⟩, h, rfl⟩; exact ⟨s', h⟩
  · rintro ⟨s', h⟩; exact ⟨(e, s'), h, rfl⟩

/-- The meaning of a term that normalizes yields the meaning of its terminal term. -/
theorem yields_of_normalize (h : s.engine.normalize t = .ok trace) :
    ∃ e v, s.meaning t = .ok e ∧
      Expr.Yields s.engine.operator (2 * trace.applications) e v ∧
      s.engine.operator.Means v trace.final := by
  have hbig := (Engine.bigStep_of_normalize h).1
  have hleft := Operator.bigStep_eq_of_ok hbig .leftmostFirst
  obtain ⟨⟨e, s'⟩, he⟩ :=
    (Operator.answers_meaning t s.engine.operator.name .start).exists_ok_right hleft
  obtain ⟨v, hv, hmeans⟩ := Operator.yields_meaning he hbig
  refine ⟨e, v, meaning_eq_ok_iff.2 ⟨s', he⟩, ?_, hmeans⟩
  rwa [← Trace.applications_events]

/-- **Two evaluation steps for each application** settle the denotation. -/
theorem denote_of_normalize (h : s.engine.normalize t = .ok trace)
    (hn : 2 * trace.applications ≤ s.evaluationSteps) :
    ∃ v, s.denote t = .ok ⟨v, 2 * trace.applications, true⟩ ∧ v.isValue = true ∧
      s.engine.operator.Means v trace.final := by
  obtain ⟨e, v, he, hv, hmeans⟩ := yields_of_normalize h
  refine ⟨v, ?_, hv.value, hmeans⟩
  have heval : s.evaluator.evaluate e = ⟨v, 2 * trace.applications, true⟩ :=
    Evaluator.evaluate_of_yields hv hn
  unfold denote
  rw [he, Except.map, heval]

/-- Fewer evaluation steps stop before a value. -/
theorem denote_of_short (h : s.engine.normalize t = .ok trace)
    (hn : s.evaluationSteps < 2 * trace.applications) :
    ∃ d, s.denote t = .ok d ∧ d.isValue = false := by
  obtain ⟨e, v, he, hv, _⟩ := yields_of_normalize h
  have hvalue : (s.evaluator.evaluate e).isValue = false := Evaluator.evaluate_of_short hv hn
  exact ⟨s.evaluator.evaluate e, by rw [denote, he, Except.map], hvalue⟩

/-! ## The three answers -/

theorem agreement_of_normalize (h : s.engine.normalize t = .ok trace)
    (hn : 2 * trace.applications ≤ s.evaluationSteps) :
    ∃ a, s.agreement t = .ok a ∧ a.Records s trace := by
  obtain ⟨v, hd, hv, hmeans⟩ := denote_of_normalize h hn
  obtain ⟨e, s', he, halpha⟩ := hmeans .start
  have hexp : s.meaning trace.final = .ok e := meaning_eq_ok_iff.2 ⟨s', he⟩
  have hinit := (Engine.bigStep_of_normalize h).2.1
  refine ⟨⟨t, trace.final, trace.steps.length, ⟨v, 2 * trace.applications, true⟩⟩, ?_, ?_⟩
  · unfold agreement
    simp only [h, hd, hexp, bind, Except.bind, halpha, Bool.and_self, if_true]
    rfl
  · have hdenotes : s.denote trace.initial = .ok ⟨v, 2 * trace.applications, true⟩ := by
      rw [hinit, hd]
    exact ⟨hinit.symm, rfl, rfl, hdenotes, ⟨rfl, hv⟩, rfl, e, hexp, halpha⟩

theorem agreement_of_short (h : s.engine.normalize t = .ok trace)
    (hn : s.evaluationSteps < 2 * trace.applications) :
    ∃ d, s.denote t = .ok d ∧
      s.agreement t = .error (.semanticDivergence t trace.final d.result) := by
  obtain ⟨d, hd, hvalue⟩ := denote_of_short h hn
  obtain ⟨e, v, _, _, hmeans⟩ := yields_of_normalize h
  obtain ⟨e', s', he', _⟩ := hmeans .start
  have hexp : s.meaning trace.final = .ok e' := meaning_eq_ok_iff.2 ⟨s', he'⟩
  refine ⟨d, hd, ?_⟩
  unfold agreement
  simp only [h, hd, hexp, bind, Except.bind, hvalue, Bool.false_and]
  rfl

theorem agreement_of_error {err : Error} (h : s.engine.normalize t = .error err) :
    s.agreement t = .error err := by
  unfold agreement
  rw [h]
  rfl

/-- **The reduction fails with a divergence only if the operator does.** -/
theorem refuses_of_normalize_divergence {u v : Term} {d : Expr}
    (h : s.engine.normalize t = .error (.semanticDivergence u v d)) :
    s.engine.operator.Refuses (.semanticDivergence u v d) := by
  rcases Engine.error_of_normalize h with hbig | ⟨w, hw⟩
  · rcases Operator.blames_or_refuses_of_bigStep_error hbig "" with ⟨w, _, err, _, hblame⟩ | href
    · cases hblame
    · exact href
  · cases hw

/-! ## Chains under the identity operator -/

/-- Adjectives over a noun, the first one next to it. -/
def identityChain (ps : List Prime) (q : Prime) : Term := .ofOperators (ps.map .adj) (.noun q)

theorem bigStepOperators_identity (ps : List Prime) (q : Prime) :
    ∃ evs, Operator.identity.bigStepOperators (ps.map .adj) q = .ok ⟨evs, q⟩ ∧
      evs.length = ps.length ∧ Event.applications evs = ps.length := by
  induction ps with
  | nil => exact ⟨[], rfl, rfl, rfl⟩
  | cons p ps ih =>
    obtain ⟨evs, hevs, hlen, happ⟩ := ih
    refine ⟨⟨[], .apply p q ⟨q, .forward⟩⟩ :: evs, ?_, ?_, ?_⟩
    · simp only [List.map_cons, Operator.bigStepOperators, Operator.identity_combine, hevs, bind,
        Except.bind]
      rfl
    · simp [hlen]
    · simp [happ]

/-- A chain under the identity keeps its noun and applies every adjective. -/
theorem normalize_identityChain {e : Engine} (he : e.operator = .identity) (ps : List Prime)
    (q : Prime) (hm : ps.length ≤ e.maxSteps) :
    ∃ trace, e.normalize (identityChain ps q) = .ok trace ∧ trace.final = .noun q ∧
      trace.applications = ps.length := by
  obtain ⟨evs, hevs, hlen, happ⟩ := bigStepOperators_identity ps q
  have hbig : e.bigStep (identityChain ps q) = .ok ⟨evs, .noun q⟩ := by
    rw [Engine.bigStep, he, identityChain,
      Operator.bigStep_of_isNounShaped (Operator.isNounShaped_ofOperators _ q),
      Operator.bigStepNoun_ofOperators, hevs]
    rfl
  have hle : evs.length ≤ e.maxSteps := by omega
  obtain ⟨trace, htrace, hev, hfin⟩ := Engine.normalize_of_bigStep hbig hle
  have hcount : trace.applications = ps.length := by
    rw [← Trace.applications_events, hev, happ]
  exact ⟨trace, htrace, hfin, hcount⟩

/-! ## Adequacy -/

/-- The three answers exclude each other and leave nothing out. -/
theorem agreement_cases (s : Semantics) (t : Term) :
    (∃ err, s.engine.normalize t = .error err ∧ s.agreement t = .error err) ∨
    (∃ trace d, s.engine.normalize t = .ok trace ∧ s.evaluationSteps < 2 * trace.applications ∧
      s.denote t = .ok d ∧ s.agreement t = .error (.semanticDivergence t trace.final d.result)) ∨
    ∃ trace a, s.engine.normalize t = .ok trace ∧ 2 * trace.applications ≤ s.evaluationSteps ∧
      s.agreement t = .ok a ∧ a.Records s trace := by
  cases h : s.engine.normalize t with
  | error err => exact Or.inl ⟨err, rfl, agreement_of_error h⟩
  | ok trace =>
    by_cases hn : 2 * trace.applications ≤ s.evaluationSteps
    · obtain ⟨a, ha, hrec⟩ := agreement_of_normalize h hn
      exact Or.inr (Or.inr ⟨trace, a, rfl, hn, ha, hrec⟩)
    · have hshort : s.evaluationSteps < 2 * trace.applications := by omega
      obtain ⟨d, hd, herr⟩ := agreement_of_short h hshort
      exact Or.inr (Or.inl ⟨trace, d, rfl, hshort, hd, herr⟩)

theorem exists_agreement_iff :
    (∃ a, s.agreement t = .ok a) ↔
      ∃ trace, s.engine.normalize t = .ok trace ∧ 2 * trace.applications ≤ s.evaluationSteps := by
  constructor
  · rintro ⟨a, h⟩
    rcases agreement_cases s t with ⟨err, _, hagr⟩ | ⟨trace, d, _, _, _, hagr⟩ |
      ⟨trace, a', hnorm, hn, _⟩
    · rw [hagr] at h; cases h
    · rw [hagr] at h; cases h
    · exact ⟨trace, hnorm, hn⟩
  · rintro ⟨trace, hnorm, hn⟩
    obtain ⟨a, ha, _⟩ := agreement_of_normalize hnorm hn
    exact ⟨a, ha⟩

theorem records_of_agreement {a : Agreement} (h : s.agreement t = .ok a) :
    ∃ trace, s.engine.normalize t = .ok trace ∧ a.Records s trace := by
  rcases agreement_cases s t with ⟨err, _, hagr⟩ | ⟨trace, d, _, _, _, hagr⟩ |
    ⟨trace, a', hnorm, _, hagr, hrec⟩
  · rw [hagr] at h; cases h
  · rw [hagr] at h; cases h
  · rw [hagr] at h; cases h; exact ⟨trace, hnorm, hrec⟩

theorem agreement_eq_error_iff {err : Error} :
    s.agreement t = .error err ↔
      s.engine.normalize t = .error err ∨
      ∃ trace d, s.engine.normalize t = .ok trace ∧
        s.evaluationSteps < 2 * trace.applications ∧ s.denote t = .ok d ∧
        err = .semanticDivergence t trace.final d.result := by
  constructor
  · intro h
    rcases agreement_cases s t with ⟨err', hnorm, hagr⟩ | ⟨trace, d, hnorm, hn, hd, hagr⟩ |
      ⟨trace, a, _, _, hagr, _⟩
    · rw [hagr] at h; cases h; exact Or.inl hnorm
    · rw [hagr] at h; cases h; exact Or.inr ⟨trace, d, hnorm, hn, hd, rfl⟩
    · rw [hagr] at h; cases h
  · rintro (hnorm | ⟨trace, d, hnorm, hn, hd, rfl⟩)
    · exact agreement_of_error hnorm
    · obtain ⟨d', hd', hagr⟩ := agreement_of_short hnorm hn
      rw [hd] at hd'
      cases hd'
      exact hagr

/-- Operators that keep their contract cause no divergence. -/
theorem short_of_divergence (hdom : s.engine.operator.FailsByDomain) {u v : Term} {d : Expr}
    (h : s.agreement t = .error (.semanticDivergence u v d)) :
    ∃ trace, s.engine.normalize t = .ok trace ∧ s.evaluationSteps < 2 * trace.applications := by
  rcases agreement_eq_error_iff.1 h with hnorm | ⟨trace, _, hnorm, hn, _⟩
  · obtain ⟨name, p, q, hcon⟩ := hdom.isDomain (refuses_of_normalize_divergence hnorm)
    cases hcon
  · exact ⟨trace, hnorm, hn⟩

/-- With the standard bounds a chain under the identity has evaluation steps for 500 adjectives and
reduction steps for more. -/
theorem agreement_identityChain (ps : List Prime) (q : Prime) (hps : ps.length = 501) :
    (∃ d, (ofOperator .identity).agreement (identityChain ps q) =
      .error (.semanticDivergence (identityChain ps q) (.noun q) d)) ∧
    ∃ a, (Semantics.mk (ofOperator .identity).engine 1002).agreement (identityChain ps q) =
      .ok a ∧ a.value? = some q := by
  have hmax : ps.length ≤ standardMaxSteps := by rw [standardMaxSteps]; omega
  obtain ⟨trace, htrace, hfin, happ⟩ := normalize_identityChain
    (e := ⟨.identity, standardMaxSteps, .leftmostFirst⟩) rfl ps q hmax
  constructor
  · have hshort : standardEvaluationSteps < 2 * trace.applications := by
      rw [standardEvaluationSteps]; omega
    obtain ⟨d, _, hagr⟩ := agreement_of_short (s := ofOperator .identity) htrace hshort
    rw [hfin] at hagr
    exact ⟨d.result, hagr⟩
  · have henough : 2 * trace.applications ≤ 1002 := by omega
    obtain ⟨a, hagr, hrec⟩ := agreement_of_normalize
      (s := ⟨(ofOperator .identity).engine, 1002⟩) htrace henough
    have hvalue : a.value? = some q := by
      rw [Agreement.value?, hrec.operational, hfin]
      rfl
    exact ⟨a, hagr, hvalue⟩

/-- **The meaning is adequate for the reduction.**  The check succeeds exactly when the term
normalizes and the evaluator has two steps for each application, and then the denotation is a value
reached in that many steps that is the meaning of the terminal term.  It fails with the error of the
reduction or, when the evaluator has fewer steps, with a divergence; an operator that keeps its
contract causes no other divergence.  With the standard bounds a chain of 501 adjectives under the
identity is such a divergence, although one more pair of steps makes both sides agree. -/
theorem agreement_adequate :
    (∀ (s : Semantics) (t : Term),
      ((∃ a, s.agreement t = .ok a) ↔
        ∃ trace, s.engine.normalize t = .ok trace ∧
          2 * trace.applications ≤ s.evaluationSteps) ∧
      (∀ a, s.agreement t = .ok a →
        ∃ trace, s.engine.normalize t = .ok trace ∧ a.Records s trace) ∧
      (∀ trace, s.engine.normalize t = .ok trace →
        s.evaluationSteps < 2 * trace.applications →
          ∃ d, s.denote t = .ok d ∧
            s.agreement t = .error (.semanticDivergence t trace.final d.result)) ∧
      (∀ err, s.agreement t = .error err ↔
        s.engine.normalize t = .error err ∨
        ∃ trace d, s.engine.normalize t = .ok trace ∧
          s.evaluationSteps < 2 * trace.applications ∧ s.denote t = .ok d ∧
          err = .semanticDivergence t trace.final d.result) ∧
      (s.engine.operator.FailsByDomain → ∀ u v d,
        s.agreement t = .error (.semanticDivergence u v d) →
          ∃ trace, s.engine.normalize t = .ok trace ∧
            s.evaluationSteps < 2 * trace.applications)) ∧
    ∀ (ps : List Prime) (q : Prime), ps.length = 501 →
      (∃ d, (ofOperator .identity).agreement (identityChain ps q) =
        .error (.semanticDivergence (identityChain ps q) (.noun q) d)) ∧
      ∃ a, (Semantics.mk (ofOperator .identity).engine 1002).agreement (identityChain ps q) =
        .ok a ∧ a.value? = some q := by
  constructor
  · intro s t
    refine ⟨exists_agreement_iff, ?_, ?_, fun err => agreement_eq_error_iff, ?_⟩
    · intro a h
      exact records_of_agreement h
    · intro trace h hn
      exact agreement_of_short h hn
    · intro hdom u v d h
      exact short_of_divergence hdom h
  · intro ps q hps
    exact agreement_identityChain ps q hps

open OverlappingRedexes in
/-- One adjective over a noun with two evaluation steps and with one, and the long chain. -/
theorem agreement_adequate_chains :
    (∃ trace, (Engine.mk .identity 1 .leftmostFirst).normalize (identityChain [p2] p7) = .ok trace ∧
      (Agreement.mk (identityChain [p2] p7) (.noun p7) 1 ⟨.const p7, 2, true⟩).Records
        ⟨⟨.identity, 1, .leftmostFirst⟩, 2⟩ trace) ∧
    (∃ d, (Semantics.mk ⟨.identity, 1, .leftmostFirst⟩ 1).agreement (identityChain [p2] p7) =
      .error (.semanticDivergence (identityChain [p2] p7) (.noun p7) d)) ∧
    (∃ trace, (Engine.mk .identity 1 .leftmostFirst).normalize (identityChain [p2] p7) = .ok trace ∧
      1 < 2 * trace.applications) ∧
    ∃ d, (ofOperator .identity).agreement (identityChain (List.replicate 501 p2) p7) =
      .error (.semanticDivergence (identityChain (List.replicate 501 p2) p7) (.noun p7) d) := by
  have hnorm : (Engine.mk .identity 1 .leftmostFirst).normalize (identityChain [p2] p7) =
      .ok ⟨identityChain [p2] p7,
        [⟨identityChain [p2] p7, .noun p7, [], .apply p2 p7 ⟨p7, .forward⟩⟩]⟩ := by rfl
  obtain ⟨_, _, hshort, _, hdivergence⟩ :=
    agreement_adequate.1 ⟨⟨.identity, 1, .leftmostFirst⟩, 1⟩ (identityChain [p2] p7)
  refine ⟨?_, ?_, ?_, ?_⟩
  · exact (agreement_adequate.1 ⟨⟨.identity, 1, .leftmostFirst⟩, 2⟩ _).2.1 _ (by cbv)
  · obtain ⟨d, _, hagr⟩ := hshort _ hnorm (by decide)
    exact ⟨d.result, hagr⟩
  · exact hdivergence (Operator.ofResult_failsByDomain _ _ _) (identityChain [p2] p7) (.noun p7)
      (.prim "identity" (.const p2) (.const p7)) (by cbv)
  · exact (agreement_adequate.2 (List.replicate 501 p2) p7 List.length_replicate).1

end Semantics

end PrimeLanguage
