import PrimeLanguage.Proofs.Reduction.Exploration

/-!
# Reports on confluence

A report on a term is true of its whole reduction graph (`ConfluenceReport.Describes`).

Principal result: `confluence_exact`.
-/

namespace PrimeLanguage

open Countdown
open scoped Nat

/-- The report tells where the reductions of the term end, how many terms are reachable, and how
many ways lead to the end.  Both numbers come from the steps that the leaves take on their own: the
leaves progress independently, and any interleaving of their steps is a way.  A number of ways that
is no word is reported as the largest word. -/
structure ConfluenceReport.Describes (report : ConfluenceReport) (e : Engine) (t : Term) : Prop where
  term : report.term = t
  normalForm : ∃ m, ∀ n, m ≤ n → ∃ trace,
    (Engine.mk e.operator n e.strategy).normalize t = .ok trace ∧ trace.final = report.normalForm
  states : (e.reachable t).encard = (report.states : Nat)
  leaves : ∃ ks : List Nat,
    List.Forall₂ (fun leaf k => ∃ trace, (Engine.mk e.operator k e.strategy).normalize leaf =
      .ok trace ∧ trace.steps.length = k) t.leafTerms ks ∧
    report.states = (ks.map (· + 1)).prod ∧
    (e.maximalRuns t).encard = (ks.sum ! / (ks.map (· !)).prod : Nat) ∧
    report.paths = min (2 ^ 64 - 1) (ks.sum ! / (ks.map (· !)).prod)

namespace Engine

variable {e : Engine} {t : Term}

theorem describes_of_confluence {report : ConfluenceReport} (h : e.confluence t = .ok report) :
    report.Describes e t := by
  obtain ⟨n, y, hexplore, hterm, rfl, hstates, hreach, hzero⟩ := explore_of_confluence h
  obtain ⟨hadds, hpaths⟩ := e.exploresExactly t (.empty e.operator) hexplore
  have ht : e.operator.Evaluates t := hadds.evaluates t (List.mem_singleton_self t)
  have hexplored : y.explored = {u | e.operator.Reaches t u} := by
    ext u
    simp [hadds.mem_iff]
  have hcount : (report.states : ℕ∞) = ((t.leafSteps.map (· + 1)).prod : Nat) := by
    rw [hstates, ← Exploration.encard_explored, hexplored, Operator.encard_reaches ht]
  refine ⟨hterm, ⟨t.leafSteps.sum, fun m hm => ?_⟩, ?_, t.leafSteps, forall₂_normalize_leaf ht, ?_,
    ?_, ?_⟩
  · obtain ⟨trace, htrace⟩ :=
      exists_normalize_of_evaluates (e := ⟨e.operator, m, e.strategy⟩) ht hm
    obtain ⟨-, -, hend⟩ := evaluates_of_normalize htrace
    exact ⟨trace, htrace, ((hend _).1 ⟨hreach, hzero⟩).symm⟩
  · rw [encard_reachable ht, hcount]
  · exact_mod_cast hcount
  · rw [encard_maximalRuns ht, interleavings_eq_div]
  · rw [hpaths, clampWord, interleavings_eq_div, Nat.min_comm]
    rfl

/-- The check fails with a violation of confluence only if the operator does. -/
theorem refuses_of_confluence_violation {u v w : Term}
    (h : e.confluence t = .error (.confluenceViolation u v w)) :
    e.operator.Refuses (.confluenceViolation u v w) := by
  obtain ⟨u', _, herr | herr⟩ := error_of_explore (explore_of_confluence_error h)
  · cases herr
  · obtain ⟨leaf, _, hbig⟩ : ∃ leaf ∈ u'.leafTerms,
        e.operator.bigStep .leftmostFirst leaf = .error (.confluenceViolation u v w) :=
      Operator.exists_leaf_of_contractAll_error herr
    rcases Operator.blames_or_refuses_of_bigStep_error hbig "" with ⟨_, _, _, _, hblame⟩ | href
    · cases hblame
    · exact href

end Engine

/-- **Reports on confluence are exact.**  The check never fails with a violation of confluence,
unless the operator breaks its contract and answers with one itself; and every report describes the
reduction graph of its term. -/
theorem confluence_exact (e : Engine) (t : Term) :
    (∀ u v w, e.confluence t = .error (.confluenceViolation u v w) →
      e.operator.Refuses (.confluenceViolation u v w)) ∧
    (e.operator.FailsByDomain →
      ∀ u v w, e.confluence t ≠ .error (.confluenceViolation u v w)) ∧
    ∀ report, e.confluence t = .ok report → report.Describes e t := by
  refine ⟨fun u v w h => Engine.refuses_of_confluence_violation h, ?_,
    fun report h => Engine.describes_of_confluence h⟩
  intro hdom u v w h
  obtain ⟨name, p, q, hcon⟩ := hdom.isDomain (Engine.refuses_of_confluence_violation h)
  cases hcon

/-- An operator that answers with a violation of confluence instead of a domain error. -/
def Operator.contradicting : Operator where
  name := "contradicting"
  accepts _ _ := true
  apply _ _ := .error (.confluenceViolation (.noun .three) (.noun .three) (.noun .three))

open OverlappingRedexes in
/-- The pair under the identity: four terms and two ways; and an operator that breaks its
contract. -/
theorem confluence_exact_pair :
    (∃ report, (Engine.mk .identity 2 .leftmostFirst).confluence pair = .ok report ∧
      report.Describes ⟨.identity, 2, .leftmostFirst⟩ pair ∧ report.states = 4 ∧
      report.paths = 2) ∧
    (Engine.mk .identity 2 .leftmostFirst).confluence pair ≠
      .error (.confluenceViolation pair pair pair) ∧
    Operator.contradicting.Refuses
      (.confluenceViolation (.noun .three) (.noun .three) (.noun .three)) := by
  have heval : Operator.identity.Evaluates pair := ⟨_, rfl⟩
  have hsteps : pair.leafSteps = [1, 1] := by decide
  have hfit : (pair.leafSteps.map (· + 1)).prod ≤ maxExplored := by
    rw [hsteps]
    decide
  have hbroken : (Engine.mk .contradicting 2 .leftmostFirst).confluence
      (sentenceOver [p2] (.noun p7)) =
        .error (.confluenceViolation (.noun .three) (.noun .three) (.noun .three)) :=
    Engine.confluence_of_error ((Engine.explore_of_new (by simp) (by decide)).trans rfl)
  obtain ⟨hviolation, _, _⟩ :=
    confluence_exact (Engine.mk .contradicting 2 .leftmostFirst) (sentenceOver [p2] (.noun p7))
  obtain ⟨_, hnever, hdescribes⟩ :=
    confluence_exact (Engine.mk .identity 2 .leftmostFirst) pair
  obtain ⟨report, hreport⟩ :=
    Engine.exists_confluence (e := ⟨.identity, 2, .leftmostFirst⟩) heval hfit
  have hreachable := Engine.encard_reachable (e := ⟨.identity, 2, .leftmostFirst⟩) heval
  obtain ⟨_, _, hexplore, _, hpaths, _⟩ := Engine.explore_of_confluence hreport
  obtain ⟨_, hfound⟩ := Engine.exploresExactly _ _ (.empty .identity) hexplore
  rw [hsteps] at hreachable hfound
  refine ⟨⟨report, hreport, hdescribes report hreport, ?_, hpaths.trans hfound⟩, ?_, ?_⟩
  · exact_mod_cast (hdescribes report hreport).states.symm.trans hreachable
  · exact hnever (Operator.ofResult_failsByDomain _ _ _) pair pair pair
  · exact hviolation _ _ _ hbroken

end PrimeLanguage
