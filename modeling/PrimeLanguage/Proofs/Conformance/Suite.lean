import PrimeLanguage.Proofs.Conformance.Checks

/-!
# When the suite conforms

The suite always ends with a report, since every sample of the corpus is a term.  Which findings are
failures is decided by the two bounds: the compound sample takes three steps, two of which apply and
cost two evaluation steps each, and nothing in the corpus takes more.

* `Report.Conforms` — every finding of a report conforms;
* `SuiteSettings.Suffices` — the bounds are enough for the corpus.

`exists_areaReport` is about one area, whatever the weights, the modulus and the strategy are.

Principal result: `suite_conforms_iff`.
-/

namespace PrimeLanguage

/-- Every finding of the report conforms. -/
def Report.Conforms (r : Report) : Prop := ∀ f ∈ r.findings, f.Conforms

theorem Report.conforms_foldl_append {reports : List Report} {r : Report} :
    (reports.foldl Report.append r).Conforms ↔ r.Conforms ∧ ∀ r' ∈ reports, r'.Conforms := by
  induction reports generalizing r with
  | nil => simp
  | cons r' reports ih =>
    have happend : (r.append r').Conforms ↔ r.Conforms ∧ r'.Conforms :=
      List.forall_mem_append
    rw [List.foldl_cons, ih, happend, List.forall_mem_cons, and_assoc]

/-- Three steps are enough for the corpus, and four evaluation steps if there is an operator. -/
def SuiteSettings.Suffices (settings : SuiteSettings) : Prop :=
  3 ≤ settings.engine.maxSteps ∧ (settings.operators = [] ∨ 4 ≤ settings.engine.evaluationSteps)

namespace SuiteSettings

variable {settings : SuiteSettings} {k : OperatorKind}

/-- Where the suite runs under an operator, the evaluation steps count. -/
theorem Suffices.evaluationSteps (h : settings.Suffices) (hk : k ∈ settings.operators) :
    4 ≤ settings.engine.evaluationSteps :=
  h.2.resolve_left (List.ne_nil_of_mem hk)

end SuiteSettings

namespace Conformance

open Corpus

variable (settings : SuiteSettings)

/-! ## The areas -/

theorem reductionReport_eq :
    reductionReport settings =
      .ok ⟨normalForms settings wellTypedSamples :: settings.operators.flatMap fun operator =>
        measureFindings settings wellTypedSamples operator ++
          [strategies settings sentenceSamples operator]⟩ := by
  rw [reductionReport, readSamples_wellTyped, readSamples_sentences]
  rfl

theorem semanticsReport_eq :
    semanticsReport settings =
      .ok ⟨settings.operators.map (agreementFinding settings wellTypedSamples)⟩ := by
  rw [semanticsReport, readSamples_wellTyped]
  rfl

/-- **Each area ends with a report, which conforms if the bounds are enough** and resonance is not
among the operators. -/
theorem exists_areaReport (a : Area) :
    ∃ r, areaReport settings a = .ok r ∧
      ((∀ k ∈ settings.operators, k ≠ .resonance) → settings.Suffices → r.Conforms) := by
  cases a with
  | terms =>
    refine ⟨syntaxReport, rfl, fun _ _ => ?_⟩
    exact List.forall_mem_cons.2 ⟨conforms_roundTrip, List.forall_mem_singleton.2
      conforms_malformedTexts⟩
  | typing =>
    refine ⟨_, by rw [areaReport, typingReport, readSamples_wellTyped, readIllTyped_illTyped]; rfl,
      fun _ _ => List.forall_mem_cons.2 ⟨?_, List.forall_mem_singleton.2 ?_⟩⟩
    · exact (Finding.conforms_faults_iff (by decide)).2 fun x hx =>
        kindFault?_eq_none (small_wellTypedSamples x hx)
    · exact (Finding.conforms_faults_iff (by decide)).2 illTypedFault?_eq_none
  | reduction =>
    refine ⟨_, reductionReport_eq settings, fun hops h => List.forall_mem_cons.2
      ⟨conforms_normalForms_iff.2 h.1, fun f hf => ?_⟩⟩
    obtain ⟨k, hk, hf⟩ := List.mem_flatMap.1 hf
    have hop := engineFor_atMostDoubles settings (hops k hk)
    rcases List.mem_append.1 hf with hf | hf
    · refine conforms_measureFindings (fun x hx => ?_) f hf
      obtain ⟨trace, htrace, _⟩ := (small_wellTypedSamples x hx).exists_normalize hop h.1
      exact ⟨trace, htrace⟩
    · rw [List.mem_singleton.1 hf]
      refine (Finding.conforms_faults_iff (by decide)).2 fun x hx => ?_
      obtain ⟨trace, htrace, _⟩ := (small_sentenceSamples x hx).exists_normalize hop h.1
      exact strategyFault?_eq_none htrace
  | confluence =>
    refine ⟨_, by rw [areaReport, confluenceReport, readSamples_wellTyped]; rfl,
      fun hops _ f hf => ?_⟩
    obtain ⟨k, hk, hf⟩ := List.mem_flatMap.1 hf
    rcases List.mem_pair.1 hf with rfl | rfl
    · exact conforms_overlapping (hops k hk)
    · exact conforms_everyOrder (hops k hk)
  | semantics =>
    refine ⟨_, semanticsReport_eq settings, fun hops h f hf => ?_⟩
    obtain ⟨k, hk, rfl⟩ := List.mem_map.1 hf
    exact (conforms_agreementFinding_iff (hops k hk) h.1).2 (h.evaluationSteps hk)
  | equivalence =>
    refine ⟨_, by rw [areaReport, equivalenceReport, readPairs_pairs]; rfl,
      fun hops h => List.forall_mem_cons.2 ⟨?_, fun f hf => ?_⟩⟩
    · exact (Finding.conforms_faults_iff (by decide)).2 fun x hx =>
        verdictFault?_eq_none rfl h.1 hx
    · obtain ⟨k, hk, rfl⟩ := List.mem_map.1 hf
      exact (Finding.conforms_faults_iff (by decide)).2 fun x hx =>
        coincidenceFault?_eq_none (s := (settings.engineFor k).semantics)
          (engineFor_atMostDoubles settings (hops k hk)) h.1 (h.evaluationSteps hk) hx
  | canonical =>
    refine ⟨_, by rw [areaReport, canonicalReport, readSamples_wellTyped]; rfl,
      fun _ h => List.forall_mem_cons.2 ⟨conforms_known,
        List.forall_mem_cons.2 ⟨conforms_structureFinding, List.forall_mem_singleton.2 ?_⟩⟩⟩
    exact (Finding.conforms_ofFailures_iff (by decide)).2 (preservationFaults_eq_nil h.1)

/-! ## The suite -/

/-- **The suite conforms exactly when the bounds suffice.**  It ends with a report whatever the
settings are.  If resonance is not among the operators, then every finding except the one on known
triads is a pass or a warning exactly when the engine has three steps and, unless there is no
operator, the evaluator has four. -/
theorem suite_conforms_iff :
    ∃ report, suiteReport settings = .ok report ∧
      ((∀ k ∈ settings.operators, k ≠ .resonance) →
        ((∀ f ∈ report.findings, f.validator ≠ "canonical/known" →
          f.severity = .pass ∨ f.severity = .warning) ↔
            3 ≤ settings.engine.maxSteps ∧
              (settings.operators = [] ∨ 4 ≤ settings.engine.evaluationSteps))) := by
  choose reports hreports hconforms using exists_areaReport settings
  have hsuite : Area.all.mapM (areaReport settings) = .ok (Area.all.map reports) :=
    mapM_eq_ok_iff.2 (List.forall₂_map_right_iff.2 (List.forall₂_same.2 fun a _ => hreports a))
  refine ⟨_, by rw [suiteReport, hsuite]; rfl, fun hops => ?_⟩
  change ((Area.all.map reports).foldl Report.append .empty).Conforms ↔ settings.Suffices
  rw [Report.conforms_foldl_append, List.forall_mem_map]
  constructor
  · rintro ⟨-, hall⟩
    have hsteps : 3 ≤ settings.engine.maxSteps := by
      have hreduction := hall .reduction (by decide)
      have heq : reports .reduction = _ :=
        Except.ok.inj ((hreports .reduction).symm.trans (reductionReport_eq settings))
      rw [heq] at hreduction
      exact conforms_normalForms_iff.1 (hreduction _ List.mem_cons_self)
    refine ⟨hsteps, ?_⟩
    cases hoperators : settings.operators with
    | nil => exact Or.inl rfl
    | cons k ks =>
      have hk : k ∈ settings.operators := hoperators ▸ List.mem_cons_self
      have hsemantics := hall .semantics (by decide)
      have heq : reports .semantics = _ :=
        Except.ok.inj ((hreports .semantics).symm.trans (semanticsReport_eq settings))
      rw [heq] at hsemantics
      exact Or.inr ((conforms_agreementFinding_iff (hops k hk) hsteps).1
        (hsemantics _ (List.mem_map_of_mem hk)))
  · intro h
    exact ⟨fun f hf => absurd hf List.not_mem_nil, fun a _ => hconforms a hops h⟩

/-- The least bounds with three operators, one of them twice; and one evaluation step less. -/
theorem suite_conforms_iff_least :
    let engine : EngineSettings := ⟨.nextPrime, .standard, 3, 4, .leftmostFirst, .standard⟩
    let operators : List OperatorKind := [.nextPrime, .modular, .identity, .identity]
    (∃ report, suiteReport ⟨engine, operators⟩ = .ok report ∧
      ∀ f ∈ report.findings, f.validator ≠ "canonical/known" →
        f.severity = .pass ∨ f.severity = .warning) ∧
    ∃ report, suiteReport ⟨{ engine with evaluationSteps := 3 }, operators⟩ = .ok report ∧
      ¬ ∀ f ∈ report.findings, f.validator ≠ "canonical/known" →
        f.severity = .pass ∨ f.severity = .warning := by
  intro engine operators
  have hops : ∀ k ∈ operators, k ≠ .resonance := by decide
  obtain ⟨report, hreport, hiff⟩ := suite_conforms_iff ⟨engine, operators⟩
  obtain ⟨report', hreport', hiff'⟩ :=
    suite_conforms_iff ⟨{ engine with evaluationSteps := 3 }, operators⟩
  refine ⟨⟨report, hreport, (hiff hops).2 ⟨by decide, Or.inr (by decide)⟩⟩, report', hreport', ?_⟩
  rw [hiff' hops]
  rintro ⟨_, hnone | hfour⟩
  · cases hnone
  · exact absurd hfour (by decide)

end Conformance

end PrimeLanguage
