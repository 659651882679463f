import PrimeLanguage.Proofs.Conformance.Corpus
import PrimeLanguage.Proofs.Semantics.Equivalence
import PrimeLanguage.Proofs.Triad.Canonical
import PrimeLanguage.Proofs.Typing.Annotation

/-!
# What the checks find

One lemma for each check of the suite: a finding that lists failures conforms when no sample has a
fault, and no sample has one when the bounds are large enough.  Where the bounds decide, on the
normal forms and on the agreement of the meanings, the compound sample needs them.

* `Finding.Conforms` — a pass or a warning, unless the finding is about the known triads;
* `MeasureTally.Clean`, `TriadTally.Clean` — the invariants of the two checks that keep a tally.
-/

namespace PrimeLanguage

/-! ## Findings -/

/-- The finding is a pass or a warning.  Nothing is said of the check of known triads, which depends
on floating-point scores. -/
def Finding.Conforms (f : Finding) : Prop :=
  f.validator ≠ "canonical/known" → f.severity = .pass ∨ f.severity = .warning

theorem Finding.validator_ofFailures (validator passed failed : String) (failures : List String) :
    (Finding.ofFailures validator passed failed failures).validator = validator := by
  cases failures <;> rfl

/-- A list of failures conforms when it is empty. -/
theorem Finding.conforms_ofFailures_iff {validator passed failed : String} {failures : List String}
    (hv : validator ≠ "canonical/known") :
    (Finding.ofFailures validator passed failed failures).Conforms ↔ failures = [] := by
  cases failures with
  | nil => exact ⟨fun _ => rfl, fun _ _ => Or.inl rfl⟩
  | cons failure failures =>
    refine ⟨fun h => ?_, fun h => absurd h (List.cons_ne_nil _ _)⟩
    rcases h hv with h | h <;> cases h

/-- The faults of samples conform when no sample has one. -/
theorem Finding.conforms_faults_iff {α : Type} {validator passed failed : String}
    {fault? : α → Option String} {samples : List α} (hv : validator ≠ "canonical/known") :
    (Finding.ofFailures validator passed failed (samples.filterMap fault?)).Conforms ↔
      ∀ x ∈ samples, fault? x = none :=
  (Finding.conforms_ofFailures_iff hv).trans List.filterMap_eq_nil_iff

namespace Conformance

open Corpus

variable {settings : SuiteSettings} {k : OperatorKind} {e : Engine}

/-- The operators of a suite at most double, but for resonance. -/
theorem engineFor_atMostDoubles (settings : SuiteSettings) (hk : k ≠ .resonance) :
    (settings.engineFor k).engine.operator.AtMostDoubles :=
  Operator.build_atMostDoubles hk _

theorem expectationOperator_ne : expectationOperator ≠ .resonance := by decide

/-! ## Syntax and typing -/

theorem roundTripFault?_eq_none {source : String} {t : Term} (h : Prints source t) :
    roundTripFault? source = none := by
  obtain ⟨rfl, hdepth⟩ := h
  simp [roundTripFault?, Term.parse_of_groupDepth_le hdepth]

theorem conforms_roundTrip : roundTrip.Conforms := by
  refine (Finding.conforms_faults_iff (by decide)).2 fun source hsource => ?_
  rcases List.mem_append.1 hsource with h | h
  · obtain ⟨x, hx, rfl⟩ : ∃ x ∈ wellTypedSamples, x.1.source = source := List.mem_map.1 h
    exact roundTripFault?_eq_none (prints_wellTypedSamples x hx)
  · obtain ⟨x, hx, rfl⟩ : ∃ x ∈ illTypedSamples, x.1.source = source := List.mem_map.1 h
    exact roundTripFault?_eq_none (prints_illTypedSamples x hx)

theorem conforms_malformedTexts : malformedTexts.Conforms :=
  (Finding.conforms_faults_iff (by decide)).2 (by decide +kernel)

/-- A term of the expected kind accepts its own type as an annotation. -/
theorem kindFault?_eq_none {s : Sample} {t : Term} (h : t.Small s.kind) :
    kindFault? (s, t) = none := by
  obtain ⟨ty, hty, hkind⟩ := h.exists_infer
  have hown : infer (Context.empty.bind t ty) t = .ok ty := by
    refine Context.infer_eq_ok_iff.2 ⟨hty, Context.admits_binds [(t, ty)] fun a ha => ?_⟩
    rw [List.mem_singleton.1 ha]
    exact hty
  simp only [kindFault?, hty, hkind, hown, if_true]

theorem illTypedFault?_eq_none : ∀ x ∈ illTypedSamples, illTypedFault? x = none := by decide

/-! ## Normal forms -/

theorem value_wellTypedSamples : ∀ x ∈ wellTypedSamples,
    (Operator.nextSum.value x.2).map Term.signature = .ok x.1.normalForm := by
  decide +kernel

theorem normalFormFault?_eq_none (he : e.operator = .nextSum) (hm : 3 ≤ e.maxSteps)
    {x : Read Sample} (hx : x ∈ wellTypedSamples) : normalFormFault? e x = none := by
  have hop : e.operator.AtMostDoubles :=
    he ▸ Operator.build_atMostDoubles expectationOperator_ne .standard
  obtain ⟨n, hn, hform⟩ := map_eq_ok_iff.1 (value_wellTypedSamples x hx)
  have heval : e.evaluate x.2 = .ok n := by
    rw [(small_wellTypedSamples x hx).evaluate_eq hop hm, he, hn]
  simp only [normalFormFault?, heval, hform, if_true]

/-- **The normal forms are reached exactly with three steps**: the compound sample takes them. -/
theorem conforms_normalForms_iff :
    (normalForms settings wellTypedSamples).Conforms ↔ 3 ≤ settings.engine.maxSteps := by
  refine (Finding.conforms_faults_iff (by decide)).trans ⟨fun h => ?_, fun hm x hx => ?_⟩
  · obtain ⟨s, hs, hsteps, _⟩ := exists_compoundSample
    have hcompound := h _ hs
    cases heval : (settings.engineFor expectationOperator).engine.evaluate compoundTerm with
    | error err =>
      simp only [normalFormFault?, heval] at hcompound
      cases hcompound
    | ok n =>
      obtain ⟨trace, htrace, _⟩ := map_eq_ok_iff.1 heval
      have hlength := (Engine.evaluates_of_normalize htrace).2.1
      have hbound := (Engine.bigStep_of_normalize htrace).2.2
      rw [hlength, hsteps] at hbound
      exact hbound
  · exact normalFormFault?_eq_none rfl hm hx

/-! ## The measure -/

/-- No failure is listed, and the warnings are no failures. -/
structure MeasureTally.Clean (tally : MeasureTally) : Prop where
  failures : tally.failures = []
  warnings : ∀ f ∈ tally.warnings, f.Conforms

theorem MeasureTally.clean_empty : MeasureTally.empty.Clean :=
  ⟨rfl, fun _ hf => absurd hf List.not_mem_nil⟩

theorem MeasureTally.Clean.add {a b : MeasureTally} (ha : a.Clean) (hb : b.Clean) :
    (a.add b).Clean := by
  refine ⟨?_, fun f hf => ?_⟩
  · change a.failures ++ b.failures = []
    rw [ha.failures, hb.failures, List.append_nil]
  · exact (List.mem_append.1 hf).elim (ha.warnings f) (hb.warnings f)

theorem MeasureTally.Clean.foldl {tallies : List MeasureTally} {a : MeasureTally} (ha : a.Clean)
    (h : ∀ tally ∈ tallies, tally.Clean) : (tallies.foldl MeasureTally.add a).Clean := by
  induction tallies generalizing a with
  | nil => exact ha
  | cons tally tallies ih =>
    obtain ⟨htally, hrest⟩ := List.forall_mem_cons.1 h
    exact ih (ha.add htally) hrest

/-- Every plateau is a fusion. -/
theorem plateauFaults_eq_nil {t : Term} {name : String} {r : MeasureReport}
    (h : e.measureReport t = .ok r) : plateauFaults k name r = [] := by
  obtain ⟨_, hplateaus⟩ := Engine.plateaus_eq_fusions h
  rw [Engine.measureReport_eq] at h
  obtain ⟨trace, _, rfl⟩ := map_eq_ok_iff.1 h
  refine List.filterMap_eq_nil_iff.2 fun plateau hplateau => ?_
  rw [hplateaus] at hplateau
  obtain ⟨⟨s, i⟩, hfusion, rfl⟩ := List.mem_map.1 hplateau
  obtain ⟨hmem, hrule⟩ := List.mem_filter.1 hfusion
  have hget : trace.steps[i]? = some s := List.mem_zipIdx_iff_getElem?.1 hmem
  have hsample : s.sample.rule = .fuse := of_decide_eq_true hrule
  simp only [List.getElem?_map, hget, Option.map_some, hsample, if_true]

theorem clean_tallySample {s : Sample} {t : Term} {trace : Trace}
    (h : e.normalize t = .ok trace) : (tallySample e k (s, t)).Clean := by
  have hreport : e.measureReport t = .ok ⟨trace, trace.steps.map Step.sample⟩ := by
    rw [Engine.measureReport_eq, h]
    rfl
  simp only [tallySample, hreport]
  refine ⟨plateauFaults_eq_nil hreport, fun f hf => ?_⟩
  dsimp only at hf
  split at hf
  · rw [List.mem_singleton.1 hf]
    exact fun _ => Or.inr rfl
  · cases hf

theorem conforms_measureFindings {samples : List (Read Sample)}
    (h : ∀ x ∈ samples, ∃ trace, (settings.engineFor k).engine.normalize x.2 = .ok trace) :
    ∀ f ∈ measureFindings settings samples k, f.Conforms := by
  have hsamples : ∀ tally ∈ samples.map (tallySample (settings.engineFor k).engine k),
      tally.Clean := by
    intro tally htally
    obtain ⟨⟨s, t⟩, hx, rfl⟩ := List.mem_map.1 htally
    obtain ⟨trace, htrace⟩ := h _ hx
    exact clean_tallySample htrace
  have hclean := MeasureTally.clean_empty.foldl hsamples
  intro f hf
  rcases List.mem_append.1 hf with hf | hf
  · exact hclean.warnings f hf
  · rw [List.mem_singleton.1 hf]
    exact (Finding.conforms_ofFailures_iff (by decide)).2 hclean.failures

/-! ## Strategies -/

theorem strategyFault?_eq_none {s : Sample} {t : Term} {trace : Trace}
    (h : e.normalize t = .ok trace) : strategyFault? e k (s, t) = none := by
  have hother : ∀ strategy, ({ e with strategy } : Engine).evaluate t = .ok trace.final := by
    intro strategy
    obtain ⟨trace', htrace', hfinal, _⟩ := Engine.normalize_other h { e with strategy } rfl rfl
    rw [Engine.evaluate, htrace', ← hfinal]
    rfl
  simp only [strategyFault?, hother, if_true]

/-! ## Every order -/

theorem conforms_overlapping (hk : k ≠ .resonance) : (overlapping settings k).Conforms := by
  have hop := engineFor_atMostDoubles settings hk
  obtain ⟨reports, hreports⟩ :
      ∃ reports, overlappingRedexes.mapM (settings.engineFor k).engine.confluence = .ok reports :=
    exists_mapM_eq_ok fun t ht => (moderate_overlappingRedexes t ht).exists_confluence hop
  rw [overlapping, Engine.localConfluence, hreports]
  exact fun _ => Or.inl rfl

theorem conforms_everyOrder (hk : k ≠ .resonance) :
    (everyOrder settings wellTypedSamples k).Conforms := by
  refine (Finding.conforms_faults_iff (by decide)).2 fun result hresult => ?_
  obtain ⟨x, hx, rfl⟩ := List.mem_map.1 hresult
  obtain ⟨report, hreport⟩ :=
    (small_wellTypedSamples x hx).exists_confluence (engineFor_atMostDoubles settings hk)
  simp only [hreport]

/-! ## Meanings -/

/-- **The meanings agree exactly with four evaluation steps**: the compound sample applies twice. -/
theorem conforms_agreementFinding_iff (hk : k ≠ .resonance) (hm : 3 ≤ settings.engine.maxSteps) :
    (agreementFinding settings wellTypedSamples k).Conforms ↔
      4 ≤ settings.engine.evaluationSteps := by
  have hop := engineFor_atMostDoubles settings hk
  refine (Finding.conforms_faults_iff (by decide)).trans ⟨fun h => ?_, fun hn result hresult => ?_⟩
  · obtain ⟨s, hs, _, hsize⟩ := exists_compoundSample
    have hcompound := h _ (List.mem_map_of_mem hs)
    cases hagree : (settings.engineFor k).semantics.agreement compoundTerm with
    | error err =>
      simp only [hagree] at hcompound
      cases hcompound
    | ok a =>
      obtain ⟨trace, htrace, hbound⟩ := Semantics.exists_agreement_iff.1 ⟨a, hagree⟩
      have happlications := Engine.applications_of_normalize htrace
      have htwo : trace.applications = 2 := by omega
      rw [htwo] at hbound
      exact hbound
  · obtain ⟨x, hx, rfl⟩ := List.mem_map.1 hresult
    obtain ⟨trace, htrace, happlications⟩ :=
      (small_wellTypedSamples x hx).exists_normalize hop hm
    have hbound : 2 * trace.applications ≤ (settings.engineFor k).semantics.evaluationSteps :=
      Nat.le_trans (Nat.mul_le_mul_left 2 happlications) hn
    obtain ⟨a, ha⟩ := Semantics.exists_agreement_iff.2 ⟨trace, htrace, hbound⟩
    simp only [ha]

/-! ## Equivalence -/

theorem value_pairSamples : ∀ x ∈ pairSamples,
    (do
      let l ← Operator.nextSum.value x.2.1
      let r ← Operator.nextSum.value x.2.2
      return Engine.sameTerminal l r) = .ok x.1.equivalent := by
  decide +kernel

theorem verdictFault?_eq_none (he : e.operator = .nextSum) (hm : 3 ≤ e.maxSteps)
    {x : Pair × Term × Term} (hx : x ∈ pairSamples) : verdictFault? e x = none := by
  have hop : e.operator.AtMostDoubles :=
    he ▸ Operator.build_atMostDoubles expectationOperator_ne .standard
  obtain ⟨hl, hr⟩ := small_pairSamples x hx
  have hverdict : e.equivalent x.2.1 x.2.2 = .ok x.1.equivalent := by
    rw [Engine.equivalent, hl.evaluate_eq hop hm, hr.evaluate_eq hop hm, he]
    exact value_pairSamples x hx
  simp only [verdictFault?, hverdict, if_true]

/-- Nouns have no brackets, so both equivalences say the same. -/
theorem coincidenceFault?_eq_none {s : Semantics} (hop : s.engine.operator.AtMostDoubles)
    (hm : 3 ≤ s.engine.maxSteps) (hn : 4 ≤ s.evaluationSteps) {x : Pair × Term × Term}
    (hx : x ∈ pairSamples) : coincidenceFault? s k x = none := by
  obtain ⟨hl, hr⟩ := small_pairSamples x hx
  obtain ⟨l, hnl, hal⟩ := hl.exists_normalize hop hm
  obtain ⟨r, hnr, har⟩ := hr.exists_normalize hop hm
  obtain ⟨p, hp⟩ := hl.final_eq_noun hnl
  obtain ⟨q, hq⟩ := hr.final_eq_noun hnr
  have hoperational : s.engine.equivalent x.2.1 x.2.2 = .ok (decide (l.final = r.final)) :=
    Engine.equivalent_eq_ok_iff.2
      ⟨l.final, r.final, map_eq_ok_iff.2 ⟨l, hnl, rfl⟩, map_eq_ok_iff.2 ⟨r, hnr, rfl⟩, rfl⟩
  have hdenotational :=
    Semantics.equivalent_of_normalize hnl hnr (by omega) (by omega)
  have hsame : (l.final.unbracketed = r.final.unbracketed) = (l.final = r.final) := by
    rw [hp, hq]
    rfl
  simp only [hsame] at hdenotational
  simp only [coincidenceFault?, hoperational, hdenotational, bind, Except.bind, pure, Except.pure,
    if_true]

/-! ## Triads -/

/-- No failure is listed, and the canonicalizer remembers nothing but enumerated triads. -/
structure TriadTally.Clean (w : Weights) (tally : TriadTally) : Prop where
  failures : tally.failures = []
  faithful : tally.canonicalizer.Faithful w

theorem decompositionFaults_enumerate (target : Prime) :
    decompositionFaults target (Triad.enumerate target.val) = [] := by
  refine List.filterMap_eq_nil_iff.2 fun t ht => if_pos ?_
  have hfor := Triad.mem_enumerate_iff.1 ht
  have hpq : t.p < t.q := hfor.p_lt_q
  have hqr : t.q < t.r := hfor.q_lt_r
  simp [hfor.sum_eq, hfor.odd, hpq, hqr]

/-- A target whose triads are enumerated and selected from has no fault, whatever the scores. -/
theorem TriadTally.Clean.add {w : Weights} {tally : TriadTally} (h : tally.Clean w)
    (target : Prime) : (tally.add target).Clean w := by
  obtain ⟨c, hc, hlearns⟩ := h.faithful.triads target
  obtain ⟨c', hc', hlearns'⟩ := hlearns.faithful.canonical target
  have hfailures :
      tally.failures ++ decompositionFaults target (Triad.enumerate target.val) = [] := by
    rw [h.failures, decompositionFaults_enumerate, List.append_nil]
  simp only [TriadTally.add, hc, hc', bind, Except.bind, pure, Except.pure]
  by_cases hempty : Triad.enumerate target.val = []
  · simp only [hempty, selectBest, List.isEmpty_nil, if_true]
    exact ⟨hempty ▸ hfailures, hlearns'.faithful⟩
  · obtain ⟨t, ht, hsel⟩ : ∃ t ∈ Triad.enumerate target.val,
        selectBest (Triad.score w) Triad.withinTolerance (Triad.enumerate target.val) = some t :=
      exists_selectBest hempty
    have hcontains : (Triad.enumerate target.val).contains t = true :=
      List.contains_iff_mem.2 ht
    simp only [hsel, hcontains, if_true]
    exact ⟨hfailures, hlearns'.faithful⟩

theorem TriadTally.Clean.foldl {w : Weights} {tally : TriadTally} (h : tally.Clean w)
    (targets : List Prime) : (targets.foldl TriadTally.add tally).Clean w := by
  induction targets generalizing tally with
  | nil => exact h
  | cons target targets ih => exact ih (h.add target)

theorem conforms_known : known.Conforms :=
  fun hother => absurd (Finding.validator_ofFailures ..) hother

theorem conforms_structureFinding : (structureFinding settings).Conforms := by
  have hstart : TriadTally.Clean settings.engine.weights ⟨[], 0, settings.engine.canonicalizer⟩ :=
    ⟨rfl, Canonicalizer.faithful_ofWeights _⟩
  exact (Finding.conforms_ofFailures_iff (by decide)).2 (hstart.foldl triadTargets).failures

/-- Without a fault in any sample there is none in turn, if the canonicalizer stays faithful. -/
theorem faultsInTurn_eq_nil {α : Type} {w : Weights} {xs : List α} {c : Canonicalizer}
    {fault? : Canonicalizer → α → Option String × Canonicalizer} (hc : c.Faithful w)
    (h : ∀ x ∈ xs, ∀ c, c.Faithful w → ∃ c', fault? c x = (none, c') ∧ c'.Faithful w) :
    (faultsInTurn fault? c xs).1 = [] := by
  induction xs generalizing c with
  | nil => rfl
  | cons x xs ih =>
    obtain ⟨hx, hxs⟩ := List.forall_mem_cons.1 h
    obtain ⟨c', hc', hfaithful⟩ := hx c hc
    simp only [faultsInTurn, hc', ih hfaithful hxs, Option.toList_none, List.append_nil]

/-- The canonical form reduces to the same terminal term. -/
theorem preservationFault?_eq_none (hm : 3 ≤ settings.engine.maxSteps) {x : Read Sample}
    (hx : x ∈ wellTypedSamples) {c : Canonicalizer} (hc : c.Faithful settings.engine.weights) :
    ∃ c', preservationFault? settings c x = (none, c') ∧ c'.Faithful settings.engine.weights := by
  obtain ⟨trace, htrace, _⟩ := (small_wellTypedSamples x hx).exists_normalize
    (e := (settings.engineFor expectationOperator).engine)
    (engineFor_atMostDoubles settings expectationOperator_ne) hm
  obtain ⟨c', hcanonical, hfaithful⟩ := Canonicalizer.canonicalize_eq hc x.2
  have hafter := Engine.normalize_mapFusions (Fusion.keepsFused_canonical settings.engine.weights)
    (settings.engineFor expectationOperator).engine x.2
  rw [htrace] at hafter
  obtain ⟨trace', htrace', hfinal, _⟩ := hafter.exists_ok
  refine ⟨c', ?_, hfaithful⟩
  simp only [preservationFault?, Engine.evaluate, hcanonical, htrace, htrace', Except.map, hfinal,
    bind, Except.bind, pure, Except.pure, if_true]

theorem preservationFaults_eq_nil (hm : 3 ≤ settings.engine.maxSteps) :
    (faultsInTurn (preservationFault? settings) settings.engine.canonicalizer
      wellTypedSamples).1 = [] :=
  faultsInTurn_eq_nil (Canonicalizer.faithful_ofWeights settings.engine.weights)
    fun _ hx _ hc => preservationFault?_eq_none hm hx hc

end Conformance

end PrimeLanguage
