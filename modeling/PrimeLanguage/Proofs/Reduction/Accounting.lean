import PrimeLanguage.Reduction.Measure
import PrimeLanguage.Proofs.Lambda.Blame
import PrimeLanguage.Proofs.Reduction.Confluence

/-!
# Counting steps

A contraction takes one off the measure, keeps the number of leaves, and shrinks the term only when
it applies an adjective (`Operator.Contracts.size`, `Operator.Contracts.length_leaves`).  A terminal
term weighs as much as it has leaves, so a reduction to one has as many steps as the measure exceeds
the leaves, and as many applications as the size does.

* `Engine.Leads.length_leaves`, `Engine.Leads.size` — the engine's own steps, one after another;
* `Trace.fusions` — the numbers of the steps that fuse.

Principal result: `normalization_exact`.  Success of `Engine.normalize` is settled by
`Engine.normalize_eq_ok_iff` and `Engine.Leads.length_of_terminal`, and the report on the measure by
`Engine.measureReport_eq`.
-/

namespace PrimeLanguage

/-! ## Leaves and weight -/

/-- Every leaf has its weight. -/
theorem Term.length_leaves_le_weight {w : Nat} (hw : 0 < w) (t : Term) :
    t.leaves.length ≤ t.weight w := by
  induction t using Term.induction with
  | noun | adj | chain | fusion => exact Term.weight_pos hw _
  | sentence e ih => simpa [Term.leaves, Term.weight] using ih
  | join c l r ihl ihr =>
    simp only [Term.leaves, Term.weight, List.length_append, List.length_map]
    omega

theorem Term.length_leaves_of_isNounShaped {t : Term} (h : t.isNounShaped = true) :
    t.leaves.length = 1 := by
  cases t with
  | noun | chain | fusion => rfl
  | adj | sentence | join => cases h

/-- How much smaller a rule makes a term. -/
def Rule.shrinkage : Rule → Nat
  | .fuse => 0
  | .apply => 1

namespace Operator

variable {op : Operator} {strategy : Strategy} {t : Term} {k : Contraction}

/-! ## What a contraction changes -/

theorem size_of_contractExpr (h : contractExpr op t = .ok k) :
    k.after.size + k.details.rule.shrinkage = t.size := by
  fun_induction contractExpr op t generalizing k with
  | case1 f s hs => cases h; rfl
  | case2 | case5 => cases h
  | case3 o os q =>
    obtain ⟨p, c, rfl, _, rfl⟩ := applyFirst_eq_ok h
    simp only [Term.size, Term.weight_ofOperators, Term.weight, StepDetails.rule, Rule.shrinkage]
  | case4 o os e _ ih =>
    obtain ⟨k', hk', rfl⟩ := map_eq_ok_iff.1 h
    have hsize := ih hk'
    simp only [Contraction.inChain, Term.size, Term.weight] at hsize ⊢
    omega

/-- **A contraction shrinks the term by what its rule shrinks**, whatever redex it contracts. -/
theorem Contracts.size (h : op.Contracts t k) :
    k.after.size + k.details.rule.shrinkage = t.size := by
  induction h with
  | expr h => exact size_of_contractExpr h
  | body _ ih => exact ih
  | left _ ih | right _ ih =>
    simp only [Contraction.inLeft, Contraction.inRight, Term.size, Term.weight] at ih ⊢
    omega

/-- **A contraction keeps the number of leaves.** -/
theorem Contracts.length_leaves (h : op.Contracts t k) :
    k.after.leaves.length = t.leaves.length := by
  induction h with
  | expr h =>
    obtain ⟨ht, hk⟩ := isNounShaped_of_contractExpr h
    rw [Term.length_leaves_of_isNounShaped ht, Term.length_leaves_of_isNounShaped hk]
  | body _ ih => simpa [Contraction.inBody, Term.leaves] using ih
  | left _ ih | right _ ih => simp [Contraction.inLeft, Contraction.inRight, Term.leaves, ih]

/-- A terminal term weighs as much as it has leaves: they are nouns and adjectives. -/
theorem weight_of_terminal (w : Nat) (h : contract op strategy t = .ok none) :
    t.weight w = t.leaves.length := by
  induction t using Term.induction with
  | noun | adj => rfl
  | chain | fusion =>
    obtain ⟨k, _, hk⟩ := map_eq_ok_iff.1 h
    cases hk
  | sentence e ih =>
    obtain ⟨x, hx, hnone⟩ := bind_eq_ok_iff.1 h
    cases x with
    | some k => cases hnone
    | none => simpa [Term.weight, Term.leaves] using ih hx
  | join c l r ihl ihr =>
    obtain ⟨hl, hr⟩ := contract_join_none h
    simp only [Term.weight, Term.leaves, List.length_append, List.length_map, ihl hl, ihr hr]

end Operator

namespace Engine

variable {e : Engine} {t u : Term}

/-! ## What the engine's steps keep -/

/-- **What leads on keeps the leaves.** -/
theorem Leads.length_leaves {ss : List Step} (h : e.Leads t ss u) :
    u.leaves.length = t.leaves.length := by
  induction h with
  | nil t => rfl
  | cons hstep _ ih =>
    obtain ⟨k, hk, rfl⟩ := Takes.contracts (Or.inl hstep)
    exact ih.trans hk.length_leaves

/-- **A reduction to a terminal term has as many steps as the measure exceeds the leaves.** -/
theorem Leads.length_of_terminal {ss : List Step} (h : e.Leads t ss u)
    (hu : e.step u = .ok none) : ss.length = t.measure - t.leaves.length := by
  have hmeasure := h.measure_add_length
  have hleaves := h.length_leaves
  have hterminal : u.measure = u.leaves.length :=
    Operator.weight_of_terminal 2 (step_eq_ok_none hu)
  omega

/-- **What leads on shrinks the term by one for each application.** -/
theorem Leads.size {ss : List Step} (h : e.Leads t ss u) :
    u.size + ss.countP (·.rule = .apply) = t.size := by
  induction h with
  | nil t => rfl
  | cons hstep _ ih =>
    obtain ⟨k, hk, rfl⟩ := Takes.contracts (Or.inl hstep)
    rw [← hk.size, List.countP_cons, ← Nat.add_assoc, ih]
    change k.after.size + (if decide (k.details.rule = .apply) = true then 1 else 0) =
      k.after.size + k.details.rule.shrinkage
    cases k.details.rule <;> rfl

/-- Each step on the way is the engine's step from the term in front of it. -/
theorem Leads.step_before {ss : List Step} (h : e.Leads t ss u) {s : Step} (hs : s ∈ ss) :
    e.step s.before = .ok (some s) := by
  induction h with
  | nil t => cases hs
  | cons hstep _ ih =>
    obtain ⟨k, _, rfl⟩ := step_eq_ok_some hstep
    rcases List.mem_cons.1 hs with rfl | hs
    · exact hstep
    · exact ih hs

/-! ## Normalization -/

theorem normalize_eq_ok_iff {trace : Trace} :
    e.normalize t = .ok trace ↔ trace.initial = t ∧
      (∃ u, e.Leads t trace.steps u ∧ e.step u = .ok none) ∧ trace.steps.length ≤ e.maxSteps := by
  constructor
  · intro h
    obtain ⟨ss, hrun, rfl⟩ := map_eq_ok_iff.1 h
    exact ⟨rfl, run_eq_ok_iff.1 hrun⟩
  · rintro ⟨rfl, h⟩
    exact map_eq_ok_iff.2 ⟨trace.steps, run_eq_ok_iff.2 h, rfl⟩

/-- **The bound suffices from the excess of the measure over the leaves on.** -/
theorem exists_normalize_iff :
    (∃ trace, e.normalize t = .ok trace) ↔
      (∃ ss u, e.Leads t ss u ∧ e.step u = .ok none) ∧
        t.measure - t.leaves.length ≤ e.maxSteps := by
  constructor
  · rintro ⟨trace, h⟩
    obtain ⟨_, ⟨u, hleads, hu⟩, hm⟩ := normalize_eq_ok_iff.1 h
    refine ⟨⟨trace.steps, u, hleads, hu⟩, ?_⟩
    rw [← hleads.length_of_terminal hu]
    exact hm
  · rintro ⟨⟨ss, u, hleads, hu⟩, hm⟩
    rw [← hleads.length_of_terminal hu] at hm
    exact ⟨⟨t, ss⟩, normalize_eq_ok_iff.2 ⟨rfl, ⟨u, hleads, hu⟩, hm⟩⟩

/-- **A trace applies as many adjectives as the size exceeds the leaves.** -/
theorem applications_of_normalize {trace : Trace} (h : e.normalize t = .ok trace) :
    trace.applications + t.leaves.length = t.size := by
  obtain ⟨_, ⟨u, hleads, hu⟩, _⟩ := normalize_eq_ok_iff.1 h
  have hsize := hleads.size
  have hterminal : u.size = u.leaves.length :=
    Operator.weight_of_terminal 1 (step_eq_ok_none hu)
  rw [hterminal, hleads.length_leaves] at hsize
  rw [Trace.applications, Nat.add_comm]
  exact hsize

/-! ## The report on the measure -/

/-- Steps that decrease the measure are sampled one by one. -/
theorem sampleSteps_of_decreasing {ss : List Step}
    (h : ∀ s ∈ ss, s.after.measure < s.before.measure) (i : Nat) :
    sampleSteps i ss = .ok (ss.map Step.sample) := by
  induction ss generalizing i with
  | nil => rfl
  | cons s ss ih =>
    have hs : s.sample.measureAfter < s.sample.measureBefore := h s List.mem_cons_self
    have hss := ih (fun s' hs' => h s' (List.mem_cons_of_mem s hs')) (i + 1)
    simp only [sampleSteps, if_pos hs, hss]
    rfl

theorem contracts_of_mem_steps {trace : Trace} (h : e.normalize t = .ok trace) {s : Step}
    (hs : s ∈ trace.steps) : ∃ k, e.operator.Contracts s.before k ∧ s = k.stepFrom s.before := by
  obtain ⟨_, ⟨u, hleads, _⟩, _⟩ := normalize_eq_ok_iff.1 h
  exact Takes.contracts (Or.inl (hleads.step_before hs))

/-- **The report never meets a step that does not decrease the measure.** -/
theorem measureReport_eq :
    e.measureReport t =
      (e.normalize t).map fun trace => ⟨trace, trace.steps.map Step.sample⟩ := by
  cases h : e.normalize t with
  | error err => simp only [measureReport, h]; rfl
  | ok trace =>
    have hdecreasing : ∀ s ∈ trace.steps, s.after.measure < s.before.measure := by
      intro s hs
      obtain ⟨k, hk, hstep⟩ := contracts_of_mem_steps h hs
      have hone := hk.measure
      rw [hstep]
      simp only [Contraction.stepFrom]
      omega
    simp only [measureReport, h, bind, Except.bind, sampleSteps_of_decreasing hdecreasing]
    rfl

/-- A normalization fails with a violation of the measure only if the operator does. -/
theorem refuses_of_normalize_violation {i before after : Nat} {rule : Rule}
    (h : e.normalize t = .error (.measureViolation i rule before after)) :
    e.operator.Refuses (.measureViolation i rule before after) := by
  rcases error_of_normalize h with hbig | ⟨u, hu⟩
  · rcases Operator.blames_or_refuses_of_bigStep_error hbig "" with ⟨u, _, err, _, hblame⟩ | href
    · cases hblame
    · exact href
  · cases hu

end Engine

/-- The numbers of the steps that fuse. -/
def Trace.fusions (trace : Trace) : List Nat :=
  (trace.steps.zipIdx.filter fun (s, _) => s.rule = .fuse).map (·.2)

/-- **The plateaus are the steps that fuse.** -/
theorem Engine.plateaus_eq_fusions {e : Engine} {t : Term} {report : MeasureReport}
    (h : e.measureReport t = .ok report) :
    e.normalize t = .ok report.trace ∧ report.plateaus = report.trace.fusions := by
  rw [measureReport_eq] at h
  obtain ⟨trace, htrace, rfl⟩ := map_eq_ok_iff.1 h
  refine ⟨htrace, ?_⟩
  have hplateau : ∀ s ∈ trace.steps,
      (!decide (s.sample.sizeAfter < s.sample.sizeBefore)) = decide (s.rule = .fuse) := by
    intro s hs
    obtain ⟨k, hk, hstep⟩ := contracts_of_mem_steps htrace hs
    have hsize : s.after.size + s.rule.shrinkage = s.before.size := by
      rw [hstep]
      exact hk.size
    rw [Bool.not_eq_eq_eq_not, ← decide_not, decide_eq_decide]
    cases hrule : s.rule with
    | fuse =>
      simp only [hrule, Rule.shrinkage] at hsize
      simp only [Step.sample, not_true_eq_false, iff_false]
      omega
    | apply =>
      simp only [hrule, Rule.shrinkage] at hsize
      simp only [Step.sample, reduceCtorEq, not_false_eq_true, iff_true]
      omega
  simp only [MeasureReport.plateaus, Trace.fusions, List.zipIdx_map, List.filter_map, List.map_map]
  exact congrArg (List.map Prod.snd)
    (List.filter_congr fun x hx => hplateau x.1 (List.fst_mem_of_mem_zipIdx hx))

/-- **Reduction is strongly normalizing, step by step.**  Every step takes exactly one off the
measure, and off the size one if it applies an adjective and nothing if it fuses.  So normalization
succeeds exactly when the engine's steps lead to a terminal term and the bound allows for the excess
of the measure over the number of leaves, which is then the number of steps.  The report on the
measure fails exactly as normalization does, never with a violation if the operator keeps its
contract, and its plateaus are the steps that fuse. -/
theorem normalization_exact (e : Engine) (t : Term) :
    (∀ s, e.Takes t s →
      s.after.measure + 1 = t.measure ∧
      (s.rule = .fuse → s.after.size = t.size) ∧ (s.rule = .apply → s.after.size + 1 = t.size)) ∧
    t.leaves.length ≤ t.measure ∧
    ((∃ trace, e.normalize t = .ok trace) ↔
      (∃ ss u, e.Leads t ss u ∧ e.step u = .ok none) ∧
        t.measure - t.leaves.length ≤ e.maxSteps) ∧
    (∀ trace, e.normalize t = .ok trace →
      trace.steps.length = t.measure - t.leaves.length) ∧
    (∀ err, e.measureReport t = .error err ↔ e.normalize t = .error err) ∧
    (∀ i rule before after, e.measureReport t = .error (.measureViolation i rule before after) →
      e.operator.Refuses (.measureViolation i rule before after)) ∧
    (e.operator.FailsByDomain → ∀ i rule before after,
      e.measureReport t ≠ .error (.measureViolation i rule before after)) ∧
    ∀ report, e.measureReport t = .ok report →
      e.normalize t = .ok report.trace ∧ report.plateaus = report.trace.fusions := by
  have hviolation : ∀ i rule before after,
      e.measureReport t = .error (.measureViolation i rule before after) →
        e.operator.Refuses (.measureViolation i rule before after) := by
    intro i rule before after h
    rw [Engine.measureReport_eq] at h
    exact Engine.refuses_of_normalize_violation (map_eq_error_iff.1 h)
  refine ⟨?_, Term.length_leaves_le_weight (by decide) t, Engine.exists_normalize_iff, ?_, ?_,
    hviolation, ?_, fun report h => Engine.plateaus_eq_fusions h⟩
  · intro s hs
    obtain ⟨k, hk, rfl⟩ := hs.contracts
    have hsize := hk.size
    refine ⟨hk.measure, fun hrule => ?_, fun hrule => ?_⟩
    · have hfuse : k.details.rule = .fuse := hrule
      rw [hfuse] at hsize
      exact hsize
    · have happly : k.details.rule = .apply := hrule
      rw [happly] at hsize
      exact hsize
  · intro trace h
    obtain ⟨_, ⟨u, hleads, hu⟩, _⟩ := Engine.normalize_eq_ok_iff.1 h
    exact hleads.length_of_terminal hu
  · intro err
    rw [Engine.measureReport_eq]
    exact map_eq_error_iff
  · intro hdom i rule before after h
    obtain ⟨name, p, q, hcon⟩ := hdom.isDomain (hviolation i rule before after h)
    cases hcon

/-- An operator that answers with a violation of the measure instead of a domain error. -/
def Operator.violating : Operator where
  name := "violating"
  accepts _ _ := true
  apply _ _ := .error (.measureViolation 0 .apply 2 1)

open OverlappingRedexes in
/-- The pair under the identity: its fusion, its application, and the report on both; and an
operator that breaks its contract. -/
theorem normalization_exact_pair :
    (pairFused.measure + 1 = pair.measure ∧ pairFused.size = pair.size) ∧
    pairReduced.size + 1 = pairFused.size ∧
    (∃ trace, (Engine.mk .identity 2 .leftmostFirst).normalize pair = .ok trace ∧
      trace.steps.length = pair.measure - pair.leaves.length) ∧
    (∃ report, (Engine.mk .identity 2 .leftmostFirst).measureReport pair = .ok report ∧
      report.plateaus = [0]) ∧
    (Engine.mk .identity 2 .leftmostFirst).measureReport pair ≠
      .error (.measureViolation 0 .fuse 5 5) ∧
    Operator.violating.Refuses (.measureViolation 0 .apply 2 1) := by
  have hfuse : (Engine.mk .identity 2 .leftmostFirst).step pair =
      .ok (some ⟨pair, pairFused, pairFuse.path, pairFuse.details⟩) := by rfl
  have happly : (Engine.mk .identity 2 .leftmostFirst).step pairFused =
      .ok (some ⟨pairFused, pairReduced, pairApply.path, pairApply.details⟩) := by rfl
  have hend : (Engine.mk .identity 2 .leftmostFirst).step pairReduced = .ok none := by rfl
  have hok : ∃ report, (Engine.mk .identity 2 .leftmostFirst).measureReport pair = .ok report ∧
      report.trace.fusions = [0] := ⟨_, rfl, rfl⟩
  have hbroken : (Engine.mk .violating 2 .leftmostFirst).measureReport
      (sentenceOver [p2] (.noun p7)) = .error (.measureViolation 0 .apply 2 1) := by rfl
  obtain ⟨hsteps, _, hnorm, hlength, _, _, hnever, hreport⟩ :=
    normalization_exact (Engine.mk .identity 2 .leftmostFirst) pair
  obtain ⟨happlied, _⟩ := normalization_exact (Engine.mk .identity 2 .leftmostFirst) pairFused
  obtain ⟨_, _, _, _, _, hrefuses, _⟩ := normalization_exact
    (Engine.mk .violating 2 .leftmostFirst) (sentenceOver [p2] (.noun p7))
  obtain ⟨hmeasure, hsize, _⟩ := hsteps _ (Or.inl hfuse)
  obtain ⟨_, _, hshrinks⟩ := happlied _ (Or.inl happly)
  obtain ⟨trace, htrace⟩ :=
    hnorm.2 ⟨⟨_, _, .cons hfuse (.cons happly (.nil pairReduced)), hend⟩, by decide⟩
  obtain ⟨report, hreported, hfusions⟩ := hok
  refine ⟨⟨hmeasure, hsize rfl⟩, hshrinks rfl, ⟨trace, htrace, hlength trace htrace⟩, ?_, ?_, ?_⟩
  · exact ⟨report, hreported, (hreport report hreported).2.trans hfusions⟩
  · exact hnever (Operator.ofResult_failsByDomain _ _ _) 0 .fuse 5 5
  · exact hrefuses 0 .apply 2 1 hbroken

end PrimeLanguage
