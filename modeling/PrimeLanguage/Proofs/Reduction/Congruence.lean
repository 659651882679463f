import PrimeLanguage.Proofs.Reduction.Accounting
import PrimeLanguage.Proofs.Term.Signature

/-!
# Equivalence as a congruence

Two terms are equivalent for an engine when both evaluate and their terminal terms are the same
(`equivalent_eq_true_iff`).  Whether a term evaluates hangs on the step bound too, so a compound
term may fail where its parts do not; where it does not fail, its terminal term is that of its parts
put together:

* `evaluate_sentence_iff` — a sentence takes the steps of its body and no others;
* `evaluate_join`, `evaluate_chain` — a join and a chain that evaluate have parts that do, within
  the same bound;
* `evaluate_of_mem_terms` — every term of a trace evaluates to its last one, with the steps that are
  left.

Principal result: `equivalent_congruence`.
-/

namespace PrimeLanguage

/-- The terms that a trace goes through. -/
def Trace.terms (trace : Trace) : List Term :=
  trace.initial :: trace.steps.flatMap fun s => [s.before, s.after]

theorem Trace.mem_terms {trace : Trace} {u : Term} :
    u ∈ trace.terms ↔
      u = trace.initial ∨ ∃ s ∈ trace.steps, u = s.before ∨ u = s.after := by
  simp [Trace.terms]

namespace Engine

variable {e : Engine} {t u v w : Term}

/-! ## Evaluation within the bound -/

/-- A term evaluates to what the evaluation in one go ends in, if the bound allows its events. -/
theorem evaluate_eq_ok_iff :
    e.evaluate t = .ok v ↔ ∃ evs, e.bigStep t = .ok ⟨evs, v⟩ ∧ evs.length ≤ e.maxSteps := by
  unfold evaluate
  rw [map_eq_ok_iff]
  constructor
  · rintro ⟨trace, htrace, rfl⟩
    obtain ⟨hbig, -, hlen⟩ := bigStep_of_normalize htrace
    refine ⟨trace.events, hbig, ?_⟩
    simpa [Trace.events] using hlen
  · rintro ⟨evs, hbig, hlen⟩
    obtain ⟨trace, htrace, -, hfinal⟩ := normalize_of_bigStep hbig hlen
    exact ⟨trace, htrace, hfinal⟩

/-- A term evaluates to a noun as a noun expression, whatever the strategy is. -/
theorem evaluate_eq_noun_iff {q : Prime} :
    e.evaluate t = .ok (.noun q) ↔
      ∃ evs, e.operator.bigStepNoun t = .ok ⟨evs, q⟩ ∧ evs.length ≤ e.maxSteps := by
  rw [evaluate_eq_ok_iff]
  refine exists_congr fun evs => and_congr_left fun _ => ?_
  constructor
  · intro h
    have ht : t.isNounShaped = true := by
      cases t with
      | noun | fusion | chain => rfl
      | adj => cases h
      | sentence =>
        obtain ⟨_, _, h⟩ := bind_eq_ok_iff.1 h
        cases h
      | join =>
        obtain ⟨_, _, _, _, h⟩ := Operator.bigStep_join_eq_ok_iff.1 h
        cases h
    rw [bigStep, Operator.bigStep_of_isNounShaped ht] at h
    obtain ⟨r, hr, h⟩ := map_eq_ok_iff.1 h
    cases h
    exact hr
  · intro h
    rw [bigStep, Operator.bigStep_of_isNounShaped (Operator.isNounShaped_of_bigStepNoun h), h]
    rfl

/-- **A sentence evaluates exactly if its body does.** -/
theorem evaluate_sentence_iff :
    e.evaluate (.sentence t) = .ok v ↔ ∃ t', e.evaluate t = .ok t' ∧ v = .sentence t' := by
  simp only [evaluate_eq_ok_iff]
  constructor
  · rintro ⟨evs, hbig, hlen⟩
    obtain ⟨r, hr, h⟩ := bind_eq_ok_iff.1 hbig
    cases h
    rw [List.length_map] at hlen
    exact ⟨r.result, ⟨r.events, hr, hlen⟩, rfl⟩
  · rintro ⟨t', ⟨evs, hbig, hlen⟩, rfl⟩
    refine ⟨evs.map (·.under [.body]), ?_, by rwa [List.length_map]⟩
    exact bind_eq_ok_iff.2 ⟨⟨evs, t'⟩, hbig, rfl⟩

/-- **A join that evaluates has parts that do**, and ends in a join of their terminal terms. -/
theorem evaluate_join {c : Connective} (h : e.evaluate (.join c t u) = .ok v) :
    ∃ t' u', e.evaluate t = .ok t' ∧ e.evaluate u = .ok u' ∧ v = .join c t' u' := by
  obtain ⟨evs, hbig, hlen⟩ := evaluate_eq_ok_iff.1 h
  obtain ⟨x, y, hx, hy, hv⟩ := Operator.bigStep_join_eq_ok_iff.1 hbig
  cases hv
  simp only [Strategy.length_flatten_visit_pair, List.length_map] at hlen
  refine ⟨x.result, y.result, evaluate_eq_ok_iff.2 ⟨x.events, hx, ?_⟩,
    evaluate_eq_ok_iff.2 ⟨y.events, hy, ?_⟩, rfl⟩
  · omega
  · omega

/-- **A chain that evaluates has a noun position that evaluates to a noun**, and ends in the noun
that the operators make of it. -/
theorem evaluate_chain {o : Term} {os : List Term} (h : e.evaluate (.chain o os t) = .ok v) :
    ∃ q r, e.evaluate t = .ok (.noun q) ∧ e.operator.bigStepOperators (o :: os) q = .ok r ∧
      v = .noun r.result := by
  obtain ⟨evs, hbig, hlen⟩ := evaluate_eq_ok_iff.1 h
  obtain ⟨r, hr, hv⟩ := map_eq_ok_iff.1 hbig
  cases hv
  obtain ⟨inner, hinner, hr⟩ := bind_eq_ok_iff.1 hr
  obtain ⟨outer, houter, hr⟩ := bind_eq_ok_iff.1 hr
  cases hr
  simp only [List.length_append, List.length_map] at hlen
  have hnoun : e.evaluate t = .ok (.noun inner.result) :=
    evaluate_eq_noun_iff.2 ⟨inner.events, hinner, by omega⟩
  exact ⟨inner.result, outer, hnoun, houter, rfl⟩

/-! ## Along a trace -/

/-- What steps of the engine go through leads on to where they lead, in no more steps. -/
theorem Leads.of_mem_terms {ss : List Step} (h : e.Leads t ss u)
    (hw : w ∈ (Trace.mk t ss).terms) : ∃ ss', e.Leads w ss' u ∧ ss'.length ≤ ss.length := by
  -- by induction on the steps: the first two terms start with all of them, the others are left
  induction h with
  | nil t =>
    obtain rfl : w = t := by simpa [Trace.terms] using hw
    exact ⟨[], .nil w, Nat.le_refl 0⟩
  | @cons t u s ss hstep rest ih =>
    obtain ⟨k, -, rfl⟩ := step_eq_ok_some hstep
    have hcases : w = t ∨ w ∈ (Trace.mk (k.stepFrom t).after ss).terms := by
      simp only [Trace.terms, List.flatMap_cons, List.mem_cons, List.mem_append,
        List.not_mem_nil, or_false] at hw ⊢
      rcases hw with rfl | (rfl | rfl) | hw
      · exact .inl rfl
      · exact .inl rfl
      · exact .inr (.inl rfl)
      · exact .inr (.inr hw)
    rcases hcases with rfl | hlater
    · exact ⟨_, .cons hstep rest, Nat.le_refl _⟩
    · obtain ⟨ss', hleads, hlen⟩ := ih hlater
      exact ⟨ss', hleads, Nat.le_succ_of_le hlen⟩

/-- **Every term of a trace evaluates to the last one.** -/
theorem evaluate_of_mem_terms {trace : Trace} (h : e.normalize t = .ok trace)
    (hu : u ∈ trace.terms) : e.evaluate u = .ok trace.final := by
  obtain ⟨rfl, ⟨v, hleads, hv⟩, hlen⟩ := normalize_eq_ok_iff.1 h
  obtain ⟨ss, hrest, hle⟩ := hleads.of_mem_terms hu
  have hnorm : e.normalize u = .ok ⟨u, ss⟩ :=
    normalize_eq_ok_iff.2 ⟨rfl, ⟨v, hrest, hv⟩, Nat.le_trans hle hlen⟩
  have hfinal : trace.final = (Trace.mk u ss).final := hleads.final.trans hrest.final.symm
  unfold evaluate
  rw [hnorm, hfinal]
  rfl

theorem evaluate_final {trace : Trace} (h : e.normalize t = .ok trace) :
    e.evaluate trace.final = .ok trace.final := by
  obtain ⟨rfl, ⟨v, hleads, hv⟩, -⟩ := normalize_eq_ok_iff.1 h
  have hfinal : trace.final = v := hleads.final
  rw [hfinal]
  exact evaluate_eq_ok_iff.2 ⟨[], bigStep_of_step_none hv, Nat.zero_le _⟩

/-! ## Equivalence -/

/-- Terms are equivalent if both evaluate to one terminal term. -/
theorem equivalent_eq_true_iff :
    e.equivalent t u = .ok true ↔ ∃ v, e.evaluate t = .ok v ∧ e.evaluate u = .ok v := by
  rw [equivalent_eq_ok_iff]
  constructor
  · rintro ⟨t', u', ht, hu, hb⟩
    obtain rfl : t' = u' := of_decide_eq_true hb.symm
    exact ⟨t', ht, hu⟩
  · rintro ⟨v, ht, hu⟩
    exact ⟨v, v, ht, hu, by simp⟩

/-- Where two terms evaluate, and to one terminal term, the answer is that they are equivalent. -/
theorem equivalent_answer {b : Bool} (h : e.equivalent t u = .ok b)
    (hsame : ∀ t' u', e.evaluate t = .ok t' → e.evaluate u = .ok u' → t' = u') : b = true := by
  obtain ⟨t', u', ht, hu, rfl⟩ := equivalent_eq_ok_iff.1 h
  exact decide_eq_true (hsame t' u' ht hu)

variable {t' u' : Term} {b : Bool}

theorem equivalent_symm (h : e.equivalent t u = .ok b) : e.equivalent u t = .ok b := by
  obtain ⟨t', u', ht, hu, rfl⟩ := equivalent_eq_ok_iff.1 h
  exact equivalent_eq_ok_iff.2 ⟨u', t', hu, ht, decide_eq_decide.2 eq_comm⟩

/-- Equivalent terms are equivalent to the same terms. -/
theorem equivalent_trans (h : e.equivalent t u = .ok true) (h' : e.equivalent u v = .ok b) :
    e.equivalent t v = .ok b := by
  obtain ⟨w, ht, hu⟩ := equivalent_eq_true_iff.1 h
  obtain ⟨u', v', hu', hv, rfl⟩ := equivalent_eq_ok_iff.1 h'
  cases hu.symm.trans hu'
  exact equivalent_eq_ok_iff.2 ⟨w, v', ht, hv, rfl⟩

theorem equivalent_sentence (h : e.equivalent t t' = .ok true) :
    e.equivalent (.sentence t) (.sentence t') = .ok true := by
  obtain ⟨w, ht, ht'⟩ := equivalent_eq_true_iff.1 h
  exact equivalent_eq_true_iff.2
    ⟨.sentence w, evaluate_sentence_iff.2 ⟨w, ht, rfl⟩, evaluate_sentence_iff.2 ⟨w, ht', rfl⟩⟩

theorem equivalent_join {c : Connective} (ht : e.equivalent t t' = .ok true)
    (hu : e.equivalent u u' = .ok true)
    (h : e.equivalent (.join c t u) (.join c t' u') = .ok b) : b = true := by
  obtain ⟨x, hx, hx'⟩ := equivalent_eq_true_iff.1 ht
  obtain ⟨y, hy, hy'⟩ := equivalent_eq_true_iff.1 hu
  refine equivalent_answer h fun v v' hv hv' => ?_
  obtain ⟨x₁, y₁, hx₁, hy₁, rfl⟩ := evaluate_join hv
  obtain ⟨x₂, y₂, hx₂, hy₂, rfl⟩ := evaluate_join hv'
  -- evaluation is a function, so the parts end in the same terms on both sides
  cases hx.symm.trans hx₁
  cases hy.symm.trans hy₁
  cases hx'.symm.trans hx₂
  cases hy'.symm.trans hy₂
  rfl

/-- The operators make one noun of one noun; without operators there is nothing to make. -/
theorem equivalent_ofOperators {os : List Term} (ht : e.equivalent t t' = .ok true)
    (h : e.equivalent (.ofOperators os t) (.ofOperators os t') = .ok b) : b = true := by
  cases os with
  | nil =>
    rw [Term.ofOperators, Term.ofOperators, ht] at h
    cases h
    rfl
  | cons o os =>
    obtain ⟨x, hx, hx'⟩ := equivalent_eq_true_iff.1 ht
    refine equivalent_answer h fun v v' hv hv' => ?_
    obtain ⟨q, r, hq, hr, rfl⟩ := evaluate_chain hv
    obtain ⟨q', r', hq', hr', rfl⟩ := evaluate_chain hv'
    cases hx.symm.trans hq
    cases hx'.symm.trans hq'
    cases hr.symm.trans hr'
    rfl

end Engine

/-- **Equivalence is a congruence where it answers.**  It is reflexive and symmetric, and equivalent
terms are equivalent to the same terms.  A term that normalizes is equivalent to its terminal term
and to every term of its trace.  Sentences over equivalent terms are equivalent; so are joins of
equivalent terms, and the same operators over equivalent terms, whenever these evaluate within the
bound. -/
theorem equivalent_congruence (e : Engine) :
    (∀ t b, e.equivalent t t = .ok b → b = true) ∧
    (∀ t u b, e.equivalent t u = .ok b → e.equivalent u t = .ok b) ∧
    (∀ t u v b, e.equivalent t u = .ok true → e.equivalent u v = .ok b →
      e.equivalent t v = .ok b) ∧
    (∀ t trace, e.normalize t = .ok trace → e.equivalent t trace.final = .ok true ∧
      ∀ u ∈ trace.terms, e.equivalent t u = .ok true) ∧
    ∀ t t', e.equivalent t t' = .ok true →
      e.equivalent (.sentence t) (.sentence t') = .ok true ∧
      (∀ c u u' b, e.equivalent u u' = .ok true →
        e.equivalent (.join c t u) (.join c t' u') = .ok b → b = true) ∧
      ∀ os b, e.equivalent (.ofOperators os t) (.ofOperators os t') = .ok b → b = true := by
  refine ⟨?_, fun t u b => Engine.equivalent_symm, fun t u v b => Engine.equivalent_trans, ?_, ?_⟩
  · intro t b h
    refine Engine.equivalent_answer h fun v v' hv hv' => ?_
    rw [hv] at hv'
    exact Except.ok.inj hv'
  · intro t trace h
    obtain ⟨hinitial, -⟩ := Engine.normalize_eq_ok_iff.1 h
    have ht : e.evaluate t = .ok trace.final :=
      Engine.evaluate_of_mem_terms h (Trace.mem_terms.2 (.inl hinitial.symm))
    refine ⟨Engine.equivalent_eq_true_iff.2 ⟨_, ht, Engine.evaluate_final h⟩, fun u hu => ?_⟩
    exact Engine.equivalent_eq_true_iff.2 ⟨_, ht, Engine.evaluate_of_mem_terms h hu⟩
  · intro t t' h
    exact ⟨Engine.equivalent_sentence h, fun c u u' b hu => Engine.equivalent_join h hu,
      fun os b => Engine.equivalent_ofOperators h⟩

open OverlappingRedexes in
/-- A fusion and its noun, under an adjective and beside a sentence; and the pair on its trace. -/
theorem equivalent_congruence_pair :
    let e : Engine := ⟨.identity, 2, .rightmostFirst⟩
    e.equivalent fusion19 (.noun p19) = .ok true ∧
    (∃ b, e.equivalent (.ofOperators [.adj p2] fusion19) (.ofOperators [.adj p2] (.noun p19)) =
      .ok b ∧ b = true) ∧
    (∃ b, e.equivalent (.join .imp fusion19 (.sentence fusion19))
      (.join .imp (.noun p19) (.sentence (.noun p19))) = .ok b ∧ b = true) ∧
    e.equivalent pairApplied pair = .ok true ∧ e.equivalent pairApplied pairReduced = .ok true := by
  intro e
  obtain ⟨-, hsymm, htrans, htrace, hcongr⟩ := equivalent_congruence e
  have hfusion : e.equivalent fusion19 (.noun p19) = .ok true :=
    (htrace fusion19 ⟨fusion19, [⟨fusion19, .noun p19, [], pairFuse.details⟩]⟩ (by rfl)).1
  have hpair : e.normalize pair =
      .ok ⟨pair, [⟨pair, pairApplied, pairApply.path, pairApply.details⟩,
        ⟨pairApplied, pairReduced, pairFuse.path, pairFuse.details⟩]⟩ := by rfl
  obtain ⟨hfinal, hterms⟩ := htrace _ _ hpair
  obtain ⟨hsentence, hjoin, hchain⟩ := hcongr _ _ hfusion
  have hchains : ∃ b, e.equivalent (.ofOperators [.adj p2] fusion19)
      (.ofOperators [.adj p2] (.noun p19)) = .ok b :=
    ⟨_, Engine.equivalent_eq_ok_iff.2 ⟨.noun p19, .noun p19, by rfl, by rfl, rfl⟩⟩
  have hjoins : ∃ b, e.equivalent (.join .imp fusion19 (.sentence fusion19))
      (.join .imp (.noun p19) (.sentence (.noun p19))) = .ok b :=
    ⟨_, Engine.equivalent_eq_ok_iff.2 ⟨_, _, by rfl, by rfl, rfl⟩⟩
  obtain ⟨b, hb⟩ := hchains
  obtain ⟨b', hb'⟩ := hjoins
  have happlied : e.equivalent pairApplied pair = .ok true :=
    hsymm _ _ _ (hterms _ (Trace.mem_terms.2 (.inr ⟨_, .head _, .inr rfl⟩)))
  exact ⟨hfusion, ⟨b, hb, hchain _ b hb⟩, ⟨b', hb', hjoin _ _ _ b' hsentence hb'⟩, happlied,
    htrans _ _ _ _ happlied hfinal⟩

end PrimeLanguage
