import PrimeLanguage.Operator.Builtin
import PrimeLanguage.Reduction.Confluence
import PrimeLanguage.Proofs.Reduction.Leaves
import PrimeLanguage.Proofs.Reduction.Run

/-!
# Every order of steps

A run takes any possible step wherever it stands (`Engine.Run`); `Engine.Takes` says that a step is
the one of the strategy or any possible one.  What carries the argument is that a contraction of any
redex leaves the result of the evaluation as it is and takes one event off
(`Operator.bigStep_of_contracts`); so a run of a term that evaluates never meets an error, can go on
as long as an event is left, and ends where the evaluation ends (`Run.bigStep`).

Principal result: `normalize_order_independent`.
-/

namespace PrimeLanguage

namespace Operator

variable {op : Operator} {strategy : Strategy} {t : Term}

/-- **A contraction of any redex keeps the result** and takes one event off. -/
theorem bigStep_of_contracts {k : Contraction} {r : Reduct Term} (hk : op.Contracts t k)
    (h : bigStep op strategy t = .ok r) :
    ∃ r', bigStep op strategy k.after = .ok r' ∧ r'.result = r.result ∧
      r'.events.length + 1 = r.events.length := by
  induction hk generalizing r with
  | expr hk =>
    rw [bigStep_of_contractExpr hk] at h
    obtain ⟨r', hr', rfl⟩ := map_eq_ok_iff.1 h
    exact ⟨r', hr', rfl, rfl⟩
  | body _ ih =>
    obtain ⟨x, hx, h⟩ := bind_eq_ok_iff.1 h
    cases h
    obtain ⟨x', hx', hres, hlen⟩ := ih hx
    refine ⟨_, bind_eq_ok_iff.2 ⟨x', hx', rfl⟩, ?_, ?_⟩
    · simp only [hres]
    · simpa using hlen
  | left _ ih =>
    obtain ⟨x, y, hx, hy, rfl⟩ := bigStep_join_eq_ok_iff.1 h
    obtain ⟨x', hx', hres, hlen⟩ := ih hx
    refine ⟨_, bigStep_join_eq_ok_iff.2 ⟨x', y, hx', hy, rfl⟩, ?_, ?_⟩
    · simp only [hres]
    · simp only [Strategy.length_flatten_visit_pair, List.length_map]
      omega
  | right _ ih =>
    obtain ⟨x, y, hx, hy, rfl⟩ := bigStep_join_eq_ok_iff.1 h
    obtain ⟨y', hy', hres, hlen⟩ := ih hy
    refine ⟨_, bigStep_join_eq_ok_iff.2 ⟨x, y', hx, hy', rfl⟩, ?_, ?_⟩
    · simp only [hres]
    · simp only [Strategy.length_flatten_visit_pair, List.length_map]
      omega

/-- A chain or fusion that evaluates has a redex, whose contraction is the first event. -/
theorem contractExpr_of_bigStep {r : Reduct Term} (ht : t.isNounShaped = true)
    (hnoun : t.isNoun = false) (h : bigStep op strategy t = .ok r) :
    ∃ k, contractExpr op t = .ok k ∧ r.events ≠ [] := by
  cases hk : contractExpr op t with
  | error err =>
    have herr : bigStepNoun op t = .error err := bigStepNoun_of_contractExpr_error hnoun hk
    rw [bigStep_of_isNounShaped ht, herr] at h
    cases h
  | ok k =>
    rw [bigStep_of_contractExpr hk] at h
    obtain ⟨r', _, rfl⟩ := map_eq_ok_iff.1 h
    exact ⟨k, rfl, List.cons_ne_nil _ _⟩

/-- A term that evaluates has all its redexes, and one as long as an event is left. -/
theorem contractAll_of_bigStep {r : Reduct Term} (h : bigStep op strategy t = .ok r) :
    ∃ ks, contractAll op t = .ok ks ∧ (ks = [] ↔ r.events = []) := by
  induction t using Term.induction generalizing r with
  | noun | adj => cases h; exact ⟨[], rfl, by simp⟩
  | chain | fusion =>
    obtain ⟨k, hk, hne⟩ := contractExpr_of_bigStep rfl rfl h
    refine ⟨[k], ?_, ?_⟩
    · rw [contractAll, hk]
      rfl
    · simp [hne]
  | sentence e ih =>
    obtain ⟨x, hx, h⟩ := bind_eq_ok_iff.1 h
    cases h
    obtain ⟨ks, hks, hnil⟩ := ih hx
    exact ⟨_, bind_eq_ok_iff.2 ⟨ks, hks, rfl⟩, by simpa using hnil⟩
  | join c l r ihl ihr =>
    obtain ⟨x, y, hx, hy, rfl⟩ := bigStep_join_eq_ok_iff.1 h
    obtain ⟨ls, hls, hlnil⟩ := ihl hx
    obtain ⟨rs, hrs, hrnil⟩ := ihr hy
    refine ⟨_, bind_eq_ok_iff.2 ⟨ls, hls, bind_eq_ok_iff.2 ⟨rs, hrs, rfl⟩⟩, ?_⟩
    rw [← List.length_eq_zero_iff, ← List.length_eq_zero_iff] at hlnil hrnil ⊢
    simp only [List.length_append, List.length_map, Strategy.length_flatten_visit_pair]
    omega

end Operator

namespace Engine

variable {e : Engine} {t u : Term}

/-- The steps `ss` lead from `t` to `u`, each of them any possible step where it is taken. -/
inductive Run (e : Engine) : Term → List Step → Term → Prop where
  | nil (t : Term) : Run e t [] t
  | cons {t u : Term} {s : Step} {next ss : List Step} (h : e.successors t = .ok next)
    (hs : s ∈ next) (rest : Run e s.after ss u) : Run e t (s :: ss) u

theorem contracts_of_mem_successors {next : List Step} {s : Step} (h : e.successors t = .ok next)
    (hs : s ∈ next) : ∃ k, e.operator.Contracts t k ∧ s = k.stepFrom t := by
  obtain ⟨ks, hks, rfl⟩ := map_eq_ok_iff.1 h
  obtain ⟨k, hk, rfl⟩ := List.mem_map.1 hs
  exact ⟨k, Operator.contracts_of_mem_contractAll hks hk, rfl⟩

/-- The step is the one that the engine takes from `t`, or one of all its steps. -/
def Takes (e : Engine) (t : Term) (s : Step) : Prop :=
  e.step t = .ok (some s) ∨ ∃ next, e.successors t = .ok next ∧ s ∈ next

theorem Takes.contracts {s : Step} (h : e.Takes t s) :
    ∃ k, e.operator.Contracts t k ∧ s = k.stepFrom t := by
  rcases h with h | ⟨next, hnext, hs⟩
  · obtain ⟨k, hk, rfl⟩ := step_eq_ok_some h
    exact ⟨k, Operator.contracts_of_contract hk, rfl⟩
  · exact contracts_of_mem_successors hnext hs

theorem successors_of_bigStep {r : Reduct Term} (h : e.bigStep t = .ok r) :
    ∃ next, e.successors t = .ok next ∧ (next = [] ↔ r.events = []) := by
  obtain ⟨ks, hks, hnil⟩ := Operator.contractAll_of_bigStep h
  exact ⟨_, map_eq_ok_iff.2 ⟨ks, hks, rfl⟩, by simpa using hnil⟩

/-- A term whose evaluation has no event is its own result. -/
theorem result_of_events_nil {r : Reduct Term} (h : e.bigStep t = .ok r) (hr : r.events = []) :
    r.result = t := by
  rcases step_of_bigStep h with ⟨_, rfl⟩ | ⟨s, r', _, _, rfl⟩
  · rfl
  · cases hr

/-- **What a run keeps**: the result, and the number of steps taken and to be taken. -/
theorem Run.bigStep {ss : List Step} {r : Reduct Term} (hrun : e.Run t ss u)
    (h : e.bigStep t = .ok r) :
    ∃ r', e.bigStep u = .ok r' ∧ r'.result = r.result ∧
      ss.length + r'.events.length = r.events.length := by
  induction hrun generalizing r with
  | nil t => exact ⟨r, h, rfl, Nat.zero_add _⟩
  | cons hnext hs _ ih =>
    obtain ⟨k, hk, rfl⟩ := contracts_of_mem_successors hnext hs
    obtain ⟨r₁, hr₁, hres₁, hlen₁⟩ := Operator.bigStep_of_contracts hk h
    obtain ⟨r', hr', hres, hlen⟩ := ih hr₁
    refine ⟨r', hr', hres.trans hres₁, ?_⟩
    rw [List.length_cons]
    omega

/-- Engines over one operator evaluate alike, up to the order of events. -/
theorem bigStep_other {e' : Engine} {r : Reduct Term} (ho : e'.operator = e.operator)
    (h : e.bigStep t = .ok r) :
    ∃ r', e'.bigStep t = .ok r' ∧ r'.result = r.result ∧ r'.events.Perm r.events := by
  rw [Engine.bigStep, ho]
  exact Operator.bigStep_strategy_perm h e'.strategy

/-- **Runs of a term that normalizes** never meet an error, are maximal exactly when they are as
long as the trace, and then end in its final term. -/
theorem Run.of_normalize {e' : Engine} {trace : Trace} {ss : List Step}
    (ho : e'.operator = e.operator) (h : e.normalize t = .ok trace) (hrun : e'.Run t ss u) :
    ss.length ≤ trace.steps.length ∧
    ∃ next, e'.successors u = .ok next ∧ (next = [] ↔ ss.length = trace.steps.length) ∧
      (next = [] → u = trace.final) := by
  obtain ⟨r, hr, hres, hperm⟩ := bigStep_other ho (bigStep_of_normalize h).1
  obtain ⟨r', hr', hres', hlen⟩ := hrun.bigStep hr
  obtain ⟨next, hnext, hnil⟩ := successors_of_bigStep hr'
  have hsteps : r.events.length = trace.steps.length := by
    rw [hperm.length_eq, Trace.events, List.length_map]
  refine ⟨by omega, next, hnext, ?_, fun hn => ?_⟩
  · rw [hnil, ← List.length_eq_zero_iff]
    omega
  · rw [← result_of_events_nil hr' (hnil.1 hn), hres', hres]

/-- Within one bound, success under one strategy is success under the other, with the same final
term and the same number of steps. -/
theorem normalize_other {trace : Trace} (h : e.normalize t = .ok trace) (e' : Engine)
    (ho : e'.operator = e.operator) (hm : e'.maxSteps = e.maxSteps) :
    ∃ trace', e'.normalize t = .ok trace' ∧ trace'.final = trace.final ∧
      trace'.events.Perm trace.events := by
  obtain ⟨hbig, _, hlen⟩ := bigStep_of_normalize h
  obtain ⟨r, hr, hres, hperm⟩ := bigStep_other ho hbig
  have hle : r.events.length ≤ e'.maxSteps := by
    rw [hperm.length_eq, Trace.events, List.length_map, hm]
    exact hlen
  obtain ⟨trace', htrace', hev, hfin⟩ := normalize_of_bigStep hr hle
  exact ⟨trace', htrace', hfin.trans hres, hev ▸ hperm⟩

/-- The events of a trace are those of the leaves, in the order of the strategy. -/
theorem events_of_normalize {trace : Trace} (h : e.normalize t = .ok trace) :
    trace.events = (e.strategy.visit t.leaves).flatMap e.operator.leafEvents := by
  have hbig := (bigStep_of_normalize h).1
  have hleaves := Operator.bigStep_eq_of_ok hbig e.strategy
  rw [← Engine.bigStep, hbig] at hleaves
  exact congrArg Reduct.events (Except.ok.inj hleaves)

/-- A leaf of a term that normalizes within a bound normalizes within it on its own. -/
theorem normalize_leaf {trace : Trace} (h : e.normalize t = .ok trace) {leaf : Leaf}
    (hleaf : leaf ∈ t.leaves) :
    ∃ trace', e.normalize leaf.term = .ok trace' ∧
      e.operator.leafEvents leaf = trace'.events.map (·.under leaf.path) := by
  obtain ⟨hbig, _, hlen⟩ := bigStep_of_normalize h
  have hmem : leaf.term ∈ t.leafTerms := List.mem_map_of_mem hleaf
  obtain ⟨r, hr⟩ := Operator.bigStep_leaf_of_ok hbig hmem
  have hev := Operator.leafEvents_of_ok (Term.isSentence_of_mem_leafTerms hmem) hr
  have hle : r.events.length ≤ e.maxSteps := by
    have hvisit : leaf ∈ e.strategy.visit t.leaves := (e.strategy.visit_perm _).mem_iff.2 hleaf
    have hblock := List.mem_map_of_mem (f := e.operator.leafEvents) hvisit
    have hsub := List.sublist_flatten_of_mem hblock
    rw [← List.flatMap_def, ← events_of_normalize h, hev] at hsub
    have hshort := hsub.length_le
    rw [List.length_map, Trace.events, List.length_map] at hshort
    exact Nat.le_trans hshort hlen
  obtain ⟨trace', htrace', hev', _⟩ := normalize_of_bigStep hr hle
  exact ⟨trace', htrace', by rw [hev, hev']⟩

/-- **Every order of steps leads to the same end.** -/
theorem normalize_order_independent (op : Operator) (t : Term) :
    (∀ e e' : Engine, e.operator = op → e'.operator = op →
      ∀ trace, e.normalize t = .ok trace → ∀ ss u, e'.Run t ss u →
        ss.length ≤ trace.steps.length ∧
        ∃ next, e'.successors u = .ok next ∧ (next = [] ↔ ss.length = trace.steps.length) ∧
          (next = [] → u = trace.final)) ∧
    ∀ m : Nat,
      ((∃ x, (Engine.mk op m .leftmostFirst).normalize t = .ok x) ↔
        ∃ y, (Engine.mk op m .rightmostFirst).normalize t = .ok y) ∧
      ∀ x y, (Engine.mk op m .leftmostFirst).normalize t = .ok x →
        (Engine.mk op m .rightmostFirst).normalize t = .ok y →
        x.final = y.final ∧ x.steps.length = y.steps.length ∧
        ∃ block : Leaf → List Event,
          (∀ leaf ∈ t.leaves, ∃ z, (Engine.mk op m .leftmostFirst).normalize leaf.term = .ok z ∧
            block leaf = z.events.map (·.under leaf.path)) ∧
          x.events = t.leaves.flatMap block ∧ y.events = t.leaves.reverse.flatMap block := by
  refine ⟨?_, fun m => ⟨⟨?_, ?_⟩, ?_⟩⟩
  · rintro e e' rfl ho trace h ss u hrun
    exact hrun.of_normalize ho h
  · rintro ⟨x, hx⟩
    obtain ⟨y, hy, _⟩ := normalize_other hx ⟨op, m, .rightmostFirst⟩ rfl rfl
    exact ⟨y, hy⟩
  · rintro ⟨y, hy⟩
    obtain ⟨x, hx, _⟩ := normalize_other hy ⟨op, m, .leftmostFirst⟩ rfl rfl
    exact ⟨x, hx⟩
  · intro x y hx hy
    obtain ⟨y', hy', hfin, hperm⟩ := normalize_other hx ⟨op, m, .rightmostFirst⟩ rfl rfl
    rw [hy] at hy'
    cases hy'
    refine ⟨hfin.symm, ?_, op.leafEvents, ?_, events_of_normalize hx, events_of_normalize hy⟩
    · simpa [Trace.events] using hperm.length_eq.symm
    · exact fun leaf hleaf => normalize_leaf hx hleaf

end Engine

/-! ## A pair of redexes -/

namespace OverlappingRedexes

/-- What `fusion19` fuses to. -/
def p19 : Prime := .ofAccepted 19 (by decide)

/-- A fusion and an adjective over a noun, each in a sentence of its own. -/
def pair : Term := .join .seq (.sentence fusion19) (sentenceOver [p2] (.noun p7))

/-- The pair after its fusion. -/
def pairFused : Term := .join .seq (.sentence (.noun p19)) (sentenceOver [p2] (.noun p7))

/-- The pair after its application under the identity. -/
def pairApplied : Term := .join .seq (.sentence fusion19) (.sentence (.noun p7))

/-- The pair after both steps. -/
def pairReduced : Term := .join .seq (.sentence (.noun p19)) (.sentence (.noun p7))

theorem fusion19_odd : p3.isOdd = true ∧ p5.isOdd = true ∧ p11.isOdd = true := by decide

theorem fusion19_distinct : p3 ≠ p5 ∧ p5 ≠ p11 ∧ p3 ≠ p11 := by decide

/-- The contraction of the fusion. -/
def pairFuse : Event :=
  ⟨[.left, .body], .fuse ⟨p3, p5, p11, fusion19_odd, fusion19_distinct⟩ p19⟩

/-- The contraction of the adjective. -/
def pairApply : Event := ⟨[.right, .body], .apply p2 p7 ⟨p7, .forward⟩⟩

end OverlappingRedexes

open OverlappingRedexes in
/-- The right redex of the pair first, and the traces of both strategies. -/
theorem Engine.normalize_order_independent_pair :
    (∃ next, (Engine.mk .identity 2 .leftmostFirst).successors pairApplied = .ok next ∧
      next ≠ []) ∧
    ∃ x y, (Engine.mk .identity 2 .leftmostFirst).normalize pair = .ok x ∧
      (Engine.mk .identity 2 .rightmostFirst).normalize pair = .ok y ∧
      x.final = y.final ∧ x.steps.length = y.steps.length := by
  have hx : (Engine.mk .identity 2 .leftmostFirst).normalize pair =
      .ok ⟨pair, [⟨pair, pairFused, pairFuse.path, pairFuse.details⟩,
        ⟨pairFused, pairReduced, pairApply.path, pairApply.details⟩]⟩ := by rfl
  have hy : (Engine.mk .identity 2 .rightmostFirst).normalize pair =
      .ok ⟨pair, [⟨pair, pairApplied, pairApply.path, pairApply.details⟩,
        ⟨pairApplied, pairReduced, pairFuse.path, pairFuse.details⟩]⟩ := by rfl
  have hnext : (Engine.mk .identity 2 .leftmostFirst).successors pair =
      .ok [⟨pair, pairFused, pairFuse.path, pairFuse.details⟩,
        ⟨pair, pairApplied, pairApply.path, pairApply.details⟩] := by rfl
  have hrun : (Engine.mk .identity 2 .leftmostFirst).Run pair
      [⟨pair, pairApplied, pairApply.path, pairApply.details⟩] pairApplied :=
    .cons hnext (List.mem_cons_of_mem _ (List.mem_singleton_self _)) (.nil pairApplied)
  refine ⟨?_, ?_⟩
  · obtain ⟨_, next, hsucc, hnil, _⟩ :=
      (normalize_order_independent .identity pair).1 _ _ rfl rfl _ hx _ _ hrun
    exact ⟨next, hsucc, fun h => absurd (hnil.1 h) (by decide)⟩
  · obtain ⟨hfin, hlen, _⟩ := ((normalize_order_independent .identity pair).2 2).2 _ _ hx hy
    exact ⟨_, _, hx, hy, hfin, hlen⟩

end PrimeLanguage
