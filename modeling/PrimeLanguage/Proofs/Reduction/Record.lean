import Mathlib.Data.List.Chain
import PrimeLanguage.Proofs.Reduction.Accounting
import PrimeLanguage.Proofs.Reduction.Position

/-!
# What a step records

A step keeps the term before it, the way to the redex, what happened there and the term after it.
These agree with each other: the way leads to a redex of the rule, and the term after the step is
the one before it with the result of the rule in place of the redex.

* `Operator.Rewrites` — the reduction rules, on the redex alone;
* `Operator.Contracts.rewritesAt` — every contraction is a rule at the end of its way;
* `Engine.Leads.isChain` — the engine's own steps go on where the one before ended.

Principal result: `step_records_faithful`.
-/

namespace PrimeLanguage

namespace Operator

variable {op : Operator} {t : Term} {k : Contraction}

/-- **The reduction rules**: the redex and its result, for a step that records these details.  A
fusion becomes the noun of its sum, and the first operator of a chain acts on the noun it stands
next to, which leaves the other operators over the noun that results. -/
inductive Rewrites (op : Operator) : StepDetails → Term → Term → Prop where
  | fuse {f : Fusion} {s : Prime} (h : s.val = f.p.val + f.q.val + f.r.val) :
    Rewrites op (.fuse f s) (.fusion f) (.noun s)
  | apply {p q : Prime} {c : Combination} (os : List Term) (h : op.combine p q = .ok c) :
    Rewrites op (.apply p q c) (.chain (.adj p) os (.noun q)) (.ofOperators os (.noun c.result))

/-- The contraction applies a rule to what its way leads to. -/
def RewritesAt (op : Operator) (t : Term) (k : Contraction) : Prop :=
  ∃ u v, op.Rewrites k.details u v ∧ t.subterm? k.path = some u ∧ k.after = t.replaceAt k.path v

/-- A rule that applies to a part applies to the whole. -/
theorem RewritesAt.inside {u : Term} (h : op.RewritesAt u k) (ps : List Position)
    (hu : t.subterm? ps = some u) : op.RewritesAt t (k.inside t ps) := by
  obtain ⟨redex, result, hrule, hsub, hafter⟩ := h
  refine ⟨redex, result, hrule, ?_, ?_⟩
  · rw [Contraction.inside, Term.subterm?_append, hu]
    exact hsub
  · rw [Contraction.inside, hafter, Term.replaceAt_append hu]

theorem rewritesAt_of_contractExpr (h : contractExpr op t = .ok k) : op.RewritesAt t k := by
  fun_induction contractExpr op t generalizing k with
  | case1 f s hs =>
    cases h
    exact ⟨_, _, .fuse (Fusion.fused?_eq_some.1 hs), rfl, rfl⟩
  | case2 | case5 => cases h
  | case3 o os q =>
    obtain ⟨p, c, rfl, hc, rfl⟩ := applyFirst_eq_ok h
    exact ⟨_, _, .apply os hc, rfl, rfl⟩
  | case4 o os e _ ih =>
    obtain ⟨k', hk, rfl⟩ := map_eq_ok_iff.1 h
    exact (ih hk).inside [.noun] rfl

/-- **Every contraction is a rule at the end of its way.** -/
theorem Contracts.rewritesAt (h : op.Contracts t k) : op.RewritesAt t k := by
  induction h with
  | expr h => exact rewritesAt_of_contractExpr h
  | body _ ih => exact ih.inside [.body] rfl
  | left _ ih => exact ih.inside [.left] rfl
  | right _ ih => exact ih.inside [.right] rfl

end Operator

namespace Engine

variable {e : Engine} {t u : Term}

/-- **The engine's own steps are linked**: the first starts where the way starts, and each goes on
where the one before it ended. -/
theorem Leads.isChain {ss : List Step} (h : e.Leads t ss u) :
    (∀ s ∈ ss.head?, s.before = t) ∧ ss.IsChain fun s s' => s'.before = s.after := by
  induction h with
  | nil t => exact ⟨nofun, .nil⟩
  | cons hstep _ ih =>
    obtain ⟨k, _, rfl⟩ := step_eq_ok_some hstep
    refine ⟨fun s hs => ?_, List.isChain_cons.2 ih⟩
    cases hs
    rfl

/-- Where the engine has no step, there is none at all. -/
theorem successors_of_step_none (h : e.step t = .ok none) : e.successors t = .ok [] := by
  obtain ⟨next, hnext, hnil⟩ := successors_of_bigStep (bigStep_of_step_none h)
  rw [hnext, hnil.2 rfl]

end Engine

/-- **Step records are faithful.**  Whatever step the engine takes from `t`, or has among all steps
of `t`, it starts at `t`; its way leads to a redex of the rule that it records, with the components
and the sum of the fusion, or the adjective, the noun and how they combine; and the term after it is
`t` with the result of the rule in that place and nothing else changed.  The steps of a trace are
the engine's own: the first starts at the initial term, each goes on where the one before it ended,
and the final term has no step. -/
theorem step_records_faithful (e : Engine) (t : Term) :
    (∀ s, e.Takes t s → s.before = t ∧
      ∃ redex result, e.operator.Rewrites s.details redex result ∧
        t.subterm? s.path = some redex ∧ s.after = t.replaceAt s.path result ∧
        s.after.subterm? s.path = some result ∧
        ∀ ps, ¬ s.path <+: ps → ¬ ps <+: s.path → s.after.subterm? ps = t.subterm? ps) ∧
    ∀ trace, e.normalize t = .ok trace →
      trace.initial = t ∧ (∀ s ∈ trace.steps, e.step s.before = .ok (some s)) ∧
      (∀ s ∈ trace.steps.head?, s.before = trace.initial) ∧
      trace.steps.IsChain (fun s s' => s'.before = s.after) ∧
      e.step trace.final = .ok none ∧ e.successors trace.final = .ok [] := by
  constructor
  · intro s hs
    obtain ⟨k, hk, rfl⟩ := hs.contracts
    obtain ⟨redex, result, hrule, hsub, hafter⟩ := hk.rewritesAt
    have hstep : (k.stepFrom t).after = t.replaceAt k.path result := hafter
    refine ⟨rfl, redex, result, hrule, hsub, hstep, ?_, fun ps hps hps' => ?_⟩
    · rw [hstep]
      exact Term.subterm?_replaceAt hsub result
    · rw [hstep]
      exact Term.subterm?_replaceAt_of_not_prefix hps hps' result
  · intro trace h
    obtain ⟨hinitial, ⟨u, hleads, hu⟩, _⟩ := Engine.normalize_eq_ok_iff.1 h
    obtain ⟨hhead, hchain⟩ := hleads.isChain
    subst hinitial
    have hfinal : trace.final = u := hleads.final
    rw [hfinal]
    exact ⟨rfl, fun s hs => hleads.step_before hs, hhead, hchain, hu,
      Engine.successors_of_step_none hu⟩

namespace OverlappingRedexes

/-- An adjective over a fusion, next to a fusion. -/
def nested : Term := .join .imp (sentenceOver [p3] fusion19) (.sentence fusion23)

/-- The same after the fusion under the adjective. -/
def nestedFused : Term := .join .imp (sentenceOver [p3] (.noun p19)) (.sentence fusion23)

end OverlappingRedexes

open OverlappingRedexes in
/-- The fusion under the adjective, and the trace of the pair. -/
theorem step_records_faithful_nested :
    (∃ redex result, Operator.identity.Rewrites pairFuse.details redex result ∧
      nested.subterm? [.left, .body, .noun] = some redex ∧
      nestedFused = nested.replaceAt [.left, .body, .noun] result ∧
      nestedFused.subterm? [.right] = nested.subterm? [.right]) ∧
    ∃ trace, (Engine.mk .identity 2 .rightmostFirst).normalize pair = .ok trace ∧
      trace.steps.IsChain (fun s s' => s'.before = s.after) ∧
      (Engine.mk .identity 2 .rightmostFirst).step trace.final = .ok none := by
  have hstep : (Engine.mk .identity 2 .leftmostFirst).step nested =
      .ok (some ⟨nested, nestedFused, [.left, .body, .noun], pairFuse.details⟩) := by rfl
  have htrace : (Engine.mk .identity 2 .rightmostFirst).normalize pair =
      .ok ⟨pair, [⟨pair, pairApplied, pairApply.path, pairApply.details⟩,
        ⟨pairApplied, pairReduced, pairFuse.path, pairFuse.details⟩]⟩ := by rfl
  obtain ⟨hrecord, _⟩ := step_records_faithful (Engine.mk .identity 2 .leftmostFirst) nested
  obtain ⟨_, hlinked⟩ := step_records_faithful (Engine.mk .identity 2 .rightmostFirst) pair
  obtain ⟨_, redex, result, hrule, hsub, hafter, _, hbeside⟩ := hrecord _ (Or.inl hstep)
  obtain ⟨_, _, _, hchain, hend, _⟩ := hlinked _ htrace
  exact ⟨⟨redex, result, hrule, hsub, hafter, hbeside [.right] (by decide) (by decide)⟩,
    _, htrace, hchain, hend⟩

end PrimeLanguage
