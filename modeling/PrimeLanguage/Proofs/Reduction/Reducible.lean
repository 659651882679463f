import PrimeLanguage.Proofs.Reduction.Successors
import PrimeLanguage.Proofs.Typing.Annotation

/-!
# Reducible terms

Whether a term is reducible is read off its shape: some leaf is a chain or a well-formed fusion.
The engine goes for any chain or fusion and fails on one that no rule applies to.  So the two part
where the open leaves are ill-formed fusions, and nowhere else.

* `Fusion.IllFormed` — no prime is the sum of the components;
* `Term.IsAtom` — nouns and adjectives;
* `Operator.contract_eq_none_iff` — a term is terminal when its leaves are atoms;
* `Operator.contract_of_not_isReducible` — how a term fails that is neither terminal nor reducible.

Principal result: `isReducible_predicts`.
-/

namespace PrimeLanguage

/-! ## Ill-formed fusions -/

/-- No prime is the sum of the components. -/
def Fusion.IllFormed (f : Fusion) : Prop := ∀ s : Prime, s.val ≠ f.p.val + f.q.val + f.r.val

theorem Fusion.illFormed_iff {f : Fusion} : f.IllFormed ↔ f.fused? = none := by
  rw [Option.eq_none_iff_forall_ne_some]
  exact forall_congr' fun s => not_congr fused?_eq_some.symm

theorem Fusion.isWellFormed_eq_false_iff {f : Fusion} : f.isWellFormed = false ↔ f.IllFormed := by
  rw [illFormed_iff, isWellFormed, Option.isSome_eq_false_iff, Option.isNone_iff_eq_none]

/-! ## Leaves -/

namespace Term

variable {t u : Term}

/-- Nouns and adjectives, which no rule applies to. -/
def IsAtom (t : Term) : Prop := ∃ p, t = .noun p ∨ t = .adj p

theorem isCompound_eq_false_iff (h : t.isSentence = false) :
    t.isCompound = false ↔ t.IsAtom := by
  cases t with
  | noun p | adj p => simp [isCompound, IsAtom]
  | chain | fusion => simp [isCompound, IsAtom]
  | sentence | join => cases h

theorem openLeaves_eq_nil_iff : t.openLeaves = [] ↔ ∀ u ∈ t.leafTerms, u.IsAtom := by
  rw [openLeaves, List.filter_eq_nil_iff, leafTerms, List.forall_mem_map]
  refine forall₂_congr fun leaf hleaf => ?_
  rw [Bool.not_eq_true]
  exact isCompound_eq_false_iff (isSentence_of_mem_leafTerms (List.mem_map_of_mem hleaf))

/-- **A term is reducible when one of its leaves is.** -/
theorem isReducible_iff : t.isReducible = true ↔ ∃ u ∈ t.leafTerms, u.isReducible = true := by
  induction t using Term.induction with
  | noun | adj | chain | fusion => simp [leafTerms, leaves]
  | sentence e ih => rw [leafTerms_sentence]; exact ih
  | join c l r ihl ihr =>
    simp only [leafTerms_join, List.mem_append, or_and_right, exists_or, ← ihl, ← ihr]
    exact Bool.or_eq_true_iff

theorem within_of_mem_leafTerms (h : u ∈ t.leafTerms) : u.Within t := by
  induction t using Term.induction with
  | noun | adj | chain | fusion => rw [List.mem_singleton.1 h]; exact .here
  | sentence e ih => exact .body (ih (by simpa using h))
  | join c l r ihl ihr =>
    rw [leafTerms_join] at h
    rcases List.mem_append.1 h with h | h
    · exact .left (ihl h)
    · exact .right (ihr h)

theorem IsAtom.not_isReducible (h : t.IsAtom) : t.isReducible = false := by
  obtain ⟨p, rfl | rfl⟩ := h <;> rfl

end Term

/-- No leaf of a typed term is an ill-formed fusion. -/
theorem HasType.not_illFormed {t : Term} {ty : Ty} {f : Fusion} (h : HasType t ty)
    (hf : .fusion f ∈ t.leafTerms) : ¬ f.IllFormed := by
  obtain ⟨_, hleaf⟩ := h.of_within (Term.within_of_mem_leafTerms hf)
  cases hleaf with
  | fusion hfused => rw [Fusion.illFormed_iff, hfused]; nofun

namespace Operator

variable {op : Operator} {strategy : Strategy} {t : Term}

/-! ## What the engine does -/

/-- Whatever can be contracted is reducible. -/
theorem Contracts.isReducible {k : Contraction} (h : op.Contracts t k) : t.isReducible = true := by
  induction h with
  | @expr t k h =>
    cases t with
    | chain => rfl
    | fusion f =>
      cases hf : f.fused? with
      | none => rw [contractExpr, hf] at h; cases h
      | some s => rw [Term.isReducible, Fusion.isWellFormed, hf]; rfl
    | noun | adj | sentence | join => cases h
  | body _ ih => exact ih
  | left _ ih => exact Bool.or_eq_true_iff.2 (Or.inl ih)
  | right _ ih => exact Bool.or_eq_true_iff.2 (Or.inr ih)

variable (op strategy) in
/-- Where there are open leaves, one of them is contracted. -/
theorem contract_of_openLeaves_ne_nil (h : t.openLeaves ≠ []) :
    ∃ leaf ∈ t.openLeaves, contract op strategy t = (op.contractLeaf t leaf).map some := by
  have hperm := strategy.visit_perm t.openLeaves
  cases hvisit : strategy.visit t.openLeaves with
  | nil => rw [hvisit] at hperm; exact absurd hperm.nil_eq.symm h
  | cons leaf leaves =>
    rw [hvisit] at hperm
    refine ⟨leaf, hperm.mem_iff.1 List.mem_cons_self, ?_⟩
    rw [contract_eq_mapM, hvisit]
    rfl

/-- **A term is terminal when its leaves are atoms.** -/
theorem contract_eq_none_iff :
    contract op strategy t = .ok none ↔ ∀ u ∈ t.leafTerms, u.IsAtom := by
  rw [← Term.openLeaves_eq_nil_iff]
  constructor
  · intro h
    by_contra hne
    obtain ⟨leaf, _, hleaf⟩ := contract_of_openLeaves_ne_nil op strategy hne
    rw [h] at hleaf
    obtain ⟨k, _, hk⟩ := map_eq_ok_iff.1 hleaf.symm
    cases hk
  · intro h
    rw [contract_eq_mapM, h]
    cases strategy <;> rfl

variable (op strategy) in
/-- **A term that is not reducible** is terminal, or fails on a leaf that is an ill-formed
fusion. -/
theorem contract_of_not_isReducible (h : t.isReducible = false) :
    contract op strategy t = .ok none ∨
      ∃ f, .fusion f ∈ t.leafTerms ∧ f.IllFormed ∧
        contract op strategy t = .error (.illFormedFusion f) := by
  by_cases hnil : t.openLeaves = []
  · exact Or.inl (contract_eq_none_iff.2 (Term.openLeaves_eq_nil_iff.1 hnil))
  · obtain ⟨leaf, hopen, hcontract⟩ := contract_of_openLeaves_ne_nil op strategy hnil
    obtain ⟨hmem, hcompound⟩ := List.mem_filter.1 hopen
    have hleaf : leaf.term ∈ t.leafTerms := List.mem_map_of_mem hmem
    have hstuck : ¬ leaf.term.isReducible = true := fun hred => by
      rw [Term.isReducible_iff.2 ⟨_, hleaf, hred⟩] at h
      cases h
    refine Or.inr ?_
    cases hterm : leaf.term with
    | chain => rw [hterm] at hstuck; exact absurd rfl hstuck
    | noun | adj | sentence | join => rw [hterm] at hcompound; cases hcompound
    | fusion f =>
      rw [hterm] at hleaf hstuck
      have hf : f.IllFormed := Fusion.isWellFormed_eq_false_iff.1 (Bool.not_eq_true _ ▸ hstuck)
      refine ⟨f, hleaf, hf, ?_⟩
      rw [hcontract, contractLeaf, hterm, contractExpr, Fusion.illFormed_iff.1 hf]
      rfl

end Operator

namespace Engine

variable {e : Engine} {t : Term}

theorem step_eq_none_iff : e.step t = .ok none ↔ ∀ u ∈ t.leafTerms, u.IsAtom := by
  constructor
  · intro h
    exact Operator.contract_eq_none_iff.1 (step_eq_ok_none h)
  · intro h
    rw [step, Operator.contract_eq_none_iff.2 h]
    rfl

theorem not_isReducible_of_step_none (h : e.step t = .ok none) : t.isReducible = false := by
  rw [← Bool.not_eq_true, Term.isReducible_iff]
  rintro ⟨u, hu, hred⟩
  rw [(step_eq_none_iff.1 h u hu).not_isReducible] at hred
  cases hred

theorem step_of_not_isReducible (h : t.isReducible = false) :
    e.step t = .ok none ∨
      ∃ f, .fusion f ∈ t.leafTerms ∧ f.IllFormed ∧ e.step t = .error (.illFormedFusion f) := by
  rcases Operator.contract_of_not_isReducible e.operator e.strategy h with
    hnone | ⟨f, hf, hill, herr⟩
  · exact Or.inl (by rw [step, hnone]; rfl)
  · exact Or.inr ⟨f, hf, hill, by rw [step, herr]; rfl⟩

end Engine

/-- **Reducibility foretells the engine.**  A term that has a step is reducible.  One that is
terminal is not, and its leaves are nouns and adjectives.  A term that is not reducible is terminal
unless a leaf is an ill-formed fusion; then its step fails with such a leaf.  One that is reducible
is never terminal, though its step may fail.  For typed terms, terminal and not reducible are the
same. -/
theorem isReducible_predicts (e : Engine) (t : Term) :
    (∀ s, e.step t = .ok (some s) → t.isReducible = true) ∧
    (e.step t = .ok none → t.isReducible = false ∧ ∀ u ∈ t.leafTerms, u.IsAtom) ∧
    (t.isReducible = false →
      ((∀ f, .fusion f ∈ t.leafTerms → ¬ f.IllFormed) → e.step t = .ok none) ∧
      ((∃ f, .fusion f ∈ t.leafTerms ∧ f.IllFormed) →
        ∃ f, .fusion f ∈ t.leafTerms ∧ f.IllFormed ∧ e.step t = .error (.illFormedFusion f))) ∧
    (t.isReducible = true → e.step t ≠ .ok none) ∧
    ∀ ty, infer .empty t = .ok ty → (e.step t = .ok none ↔ t.isReducible = false) := by
  refine ⟨fun s hs => ?_, fun h => ?_, fun h => ⟨fun hwell => ?_, ?_⟩, fun hred h => ?_,
    fun ty hty => ⟨Engine.not_isReducible_of_step_none, fun h => ?_⟩⟩
  · obtain ⟨k, hk, _⟩ := Engine.step_eq_ok_some hs
    exact (Operator.contracts_of_contract hk).isReducible
  · exact ⟨Engine.not_isReducible_of_step_none h, Engine.step_eq_none_iff.1 h⟩
  · refine (Engine.step_of_not_isReducible h).resolve_right ?_
    rintro ⟨f, hf, hill, _⟩
    exact hwell f hf hill
  · rintro ⟨f, hf, _⟩
    refine (Engine.step_of_not_isReducible h).resolve_left fun hnone => ?_
    obtain ⟨p, hp | hp⟩ := Engine.step_eq_none_iff.1 hnone _ hf <;> cases hp
  · rw [Engine.not_isReducible_of_step_none h] at hred
    cases hred
  · refine (Engine.step_of_not_isReducible h).resolve_right ?_
    rintro ⟨f, hf, hill, _⟩
    exact (infer_empty_iff.1 hty).not_illFormed hf hill

namespace OverlappingRedexes

/-- Three primes whose sum is 15. -/
def ill15 : Fusion := ⟨p5, p3, p7, by decide, by decide⟩

/-- A noun next to an ill-formed fusion. -/
def besideIll15 : Term := .join .seq (.sentence (.noun p2)) (.sentence (.fusion ill15))

/-- An adjective over an ill-formed fusion. -/
def overIll15 : Term := sentenceOver [p2] (.fusion ill15)

end OverlappingRedexes

open OverlappingRedexes in
/-- A term with a step, the terminal term it leads to, a term that is stuck without being reducible,
and one that is reducible without having a step. -/
theorem isReducible_predicts_ill15 :
    (pair.isReducible = true ∧ (Engine.mk .identity 2 .rightmostFirst).step pair ≠ .ok none) ∧
    (pairReduced.isReducible = false ∧ (∀ u ∈ pairReduced.leafTerms, u.IsAtom) ∧
      (Engine.mk .identity 2 .rightmostFirst).step pairReduced = .ok none) ∧
    (∃ f, .fusion f ∈ besideIll15.leafTerms ∧ f.IllFormed ∧
      (Engine.mk .identity 2 .rightmostFirst).step besideIll15 = .error (.illFormedFusion f)) ∧
    (overIll15.isReducible = true ∧
      (Engine.mk .identity 2 .rightmostFirst).step overIll15 ≠ .ok none) := by
  have hstep : (Engine.mk .identity 2 .rightmostFirst).step pair =
      .ok (some ⟨pair, pairApplied, pairApply.path, pairApply.details⟩) := by rfl
  have hend : (Engine.mk .identity 2 .rightmostFirst).step pairReduced = .ok none := by rfl
  have hty : infer .empty pairReduced =
      .ok (.sentence (.join .seq .atomic .atomic)) := by rfl
  have hill : ∃ f, .fusion f ∈ besideIll15.leafTerms ∧ f.IllFormed :=
    ⟨ill15, List.mem_cons_of_mem _ List.mem_cons_self, Fusion.illFormed_iff.2 (by decide)⟩
  obtain ⟨hsome, _, _, hnever, _⟩ :=
    isReducible_predicts (Engine.mk .identity 2 .rightmostFirst) pair
  obtain ⟨_, hnone, _, _, htyped⟩ :=
    isReducible_predicts (Engine.mk .identity 2 .rightmostFirst) pairReduced
  obtain ⟨_, _, hstuck, _⟩ :=
    isReducible_predicts (Engine.mk .identity 2 .rightmostFirst) besideIll15
  obtain ⟨_, _, _, hfails, _⟩ :=
    isReducible_predicts (Engine.mk .identity 2 .rightmostFirst) overIll15
  have hred := hsome _ hstep
  obtain ⟨hterminal, hatoms⟩ := hnone hend
  exact ⟨⟨hred, hnever hred⟩, ⟨hterminal, hatoms, (htyped _ hty).2 hterminal⟩,
    (hstuck rfl).2 hill, rfl, hfails rfl⟩

end PrimeLanguage
