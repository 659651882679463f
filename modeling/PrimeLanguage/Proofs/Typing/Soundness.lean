import PrimeLanguage.Proofs.Lambda.Blame
import PrimeLanguage.Proofs.Reduction.Confluence
import PrimeLanguage.Proofs.Semantics.Failure
import PrimeLanguage.Proofs.Typing.Derivation

/-!
# Soundness of types

A term with a type has a meaning, so reduction can fail on it only where the operator refuses
(`HasType.meaning`); a contraction of any redex keeps the type, except that a noun may become known
(`HasType.of_contracts`); and the type tells what a terminal term looks like (`HasType.ends`).

* `SentenceTy.Shapes` — sentences over nouns, composed as a type says;
* `Ty.Ends` — what a term of a type ends in.

Principal result: `type_soundness`.
-/

namespace PrimeLanguage

/-- The term is composed as the type says, of sentences over nouns. -/
inductive SentenceTy.Shapes : SentenceTy → Term → Prop where
  | atomic (p : Prime) : Shapes .atomic (.sentence (.noun p))
  | join {c : Connective} {s s' : SentenceTy} {l r : Term} (hl : s.Shapes l) (hr : s'.Shapes r) :
    Shapes (.join c s s') (.join c l r)

/-- `u` is what the term `t` of the type ends in: a noun, which is the known one if one is known,
the adjective itself, or sentences over nouns. -/
def Ty.Ends (ty : Ty) (t u : Term) : Prop :=
  match ty with
  | .noun i => ∃ p, u = .noun p ∧ ∀ q ∈ i, p = q
  | .adj _ => u = t
  | .sentence s => s.Shapes u

namespace HasType

variable {op : Operator} {strategy : Strategy} {t : Term} {ty : Ty}

theorem isNounShaped {i : Option Prime} (h : HasType t (.noun i)) : t.isNounShaped = true := by
  cases h <;> rfl

/-! ## Meaning -/

theorem applyMeanings_of_adjectives {os : List Term} (hos : ∀ o ∈ os, ∃ p, o = .adj p)
    (name : String) (x : Expr) (s : NameSupply) : ∃ z, applyMeanings name os x s = .ok z := by
  induction os generalizing x s with
  | nil => exact ⟨(x, s), rfl⟩
  | cons o os ih =>
    obtain ⟨⟨p, rfl⟩, htail⟩ := List.forall_mem_cons.1 hos
    exact ih htail _ _

/-- **A term with a type has a meaning.** -/
theorem meaning (h : HasType t ty) (name : String) (s : NameSupply) :
    ∃ z, t.meaningFrom name s = .ok z := by
  induction h generalizing s with
  | noun p => exact ⟨_, rfl⟩
  | adj p => exact ⟨_, rfl⟩
  | fusion hf => exact ⟨_, by rw [Term.meaningFrom, hf]⟩
  | chain hos he ih =>
    obtain ⟨⟨x, s'⟩, hx⟩ := ih s
    obtain ⟨z, hz⟩ := applyMeanings_of_adjectives hos name x s'
    refine ⟨z, ?_⟩
    rw [Term.meaningFrom, if_pos he.isNounShaped, hx]
    exact hz
  | sentence _ ih => exact ih s
  | @join c _ _ _ _ _ _ ihl ihr =>
    obtain ⟨⟨x, s'⟩, hx⟩ := ihl s
    obtain ⟨⟨y, s''⟩, hy⟩ := ihr s'
    refine ⟨(.join c x y, s''), ?_⟩
    simp only [Term.meaningFrom, hx, hy, bind, Except.bind]
    rfl

/-! ## Preservation -/

theorem ofOperators {os : List Term} (hos : ∀ o ∈ os, ∃ p, o = .adj p) (q : Prime) :
    ∃ i, HasType (.ofOperators os (.noun q)) (.noun i) := by
  cases os with
  | nil => exact ⟨some q, .noun q⟩
  | cons o os => exact ⟨none, .chain hos (.noun q)⟩

/-- A contraction keeps a noun expression one, and a known noun known. -/
theorem of_contractExpr {i : Option Prime} {k : Contraction} (h : HasType t (.noun i))
    (hk : contractExpr op t = .ok k) : ∃ j, HasType k.after (.noun j) ∧ (i = none ∨ j = i) := by
  fun_induction contractExpr op t generalizing i k with
  | case1 f p hf =>
    cases hk
    cases h with
    | fusion hf' =>
      rw [hf] at hf'
      cases hf'
      exact ⟨some p, .noun p, Or.inr rfl⟩
  | case2 | case5 => cases hk
  | case3 o os q =>
    obtain ⟨p, c, rfl, _, rfl⟩ := Operator.applyFirst_eq_ok hk
    cases h with
    | chain hos _ =>
      obtain ⟨j, hj⟩ := ofOperators (List.forall_mem_cons.1 hos).2 c.result
      exact ⟨j, hj, Or.inl rfl⟩
  | case4 o os e _ ih =>
    obtain ⟨k', hk', rfl⟩ := map_eq_ok_iff.1 hk
    cases h with
    | chain hos he =>
      obtain ⟨j, hj, _⟩ := ih he hk'
      exact ⟨none, .chain hos hj, Or.inl rfl⟩

/-- **A contraction keeps the type**, except that a noun may become known. -/
theorem of_contracts {k : Contraction} (h : HasType t ty) (hk : op.Contracts t k) :
    ∃ ty', HasType k.after ty' ∧ ty.admits ty' = true := by
  induction hk generalizing ty with
  | @expr t k hk =>
    have hshape := (Operator.isNounShaped_of_contractExpr hk).1
    cases ty with
    | noun i =>
      obtain ⟨j, hj, hij⟩ := h.of_contractExpr hk
      refine ⟨.noun j, hj, Ty.admits_iff.2 ?_⟩
      rcases hij with rfl | rfl
      · exact Or.inr ⟨rfl, rfl⟩
      · exact Or.inl rfl
    | adj p => rw [h.eq_adj] at hshape; cases hshape
    | sentence s => cases h <;> cases hshape
  | body _ ih =>
    cases h with
    | sentence he =>
      -- the body may become known, which the type of a sentence does not see
      obtain ⟨ty', hty', hadm⟩ := ih he
      obtain ⟨j, rfl⟩ : ∃ j, ty' = .noun j := by
        rcases Ty.admits_iff.1 hadm with rfl | ⟨_, hkind⟩
        · exact ⟨_, rfl⟩
        · exact Ty.kind_eq_noun_iff.1 hkind
      exact ⟨_, .sentence hty', Ty.admits_refl _⟩
  | left _ ih =>
    cases h with
    | join hl hr =>
      obtain ⟨ty', hty', hadm⟩ := ih hl
      rcases Ty.admits_iff.1 hadm with rfl | ⟨hnone, _⟩
      · exact ⟨_, .join hty' hr, Ty.admits_refl _⟩
      · cases hnone
  | right _ ih =>
    cases h with
    | join hl hr =>
      obtain ⟨ty', hty', hadm⟩ := ih hr
      rcases Ty.admits_iff.1 hadm with rfl | ⟨hnone, _⟩
      · exact ⟨_, .join hl hty', Ty.admits_refl _⟩
      · cases hnone

/-! ## Terminal terms -/

/-- **The type tells what a term ends in.** -/
theorem ends {r : Reduct Term} (h : HasType t ty) (hr : op.bigStep strategy t = .ok r) :
    ty.Ends t r.result := by
  induction h generalizing r with
  | noun p => cases hr; exact ⟨p, rfl, fun q hq => Option.some.inj hq⟩
  | adj p => cases hr; rfl
  | @fusion f p hf =>
    obtain ⟨r', hr', rfl⟩ := map_eq_ok_iff.1 hr
    rw [Operator.bigStepNoun, hf] at hr'
    cases hr'
    exact ⟨p, rfl, fun q hq => Option.some.inj hq⟩
  | chain =>
    obtain ⟨r', _, rfl⟩ := map_eq_ok_iff.1 hr
    exact ⟨r'.result, rfl, fun q hq => by cases hq⟩
  | sentence _ ih =>
    obtain ⟨r', hr', hr⟩ := bind_eq_ok_iff.1 hr
    cases hr
    obtain ⟨p, hp, _⟩ := ih hr'
    rw [hp]
    exact .atomic p
  | join _ _ ihl ihr =>
    obtain ⟨x, y, hx, hy, rfl⟩ := Operator.bigStep_join_eq_ok_iff.1 hr
    exact .join (ihl hx) (ihr hy)

/-! ## Errors -/

/-- **The evaluation of a term with a type fails by refusal only.** -/
theorem refuses_of_bigStep {err : Error} (h : HasType t ty)
    (herr : op.bigStep strategy t = .error err) : op.Refuses err := by
  obtain ⟨z, hz⟩ := h.meaning op.name .start
  exact Operator.refuses_of_bigStep_error hz herr

theorem refuses_of_step {e : Engine} {err : Error} (h : HasType t ty)
    (herr : e.step t = .error err) : e.operator.Refuses err :=
  h.refuses_of_bigStep (Engine.bigStep_of_step_error herr)

theorem refuses_of_successors {e : Engine} {err : Error} (h : HasType t ty)
    (herr : e.successors t = .error err) : e.operator.Refuses err := by
  obtain ⟨u, hu, herr⟩ : ∃ u ∈ t.leafTerms, e.operator.bigStep e.strategy u = .error err :=
    Operator.exists_leaf_of_contractAll_error (map_eq_error_iff.1 herr)
  obtain ⟨z, hz⟩ := h.meaning e.operator.name .start
  obtain ⟨s', z', hz'⟩ := Operator.meaningFrom_leaf hz hu
  exact Operator.refuses_of_bigStep_error hz' herr

theorem refuses_of_normalize {e : Engine} {err : Error} (h : HasType t ty)
    (herr : e.normalize t = .error err) :
    e.operator.Refuses err ∨ ∃ u, err = .nonTermination e.maxSteps u :=
  (Engine.error_of_normalize herr).imp_left h.refuses_of_bigStep

end HasType

/-! ## Soundness -/

/-- **Typed terms reduce soundly.**  A term with a type has a meaning.  A step of it fails by a
refusal of the operator only, which is a domain error if the operator keeps its contract; it keeps
the type, or makes an unknown noun known.  So normalization fails by refusal or for want of steps
only, and ends in what the type tells. -/
theorem type_soundness (e : Engine) (t : Term) (ty : Ty) (h : infer .empty t = .ok ty) :
    (∀ name, ∃ x, t.meaning name = .ok x) ∧
    (∀ err, e.step t = .error err ∨ e.successors t = .error err →
      e.operator.Refuses err ∧ (e.operator.FailsByDomain → err.IsDomain)) ∧
    (∀ s, e.Takes t s → ∃ ty', infer .empty s.after = .ok ty' ∧ ty.admits ty' = true ∧
      (ty ≠ .noun none → ty' = ty)) ∧
    (∀ err, e.normalize t = .error err →
      (e.operator.Refuses err ∧ (e.operator.FailsByDomain → err.IsDomain)) ∨
      ∃ u, err = .nonTermination e.maxSteps u) ∧
    ∀ trace, e.normalize t = .ok trace → ty.Ends t trace.final := by
  have ht := infer_empty_iff.1 h
  refine ⟨?_, ?_, ?_, ?_, ?_⟩
  · intro name
    obtain ⟨⟨x, s'⟩, hx⟩ := ht.meaning name .start
    exact ⟨x, Semantics.meaning_eq_ok_iff.2 ⟨s', hx⟩⟩
  · intro err herr
    have href : e.operator.Refuses err := herr.elim ht.refuses_of_step ht.refuses_of_successors
    exact ⟨href, fun hdom => hdom.isDomain href⟩
  · intro s hs
    obtain ⟨k, hk, rfl⟩ := hs.contracts
    obtain ⟨ty', hty', hadm⟩ := ht.of_contracts hk
    refine ⟨ty', infer_empty_iff.2 hty', hadm, fun hne => ?_⟩
    rcases Ty.admits_iff.1 hadm with heq | ⟨hnone, _⟩
    · exact heq.symm
    · exact absurd hnone hne
  · intro err herr
    exact (ht.refuses_of_normalize herr).imp_left fun href => ⟨href, fun hdom => hdom.isDomain href⟩
  · intro trace htrace
    exact ht.ends (Engine.bigStep_of_normalize htrace).1

open OverlappingRedexes Operator Semantics in
/-- The pair of sentences under the identity, and an adjective under an operator that refuses. -/
theorem type_soundness_pair :
    (∃ x, pair.meaning "identity" = .ok x) ∧
    (∃ ty, infer .empty pairFused = .ok ty ∧ ty = .sentence (.join .seq .atomic .atomic)) ∧
    (SentenceTy.join .seq .atomic .atomic).Shapes pairReduced ∧
    refusing.Refuses (.operatorDomain "refusing" 2 7) ∧
    (Error.operatorDomain "refusing" 2 7).IsDomain := by
  have hpair : infer .empty pair = .ok (.sentence (.join .seq .atomic .atomic)) := by rfl
  have hchain : infer .empty (identityChain [p2] p7) = .ok (.noun none) := by rfl
  have hstep : (Engine.mk .identity 2 .leftmostFirst).step pair =
      .ok (some ⟨pair, pairFused, pairFuse.path, pairFuse.details⟩) := by rfl
  have hnorm : (Engine.mk .identity 2 .leftmostFirst).normalize pair =
      .ok ⟨pair, [⟨pair, pairFused, pairFuse.path, pairFuse.details⟩,
        ⟨pairFused, pairReduced, pairApply.path, pairApply.details⟩]⟩ := by rfl
  have herr : (Engine.mk refusing 2 .leftmostFirst).step (identityChain [p2] p7) =
      .error (.operatorDomain "refusing" 2 7) := by rfl
  obtain ⟨hmeaning, _, hkeeps, _, hends⟩ :=
    type_soundness (Engine.mk .identity 2 .leftmostFirst) pair _ hpair
  obtain ⟨_, hrefuses, _⟩ :=
    type_soundness (Engine.mk refusing 2 .leftmostFirst) (identityChain [p2] p7) _ hchain
  obtain ⟨ty, hty, _, heq⟩ := hkeeps _ (Or.inl hstep)
  obtain ⟨href, hdom⟩ := hrefuses _ (Or.inl herr)
  exact ⟨hmeaning "identity", ⟨ty, hty, heq (by decide)⟩, hends _ hnorm, href,
    hdom refusing_failsByDomain⟩

end PrimeLanguage
