import PrimeLanguage.Lambda.Meaning
import PrimeLanguage.Proofs.Lambda.Steps
import PrimeLanguage.Proofs.Reduction.Leaves

/-!
# Evaluating the meaning of a term

The meaning of a term, evaluated, follows the evaluation of the term: a fusion costs no step, since
its meaning is its sum already, and an adjective costs two, the substitution and the primitive.

* `Operator.Means` — a value that is the meaning of a term up to bound names;
* `yields_meaning` — if the term evaluates, its meaning yields a value in two steps for each
  application, and the value is the meaning of the terminal term up to bound names;
* `getsStuck_meaning` — if the term does not evaluate, its meaning gets stuck.

The bound names of an adjective depend on the supply, so `Means` needs `Expr.alphaEq` even where a
term is its own terminal term.
-/

namespace PrimeLanguage

open PrimeLanguage.Expr PrimeLanguage.Event

namespace Operator

variable {op : Operator} {strategy : Strategy} {n : Nat} {e e' : Expr} {s s' : NameSupply}
  {p q : Prime} {os : List Term} {t : Term}

/-! ## Adjectives -/

/-- An adjective over a constant becomes its primitive. -/
theorem steps_adjective (p q : Prime) (s : NameSupply) :
    Steps op 1 (.app (adjectiveMeaning op.name p s).1 (.const q))
      (.prim op.name (.const p) (.const q)) := by
  refine Steps.one fun s' => ?_
  simp [adjectiveMeaning, step, isValue, substitute, substituteSized]

theorem yields_adjective {c : Combination} (h : Yields op n e (.const q))
    (hc : op.combine p q = .ok c) (s : NameSupply) :
    Yields op (n + 2) (.app (adjectiveMeaning op.name p s).1 e) (.const c.result) := by
  have hprim : Steps op 1 (.prim op.name (.const p) (.const q)) (.const c.result) := by
    refine Steps.one fun s' => ?_
    simp [step, isValue, applyPrimitive, const?, hc]
  have hargument : Steps op n (.app (adjectiveMeaning op.name p s).1 e)
      (.app (adjectiveMeaning op.name p s).1 (.const q)) := h.steps.argument rfl
  exact ⟨hargument.trans ((steps_adjective p q s).trans hprim), rfl⟩

theorem getsStuck_adjective {err : Error} (h : Yields op n e (.const q))
    (hc : op.combine p q = .error err) (s : NameSupply) :
    GetsStuck op (.app (adjectiveMeaning op.name p s).1 e) := by
  have hprim : Stuck op (.prim op.name (.const p) (.const q)) := by
    refine ⟨rfl, ?_⟩
    intro s'
    simp [step, isValue, applyPrimitive, const?, hc]
  have happ : GetsStuck op (.app (adjectiveMeaning op.name p s).1 (.const q)) :=
    (steps_adjective p q s).getsStuck hprim.getsStuck
  exact (h.steps.argument rfl).getsStuck happ

/-! ## Operators of a chain -/

theorem yields_applyMeanings {r : Reduct Prime} (he : Yields op n e (.const q))
    (h : applyMeanings op.name os e s = .ok (e', s')) (hr : op.bigStepOperators os q = .ok r) :
    Yields op (n + 2 * applications r.events) e' (.const r.result) := by
  induction os generalizing n e q s r with
  | nil => cases h; cases hr; exact he
  | cons o os ih =>
    cases o with
    | noun | chain | fusion | sentence | join => cases h
    | adj p =>
      obtain ⟨c, hc, hr⟩ := bind_eq_ok_iff.1 hr
      obtain ⟨r', hr', hr⟩ := bind_eq_ok_iff.1 hr
      cases hr
      have hyields := ih (yields_adjective he hc s) h hr'
      have hcount : n + 2 * applications (r'.cons ⟨[], .apply p q c⟩).events =
          n + 2 + 2 * applications r'.events := by
        rw [Reduct.cons, applications_apply]
        omega
      rw [hcount]
      exact hyields

theorem getsStuck_applyMeanings (he : GetsStuck op e)
    (h : applyMeanings op.name os e s = .ok (e', s')) : GetsStuck op e' := by
  induction os generalizing e s with
  | nil => cases h; exact he
  | cons o os ih =>
    cases o with
    | noun | chain | fusion | sentence | join => cases h
    | adj p => exact ih (he.argument rfl) h

theorem getsStuck_bigStepOperators {err : Error} (he : Yields op n e (.const q))
    (h : applyMeanings op.name os e s = .ok (e', s'))
    (herr : op.bigStepOperators os q = .error err) : GetsStuck op e' := by
  induction os generalizing n e q s with
  | nil => cases herr
  | cons o os ih =>
    cases o with
    | noun | chain | fusion | sentence | join => cases h
    | adj p =>
      rcases bind_eq_error_iff.1 herr with hc | ⟨c, hc, herr⟩
      · exact getsStuck_applyMeanings (getsStuck_adjective he hc s) h
      · rcases bind_eq_error_iff.1 herr with herr | ⟨r, _, herr⟩
        · exact ih (yields_adjective he hc s) h herr
        · cases herr

/-! ## Noun expressions -/

theorem meaningFrom_chain_eq_ok {name : String} {o : Term}
    (h : (Term.chain o os t).meaningFrom name s = .ok (e', s')) :
    ∃ e s₁, t.meaningFrom name s = .ok (e, s₁) ∧
      applyMeanings name (o :: os) e s₁ = .ok (e', s') := by
  rw [Term.meaningFrom] at h
  split at h
  · obtain ⟨⟨e, s₁⟩, he, h⟩ := bind_eq_ok_iff.1 h
    exact ⟨e, s₁, he, h⟩
  · cases h

theorem meaningFrom_fusion_eq_ok {name : String} {f : Fusion}
    (h : (Term.fusion f).meaningFrom name s = .ok (e, s')) :
    ∃ p, f.fused? = some p ∧ e = .const p := by
  rw [Term.meaningFrom] at h
  cases hf : f.fused? with
  | none => rw [hf] at h; cases h
  | some p => rw [hf] at h; cases h; exact ⟨p, rfl, rfl⟩

theorem yields_noun {r : Reduct Prime} (h : t.meaningFrom op.name s = .ok (e, s'))
    (hr : bigStepNoun op t = .ok r) :
    Yields op (2 * applications r.events) e (.const r.result) := by
  induction t using Term.induction generalizing s e s' r with
  | adj | sentence | join => cases hr
  | noun p => cases h; cases hr; exact Yields.const p
  | fusion f =>
    obtain ⟨p, hf, rfl⟩ := meaningFrom_fusion_eq_ok h
    simp only [bigStepNoun, hf] at hr
    cases hr
    exact Yields.const p
  | chain o os t _ _ ih =>
    obtain ⟨e₁, s₁, he, happ⟩ := meaningFrom_chain_eq_ok h
    obtain ⟨inner, hinner, hr⟩ := bind_eq_ok_iff.1 hr
    obtain ⟨outer, houter, hr⟩ := bind_eq_ok_iff.1 hr
    cases hr
    have hyields := yields_applyMeanings (ih he hinner) happ houter
    rwa [applications_append, applications_map_under, Nat.mul_add]

theorem getsStuck_noun {err : Error} (ht : t.isNounShaped = true)
    (h : t.meaningFrom op.name s = .ok (e, s')) (herr : bigStepNoun op t = .error err) :
    GetsStuck op e := by
  induction t using Term.induction generalizing s e s' with
  | adj | sentence | join => cases ht
  | noun => cases herr
  | fusion f =>
    obtain ⟨p, hf, rfl⟩ := meaningFrom_fusion_eq_ok h
    simp only [bigStepNoun, hf] at herr
    cases herr
  | chain o os t _ _ ih =>
    cases hshape : t.isNounShaped with
    | false => simp only [Term.meaningFrom, hshape] at h; cases h
    | true =>
      obtain ⟨e₁, s₁, he, happ⟩ := meaningFrom_chain_eq_ok h
      rcases bind_eq_error_iff.1 herr with hinner | ⟨inner, hinner, herr⟩
      · exact getsStuck_applyMeanings (ih hshape he hinner) happ
      · rcases bind_eq_error_iff.1 herr with houter | ⟨outer, _, herr⟩
        · exact getsStuck_bigStepOperators (yields_noun he hinner) happ houter
        · cases herr

/-! ## Terms -/

/-- Up to bound names the value is the meaning of the term, from every supply. -/
def Means (op : Operator) (v : Expr) (t : Term) : Prop :=
  ∀ s, ∃ e s', t.meaningFrom op.name s = .ok (e, s') ∧ v.alphaEq e = true

theorem means_noun (p : Prime) : op.Means (.const p) (.noun p) :=
  fun s => ⟨.const p, s, rfl, by simp [alphaEq, alphaEqUnder]⟩

theorem means_adj (p : Prime) (s : NameSupply) :
    op.Means (adjectiveMeaning op.name p s).1 (.adj p) := by
  -- the two abstractions bind names from different supplies
  intro s'
  refine ⟨(adjectiveMeaning op.name p s').1, (adjectiveMeaning op.name p s').2, rfl, ?_⟩
  simp [adjectiveMeaning, alphaEq, alphaEqUnder, sameVariable]

theorem means_join {c : Connective} {v w : Expr} {t u : Term} (hv : op.Means v t)
    (hw : op.Means w u) : op.Means (.join c v w) (.join c t u) := by
  intro s
  obtain ⟨e, s₁, he, hve⟩ := hv s
  obtain ⟨e', s₂, he', hwe⟩ := hw s₁
  refine ⟨.join c e e', s₂, ?_, ?_⟩
  · simp only [Term.meaningFrom, he, he', bind, Except.bind]
    rfl
  · simp only [alphaEq] at hve hwe ⊢
    simp [alphaEqUnder, hve, hwe]

/-- **The meaning of a term that evaluates yields the meaning of its terminal term**, in two steps
for each application. -/
theorem yields_meaning {r : Reduct Term} (h : t.meaningFrom op.name s = .ok (e, s'))
    (hr : bigStep op strategy t = .ok r) :
    ∃ v, Yields op (2 * applications r.events) e v ∧ op.Means v r.result := by
  induction t using Term.induction generalizing s e s' r with
  | noun p => cases h; cases hr; exact ⟨.const p, Yields.const p, means_noun p⟩
  | adj p =>
    cases h
    cases hr
    exact ⟨_, ⟨Steps.refl _, rfl⟩, means_adj p s⟩
  | fusion | chain =>
    obtain ⟨r', hr', rfl⟩ := map_eq_ok_iff.1 hr
    exact ⟨_, yields_noun h hr', means_noun r'.result⟩
  | sentence t ih =>
    obtain ⟨r', hr', hr⟩ := bind_eq_ok_iff.1 hr
    cases hr
    obtain ⟨v, hv, hmeans⟩ := ih h hr'
    refine ⟨v, ?_, hmeans⟩
    rwa [applications_map_under]
  | join c t u iht ihu =>
    obtain ⟨⟨e₁, s₁⟩, he₁, h⟩ := bind_eq_ok_iff.1 h
    obtain ⟨⟨e₂, s₂⟩, he₂, h⟩ := bind_eq_ok_iff.1 h
    cases h
    obtain ⟨x, y, hx, hy, rfl⟩ := bigStep_join_eq_ok_iff.1 hr
    obtain ⟨v, hv, hvm⟩ := iht he₁ hx
    obtain ⟨w, hw, hwm⟩ := ihu he₂ hy
    refine ⟨.join c v w, ?_, means_join hvm hwm⟩
    rw [Strategy.applications_flatten_visit_pair, applications_map_under, applications_map_under,
      Nat.mul_add]
    exact hv.join hw

/-- **The meaning of a term that does not evaluate gets stuck.** -/
theorem getsStuck_meaning {err : Error} (h : t.meaningFrom op.name s = .ok (e, s'))
    (herr : bigStep op .leftmostFirst t = .error err) : GetsStuck op e := by
  induction t using Term.induction generalizing s e s' with
  | noun | adj => cases herr
  | fusion | chain => exact getsStuck_noun rfl h (map_eq_error_iff.1 herr)
  | sentence t ih =>
    rcases bind_eq_error_iff.1 herr with herr | ⟨r, _, herr⟩
    · exact ih h herr
    · cases herr
  | join c t u iht ihu =>
    obtain ⟨⟨e₁, s₁⟩, he₁, h⟩ := bind_eq_ok_iff.1 h
    obtain ⟨⟨e₂, s₂⟩, he₂, h⟩ := bind_eq_ok_iff.1 h
    cases h
    rcases bind_eq_error_iff.1 herr with hl | ⟨x, hx, herr⟩
    · exact (iht he₁ hl).left e₂
    · rcases bind_eq_error_iff.1 herr with hr | ⟨y, _, herr⟩
      · obtain ⟨v, hv, _⟩ := yields_meaning he₁ hx
        exact (ihu he₂ hr).right hv
      · cases herr

end Operator

end PrimeLanguage
