import PrimeLanguage.Lambda.Meaning
import PrimeLanguage.Proofs.Operator.Refusal
import PrimeLanguage.Proofs.Reduction.Leaves

/-!
# Reduction and meaning fail at the same place

The evaluation of a term and the construction of its meaning walk through the term side by side.

* `Error.SameBlame` — an error of reduction and an error of the meaning are about the same fusion or
  the same term;
* `Operator.Answers` — two results both succeed, both fail with the same blame, or the first one is
  refused by the operator.

Principal result: `answers_meaning`, by induction on the term; leftmost-first is the order in which
the meaning is built, so the first error of one is the first error of the other.  Under another
strategy the first error may be another one, but it is still the error of a leaf
(`blames_or_refuses_of_bigStep_error`, `refuses_of_bigStep_error`).
-/

namespace PrimeLanguage

/-- An error of reduction and an error of the meaning that blame the same fusion or term. -/
inductive Error.SameBlame : Error → Error → Prop where
  | fusion (f : Fusion) : SameBlame (.illFormedFusion f) (.illFormedFusion f)
  | term (expected actual : TyLabel) (t : Term) (fault : MeaningFault) :
    SameBlame (.typeMismatch expected actual t) (.noMeaning t fault)

namespace Operator

variable {α β γ δ : Type} {op : Operator} {x : Except Error α} {y : Except Error β}

/-- The second result succeeds or fails like the first one, unless the operator refuses. -/
inductive Answers (op : Operator) {α β : Type} : Except Error α → Except Error β → Prop where
  | ok (a : α) (b : β) : Answers op (.ok a) (.ok b)
  | blame {err err' : Error} (h : err.SameBlame err') : Answers op (.error err) (.error err')
  | refused {err : Error} {y : Except Error β} (h : op.Refuses err) : Answers op (.error err) y

namespace Answers

theorem bind {f : α → Except Error γ} {g : β → Except Error δ} (h : op.Answers x y)
    (hf : ∀ a b, op.Answers (f a) (g b)) : op.Answers (x >>= f) (y >>= g) := by
  cases h with
  | ok a b => exact hf a b
  | blame h => exact .blame h
  | refused h => exact .refused h

theorem map (f : α → γ) (h : op.Answers x y) : op.Answers (x.map f) y := by
  cases h with
  | ok a b => exact .ok (f a) b
  | blame h => exact .blame h
  | refused h => exact .refused h

theorem exists_ok_right {a : α} (h : op.Answers x y) (hx : x = .ok a) : ∃ b, y = .ok b := by
  cases h with
  | ok a b => exact ⟨b, rfl⟩
  | blame | refused => cases hx

theorem ok_or_refuses {b : β} (h : op.Answers x y) (hy : y = .ok b) :
    (∃ a, x = .ok a) ∨ ∃ err, x = .error err ∧ op.Refuses err := by
  cases h with
  | ok a b => exact Or.inl ⟨a, rfl⟩
  | blame => cases hy
  | @refused err _ h => exact Or.inr ⟨err, rfl, h⟩

theorem blames_or_refuses {err : Error} (h : op.Answers x y) (hx : x = .error err) :
    (∃ err', y = .error err' ∧ err.SameBlame err') ∨ op.Refuses err := by
  cases h with
  | ok => cases hx
  | blame h => cases hx; exact Or.inl ⟨_, rfl, h⟩
  | refused h => cases hx; exact Or.inr h

theorem sameBlame {err err' : Error} (h : op.Answers x y) (hx : x = .error err)
    (hy : y = .error err') : err.SameBlame err' ∨ op.Refuses err := by
  cases h with
  | ok => cases hx
  | blame h => cases hx; cases hy; exact Or.inl h
  | refused h => cases hx; exact Or.inr h

end Answers

/-! ## Terms -/

theorem answers_applyMeanings (name : String) (os : List Term) (q : Prime) (e : Expr)
    (s : NameSupply) : op.Answers (op.bigStepOperators os q) (applyMeanings name os e s) := by
  induction os generalizing q e s with
  | nil => exact .ok _ _
  | cons o os ih =>
    cases o with
    | adj p =>
      cases hc : op.combine p q with
      | error err =>
        simp only [bigStepOperators, hc]
        exact .refused (refuses_of_combine hc)
      | ok c =>
        simp only [bigStepOperators, hc]
        exact (ih c.result _ _).map (·.cons ⟨[], .apply p q c⟩)
    | noun | chain | fusion | sentence | join => exact .blame (.term _ _ _ _)

theorem answers_noun {t : Term} (ht : t.isNounShaped = true) (name : String) (s : NameSupply) :
    op.Answers (bigStepNoun op t) (t.meaningFrom name s) := by
  induction t using Term.induction generalizing s with
  | adj | sentence | join => cases ht
  | noun => exact .ok _ _
  | fusion f =>
    simp only [bigStepNoun, Term.meaningFrom]
    cases f.fused? with
    | none => exact .blame (.fusion f)
    | some p => exact .ok _ _
  | chain o os e _ _ ih =>
    simp only [bigStepNoun, Term.meaningFrom]
    cases he : e.isNounShaped with
    | false =>
      -- reduction complains when it comes to the noun position, the meaning before it looks inside
      rw [bigStepNoun_of_not_isNounShaped he, if_neg Bool.false_ne_true]
      exact .blame (.term _ _ _ _)
    | true =>
      rw [if_pos rfl]
      refine (ih he s).bind fun inner x => ?_
      exact (answers_applyMeanings name (o :: os) inner.result x.1 x.2).map _

/-- **Reduction and meaning fail at the same place**, whatever the operator does on primes, unless
it refuses some. -/
theorem answers_meaning (t : Term) (name : String) (s : NameSupply) :
    op.Answers (bigStep op .leftmostFirst t) (t.meaningFrom name s) := by
  induction t using Term.induction generalizing s with
  | noun | adj => exact .ok _ _
  | fusion | chain => exact (answers_noun rfl name s).map _
  | sentence e ih => exact (ih s).map _
  | join c l r ihl ihr =>
    refine (ihl s).bind fun x y => (ihr y.2).bind fun x' y' => ?_
    exact .ok _ _

/-! ## Every strategy -/

theorem meaningFrom_leaf {t u : Term} {name : String} {s : NameSupply} {z : Expr × NameSupply}
    (h : t.meaningFrom name s = .ok z) (hu : u ∈ t.leafTerms) :
    ∃ s' z', u.meaningFrom name s' = .ok z' := by
  induction t using Term.induction generalizing s z with
  | noun | adj | chain | fusion => rw [List.mem_singleton.1 hu]; exact ⟨s, z, h⟩
  | sentence e ih => exact ih h (by simpa using hu)
  | join c l r ihl ihr =>
    obtain ⟨⟨e₁, s₁⟩, hl, h⟩ := bind_eq_ok_iff.1 h
    obtain ⟨⟨e₂, s₂⟩, hr, _⟩ := bind_eq_ok_iff.1 h
    rw [Term.leafTerms_join] at hu
    exact (List.mem_append.1 hu).elim (ihl hl) (ihr hr)

/-- The error of an evaluation is the error of a leaf, and blames what its meaning blames. -/
theorem blames_or_refuses_of_bigStep_error {strategy : Strategy} {t : Term} {err : Error}
    (h : bigStep op strategy t = .error err) (name : String) :
    (∃ u ∈ t.leafTerms, ∃ err', u.meaningFrom name .start = .error err' ∧ err.SameBlame err') ∨
      op.Refuses err := by
  obtain ⟨u, hu, herr⟩ := exists_leaf_of_bigStep_error h
  rw [bigStep_of_not_isSentence (Term.isSentence_of_mem_leafTerms hu) .leftmostFirst] at herr
  refine ((answers_meaning u name .start).blames_or_refuses herr).imp_left fun hblame => ?_
  exact ⟨u, hu, hblame⟩

/-- **A term with a meaning fails by refusal only**, under every strategy. -/
theorem refuses_of_bigStep_error {strategy : Strategy} {t : Term} {err : Error} {name : String}
    {s : NameSupply} {z : Expr × NameSupply} (h : t.meaningFrom name s = .ok z)
    (herr : bigStep op strategy t = .error err) : op.Refuses err := by
  obtain ⟨u, hu, herr⟩ := exists_leaf_of_bigStep_error herr
  obtain ⟨s', z', hz⟩ := meaningFrom_leaf h hu
  rw [bigStep_of_not_isSentence (Term.isSentence_of_mem_leafTerms hu) .leftmostFirst] at herr
  rcases (answers_meaning u name s').ok_or_refuses hz with ⟨r, hr⟩ | ⟨err', herr', href⟩
  · rw [herr] at hr
    cases hr
  · rw [herr] at herr'
    cases herr'
    exact href

end Operator

end PrimeLanguage
