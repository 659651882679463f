import PrimeLanguage.Proofs.Lambda.Nameless
import PrimeLanguage.Proofs.Semantics.Agreement
import PrimeLanguage.Proofs.Term.Signature
import PrimeLanguage.Proofs.Typing.Soundness

/-!
# Two notions of equivalence

Terms are equivalent for the engine if they reach the same terminal term, and for the meaning if
they denote the same up to bound names.  The meaning forgets one thing about a terminal term, the
brackets of its noun sentences.

* `Term.IsTerminal` — nouns and adjectives, composed to sentences;
* `Term.unbracketed` — a term without the brackets of its noun sentences;
* `Nameless.term?` — the bracketless terminal term that a nameless expression is the meaning of.

`equivalent_of_normalize` says what the meaning distinguishes.  Typed terms of one kind do not
differ in their brackets alone (`Ty.Ends.unbracketed_inj`).

Principal result: `equivalences_coincide`.
-/

namespace PrimeLanguage

/-! ## Terminal terms -/

namespace Term

/-- Nouns and adjectives, composed to sentences. -/
inductive IsTerminal : Term → Prop where
  | noun (p : Prime) : IsTerminal (.noun p)
  | adj (p : Prime) : IsTerminal (.adj p)
  | sentence {e : Term} (h : IsTerminal e) : IsTerminal (.sentence e)
  | join {l r : Term} (c : Connective) (hl : IsTerminal l) (hr : IsTerminal r) :
    IsTerminal (.join c l r)

mutual

/-- The term without the brackets of its noun sentences. -/
def unbracketed : Term → Term
  | .noun p => .noun p
  | .adj p => .adj p
  | .chain o os e => .chain o.unbracketed (unbracketedAll os) e.unbracketed
  | .fusion f => .fusion f
  | .sentence e => e.unbracketed
  | .join c l r => .join c l.unbracketed r.unbracketed

/-- The terms without the brackets of their noun sentences. -/
def unbracketedAll : List Term → List Term
  | [] => []
  | t :: ts => t.unbracketed :: unbracketedAll ts

end

end Term

/-- Evaluation ends in terminal terms. -/
theorem Operator.isTerminal_of_bigStep {op : Operator} {strategy : Strategy} {t : Term}
    {r : Reduct Term} (h : op.bigStep strategy t = .ok r) : r.result.IsTerminal := by
  induction t using Term.induction generalizing r with
  | noun p => cases h; exact .noun p
  | adj p => cases h; exact .adj p
  | fusion | chain =>
    obtain ⟨r', _, rfl⟩ := map_eq_ok_iff.1 h
    exact .noun r'.result
  | sentence e ih =>
    obtain ⟨r', hr', h⟩ := bind_eq_ok_iff.1 h
    cases h
    exact .sentence (ih hr')
  | join c l r ihl ihr =>
    obtain ⟨x, y, hx, hy, rfl⟩ := bigStep_join_eq_ok_iff.1 h
    exact .join c (ihl hx) (ihr hy)

/-! ## The meaning of terminal terms -/

/-- The terminal term without brackets that the expression is the meaning of. -/
def Nameless.term? : Nameless → Option Term
  | .const p => some (.noun p)
  | .lam (.prim _ (.const p) (.bound 0)) => some (.adj p)
  | .join c l r => do return .join c (← l.term?) (← r.term?)
  | _ => none

namespace Term

variable {t u : Term} {name : String} {s s' : NameSupply} {x : Expr}

/-- Brackets do not change the meaning of a terminal term. -/
theorem IsTerminal.meaningFrom_unbracketed (h : t.IsTerminal) (name : String) (s : NameSupply) :
    t.unbracketed.meaningFrom name s = t.meaningFrom name s := by
  induction h generalizing s with
  | noun | adj => rfl
  | sentence _ ih => exact ih s
  | join c _ _ ihl ihr => simp only [unbracketed, meaningFrom, ihl, ihr]

/-- All else can be read off the meaning. -/
theorem IsTerminal.term?_nameless (h : t.IsTerminal) (hx : t.meaningFrom name s = .ok (x, s')) :
    x.nameless.term? = some t.unbracketed := by
  induction h generalizing s x s' with
  | noun p => cases hx; rfl
  | adj p =>
    cases hx
    simp [Nameless.close, Nameless.term?, unbracketed]
  | sentence _ ih => exact ih hx
  | join c _ _ ihl ihr =>
    obtain ⟨⟨y, s₁⟩, hy, hx⟩ := bind_eq_ok_iff.1 hx
    obtain ⟨⟨z, s₂⟩, hz, hx⟩ := bind_eq_ok_iff.1 hx
    cases hx
    simp [Nameless.term?, ihl hy, ihr hz, unbracketed]

end Term

namespace Operator

variable {op : Operator} {v w : Expr} {t u : Term}

/-- **Meanings of terminal terms are equal up to bound names exactly if the terms are equal up to
brackets.** -/
theorem Means.alphaEq_iff (hv : op.Means v t) (hw : op.Means w u) (ht : t.IsTerminal)
    (hu : u.IsTerminal) : v.alphaEq w = true ↔ t.unbracketed = u.unbracketed := by
  obtain ⟨x, s, hx, hvx⟩ := hv .start
  obtain ⟨y, s', hy, hwy⟩ := hw .start
  rw [Expr.alphaEq_iff] at hvx hwy ⊢
  constructor
  · intro h
    have hterm : some t.unbracketed = some u.unbracketed := by
      rw [← ht.term?_nameless hx, ← hu.term?_nameless hy, ← hvx, ← hwy, h]
    exact Option.some.inj hterm
  · intro h
    -- from one supply both have the meaning of the same bracketless term
    rw [← ht.meaningFrom_unbracketed, h, hu.meaningFrom_unbracketed, hy] at hx
    cases hx
    rw [hvx, hwy]

end Operator

namespace Semantics

variable {s : Semantics} {t u : Term} {trace trace' : Trace}

/-- **The meaning distinguishes terminal terms up to brackets.** -/
theorem equivalent_of_normalize (ht : s.engine.normalize t = .ok trace)
    (hu : s.engine.normalize u = .ok trace') (htn : 2 * trace.applications ≤ s.evaluationSteps)
    (hun : 2 * trace'.applications ≤ s.evaluationSteps) :
    s.equivalent t u = .ok (decide (trace.final.unbracketed = trace'.final.unbracketed)) := by
  obtain ⟨v, hv, _, hvm⟩ := denote_of_normalize ht htn
  obtain ⟨w, hw, _, hwm⟩ := denote_of_normalize hu hun
  have hterminal : trace.final.IsTerminal :=
    Operator.isTerminal_of_bigStep (Engine.bigStep_of_normalize ht).1
  have hterminal' : trace'.final.IsTerminal :=
    Operator.isTerminal_of_bigStep (Engine.bigStep_of_normalize hu).1
  have halpha : v.alphaEq w = decide (trace.final.unbracketed = trace'.final.unbracketed) := by
    rw [Bool.eq_iff_iff, decide_eq_true_iff]
    exact hvm.alphaEq_iff hwm hterminal hterminal'
  unfold equivalent
  rw [hv, hw, ← halpha]
  rfl

end Semantics

/-! ## Typed terms -/

/-- Composed as types say, sentences do not differ in their brackets alone. -/
theorem SentenceTy.Shapes.unbracketed_inj {ty ty' : SentenceTy} {t u : Term} (ht : ty.Shapes t)
    (hu : ty'.Shapes u) (h : t.unbracketed = u.unbracketed) : t = u := by
  induction ht generalizing ty' u with
  | atomic p =>
    cases hu with
    | atomic q => exact congrArg Term.sentence h
    | join hl hr => simp [Term.unbracketed] at h
  | join hl hr ihl ihr =>
    cases hu with
    | atomic q => simp [Term.unbracketed] at h
    | join hl' hr' =>
      simp only [Term.unbracketed, Term.join.injEq] at h
      obtain ⟨rfl, hleft, hright⟩ := h
      rw [ihl hl' hleft, ihr hr' hright]

/-- Terms of one kind do not end in terms that differ in their brackets alone. -/
theorem Ty.Ends.unbracketed_inj {ty ty' : Ty} {t u t' u' : Term} (ht : HasType t ty)
    (hu : HasType u ty') (hkind : ty.kind = ty'.kind) (ht' : ty.Ends t t') (hu' : ty'.Ends u u')
    (h : t'.unbracketed = u'.unbracketed) : t' = u' := by
  cases ty with
  | noun i =>
    obtain ⟨j, rfl⟩ := Ty.kind_eq_noun_iff.1 hkind.symm
    obtain ⟨p, rfl, _⟩ := ht'
    obtain ⟨q, rfl, _⟩ := hu'
    exact h
  | adj p =>
    obtain ⟨q, rfl⟩ := Ty.kind_eq_adj_iff.1 hkind.symm
    cases ht.eq_adj
    cases hu.eq_adj
    cases ht'
    cases hu'
    exact h
  | sentence σ =>
    cases ty' with
    | noun | adj => cases hkind
    | sentence σ' => exact SentenceTy.Shapes.unbracketed_inj ht' hu' h

namespace Semantics

/-- **The two equivalences coincide up to brackets.**  For terms that normalize, with evaluation
steps for the applications of both, the denotations are equivalent exactly when the terminal terms
are the same without the brackets of noun sentences.  So they are if the engine says that the terms
are equivalent, and for typed terms of one kind both say the same. -/
theorem equivalences_coincide (s : Semantics) (t u : Term) (b : Bool)
    (h : s.engine.equivalent t u = .ok b)
    (htn : ∀ trace, s.engine.normalize t = .ok trace →
      2 * trace.applications ≤ s.evaluationSteps)
    (hun : ∀ trace, s.engine.normalize u = .ok trace →
      2 * trace.applications ≤ s.evaluationSteps) :
    (b = true → s.equivalent t u = .ok true) ∧
    (∀ ty ty', infer .empty t = .ok ty → infer .empty u = .ok ty' → ty.kind = ty'.kind →
      s.equivalent t u = .ok b) ∧
    ∃ t' u', s.engine.evaluate t = .ok t' ∧ s.engine.evaluate u = .ok u' ∧
      s.equivalent t u = .ok (decide (t'.unbracketed = u'.unbracketed)) := by
  obtain ⟨t', u', ht, hu, rfl⟩ := Engine.equivalent_eq_ok_iff.1 h
  obtain ⟨trace, htrace, rfl⟩ := map_eq_ok_iff.1 ht
  obtain ⟨trace', htrace', rfl⟩ := map_eq_ok_iff.1 hu
  have hequiv : s.equivalent t u =
      .ok (decide (trace.final.unbracketed = trace'.final.unbracketed)) :=
    equivalent_of_normalize htrace htrace' (htn trace htrace) (hun trace' htrace')
  refine ⟨?_, ?_, trace.final, trace'.final, ht, hu, hequiv⟩
  · intro hb
    rw [hequiv, of_decide_eq_true hb, decide_eq_true rfl]
  · intro ty ty' hty hty' hkind
    have hends : ty.Ends t trace.final :=
      (infer_empty_iff.1 hty).ends (Engine.bigStep_of_normalize htrace).1
    have hends' : ty'.Ends u trace'.final :=
      (infer_empty_iff.1 hty').ends (Engine.bigStep_of_normalize htrace').1
    have hinj : trace.final.unbracketed = trace'.final.unbracketed → trace.final = trace'.final :=
      Ty.Ends.unbracketed_inj (infer_empty_iff.1 hty) (infer_empty_iff.1 hty') hkind hends hends'
    rw [hequiv, decide_eq_decide.2 ⟨hinj, congrArg Term.unbracketed⟩]

open OverlappingRedexes in
/-- A pair of sentences and what it reduces to; and a noun and its sentence, which only the engine
tells apart. -/
theorem equivalences_coincide_pair :
    let s : Semantics := ⟨⟨.identity, 2, .leftmostFirst⟩, 2⟩
    (s.engine.equivalent pair pairReduced = .ok true ∧ s.equivalent pair pairReduced = .ok true) ∧
    s.engine.equivalent (.noun p7) (.sentence (.noun p7)) = .ok false ∧
    s.equivalent (.noun p7) (.sentence (.noun p7)) = .ok true := by
  intro s
  have hpair : s.engine.normalize pair =
      .ok ⟨pair, [⟨pair, pairFused, pairFuse.path, pairFuse.details⟩,
        ⟨pairFused, pairReduced, pairApply.path, pairApply.details⟩]⟩ := by rfl
  have hreduced : s.engine.normalize pairReduced = .ok ⟨pairReduced, []⟩ := by rfl
  have hnoun : s.engine.normalize (.noun p7) = .ok ⟨.noun p7, []⟩ := by rfl
  have hsentence : s.engine.normalize (.sentence (.noun p7)) = .ok ⟨.sentence (.noun p7), []⟩ := by
    rfl
  have htypes : infer .empty pair = .ok (.sentence (.join .seq .atomic .atomic)) ∧
      infer .empty pairReduced = .ok (.sentence (.join .seq .atomic .atomic)) := ⟨by rfl, by rfl⟩
  have hsame : s.engine.equivalent pair pairReduced = .ok true :=
    Engine.equivalent_eq_ok_iff.2 ⟨pairReduced, pairReduced, by rfl, by rfl, by rfl⟩
  have hdiffer : s.engine.equivalent (.noun p7) (.sentence (.noun p7)) = .ok false :=
    Engine.equivalent_eq_ok_iff.2 ⟨.noun p7, .sentence (.noun p7), by rfl, by rfl, by decide⟩
  obtain ⟨_, htyped, _⟩ := equivalences_coincide s pair pairReduced true hsame
    (fun trace h => by rw [hpair] at h; cases h; decide)
    (fun trace h => by rw [hreduced] at h; cases h; decide)
  obtain ⟨_, _, t', u', ht, hu, hbrackets⟩ :=
    equivalences_coincide s (.noun p7) (.sentence (.noun p7)) false hdiffer
      (fun trace h => by rw [hnoun] at h; cases h; decide)
      (fun trace h => by rw [hsentence] at h; cases h; decide)
  rw [Engine.evaluate, hnoun] at ht
  rw [Engine.evaluate, hsentence] at hu
  cases ht
  cases hu
  exact ⟨⟨hsame, htyped _ _ htypes.1 htypes.2 rfl⟩, hdiffer, hbrackets⟩

end Semantics

end PrimeLanguage
