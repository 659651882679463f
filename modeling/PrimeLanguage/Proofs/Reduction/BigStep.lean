import PrimeLanguage.Reduction.Engine
import PrimeLanguage.Proofs.Reduction.Redex

/-!
# Evaluation in one go

Reduction by recursion on the term instead of step by step, with the record of the steps that the
engine would take.

* `Event` — what a step records: the path to the redex and what happened there; `Event.applications`
  counts the events that apply an adjective;
* `Reduct` — the events of a reduction and what it ends in;
* `Operator.bigStepOperators` — operators of a chain, applied one after another to a noun;
* `Operator.bigStepNoun` — a noun expression to its prime;
* `Operator.bigStep` — a term to its terminal term, the parts of a join in the order of the
  strategy.

Principal results, which tie one step of the engine to the whole evaluation: `bigStep_of_terminal`
(a terminal term is its own result), `bigStep_of_contract` (a contraction is the first event) and
`bigStep_of_error` (an error of a step is the error of the evaluation).
-/

namespace PrimeLanguage

/-- What a reduction step records: the path to the redex and what happened there. -/
structure Event where
  path : List Position
  details : StepDetails
  deriving DecidableEq

namespace Event

/-- The event of a part, as an event of the whole: `ps` leads from the whole to the part. -/
def under (ps : List Position) (ev : Event) : Event := ⟨ps ++ ev.path, ev.details⟩

def rule (ev : Event) : Rule := ev.details.rule

/-- How many events apply an adjective. -/
def applications (evs : List Event) : Nat := evs.countP (·.rule = .apply)

@[simp] theorem under_nil (ev : Event) : ev.under [] = ev := rfl

@[simp] theorem under_under (ps qs : List Position) (ev : Event) :
    (ev.under qs).under ps = ev.under (ps ++ qs) := by
  simp [under]

@[simp] theorem applications_apply (ps : List Position) (p q : Prime) (c : Combination)
    (evs : List Event) : applications (⟨ps, .apply p q c⟩ :: evs) = applications evs + 1 :=
  List.countP_cons_of_pos rfl

@[simp] theorem applications_append (evs evs' : List Event) :
    applications (evs ++ evs') = applications evs + applications evs' :=
  List.countP_append

@[simp] theorem applications_map_under (ps : List Position) (evs : List Event) :
    applications (evs.map (·.under ps)) = applications evs := by
  rw [applications, List.countP_map]
  rfl

end Event

def Contraction.event (k : Contraction) : Event := ⟨k.path, k.details⟩

def Step.event (s : Step) : Event := ⟨s.path, s.details⟩

/-- The events of a reduction and what it ends in. -/
structure Reduct (α : Type) where
  events : List Event
  result : α

/-- The reduction with one more event in front. -/
def Reduct.cons {α : Type} (ev : Event) (r : Reduct α) : Reduct α := ⟨ev :: r.events, r.result⟩

namespace Operator

/-- Lets operators act on a noun, one after another. -/
def bigStepOperators (op : Operator) : List Term → Prime → Except Error (Reduct Prime)
  | [], q => .ok ⟨[], q⟩
  | .adj p :: os, q => do
    let c ← op.combine p q
    let r ← bigStepOperators op os c.result
    return r.cons ⟨[], .apply p q c⟩
  | o :: _, _ => .error (shapeMismatch .adj o)

/-- Evaluates a noun expression: a chain after its noun position. -/
def bigStepNoun (op : Operator) : Term → Except Error (Reduct Prime)
  | .noun q => .ok ⟨[], q⟩
  | .fusion f =>
    match f.fused? with
    | some s => .ok ⟨[⟨[], .fuse f s⟩], s⟩
    | none => .error (.illFormedFusion f)
  | .chain o os e => do
    let inner ← bigStepNoun op e
    let outer ← op.bigStepOperators (o :: os) inner.result
    return ⟨inner.events.map (·.under [.noun]) ++ outer.events, outer.result⟩
  | t => .error (shapeMismatch .noun t)

/-- Evaluates a term to its terminal term. -/
def bigStep (op : Operator) (strategy : Strategy) : Term → Except Error (Reduct Term)
  | .adj p => .ok ⟨[], .adj p⟩
  | .sentence e => do
    let r ← bigStep op strategy e
    return ⟨r.events.map (·.under [.body]), .sentence r.result⟩
  | .join c l r =>
    match strategy with
    | .leftmostFirst => do
      let x ← bigStep op strategy l
      let y ← bigStep op strategy r
      return ⟨x.events.map (·.under [.left]) ++ y.events.map (·.under [.right]),
        .join c x.result y.result⟩
    | .rightmostFirst => do
      let y ← bigStep op strategy r
      let x ← bigStep op strategy l
      return ⟨y.events.map (·.under [.right]) ++ x.events.map (·.under [.left]),
        .join c x.result y.result⟩
  | .noun q => .ok ⟨[], .noun q⟩
  | .fusion f => (bigStepNoun op (.fusion f)).map fun r => ⟨r.events, .noun r.result⟩
  | .chain o os e => (bigStepNoun op (.chain o os e)).map fun r => ⟨r.events, .noun r.result⟩

variable {op : Operator} {strategy : Strategy} {t : Term}

/-- Noun expressions evaluate to nouns. -/
theorem bigStep_of_isNounShaped (h : t.isNounShaped = true) :
    bigStep op strategy t = (bigStepNoun op t).map fun r => ⟨r.events, .noun r.result⟩ := by
  cases t with
  | noun | fusion | chain => rfl
  | adj | sentence | join => cases h

theorem bigStepNoun_of_not_isNounShaped (h : t.isNounShaped = false) :
    bigStepNoun op t = .error (shapeMismatch .noun t) := by
  cases t with
  | noun | fusion | chain => cases h
  | adj | sentence | join => rfl

theorem isNounShaped_of_bigStepNoun {r : Reduct Prime} (h : bigStepNoun op t = .ok r) :
    t.isNounShaped = true := by
  cases t with
  | noun | fusion | chain => rfl
  | adj | sentence | join => cases h

theorem bigStepNoun_ofOperators (os : List Term) (q : Prime) :
    bigStepNoun op (.ofOperators os (.noun q)) = op.bigStepOperators os q := by
  cases os with
  | nil => rfl
  | cons o os =>
    simp only [Term.ofOperators, bigStepNoun, bind, Except.bind]
    cases op.bigStepOperators (o :: os) q with
    | error err => rfl
    | ok r => rfl

/-- Operators act on what a noun expression evaluates to, after its events. -/
theorem bigStepNoun_ofOperators_of_ok {os : List Term} {inner outer : Reduct Prime}
    (h : bigStepNoun op t = .ok inner) (hos : op.bigStepOperators os inner.result = .ok outer) :
    ∃ evs, bigStepNoun op (.ofOperators os t) = .ok ⟨evs, outer.result⟩ ∧
      evs.length = inner.events.length + outer.events.length := by
  cases os with
  | nil =>
    cases hos
    exact ⟨inner.events, h, rfl⟩
  | cons o os =>
    refine ⟨inner.events.map (·.under [.noun]) ++ outer.events, ?_, by simp⟩
    simp only [Term.ofOperators, bigStepNoun, h, hos, bind, Except.bind]
    rfl

/-! ## One step of a noun expression -/

theorem bigStepNoun_of_contractExpr {k : Contraction} (h : contractExpr op t = .ok k) :
    bigStepNoun op t = (bigStepNoun op k.after).map (·.cons k.event) := by
  fun_induction contractExpr op t generalizing k with
  | case1 f s hs => cases h; simp only [bigStepNoun, hs]; rfl
  | case2 | case5 => cases h
  | case3 o os q =>
    obtain ⟨p, c, rfl, hc, rfl⟩ := applyFirst_eq_ok h
    rw [bigStepNoun_ofOperators]
    simp only [bigStepNoun, bigStepOperators, hc, bind, Except.bind]
    cases op.bigStepOperators os c.result <;> rfl
  | case4 o os e _ ih =>
    obtain ⟨k', hk, rfl⟩ := map_eq_ok_iff.1 h
    simp only [Contraction.inChain, bigStepNoun, ih hk, bind, Except.bind]
    cases bigStepNoun op k'.after with
    | error err => rfl
    | ok r =>
      simp only [Except.map, Reduct.cons]
      cases op.bigStepOperators (o :: os) r.result <;> rfl

theorem bigStepNoun_of_contractExpr_error {err : Error} (ht : t.isNoun = false)
    (h : contractExpr op t = .error err) : bigStepNoun op t = .error err := by
  fun_induction contractExpr op t with
  | case1 f s hs => cases h
  | case2 f hf => cases h; simp only [bigStepNoun, hf]
  | case3 o os q =>
    cases o with
    | adj p =>
      have hc := map_eq_error_iff.1 h
      simp only [bigStepNoun, bigStepOperators, hc, bind, Except.bind]
    | noun | chain | fusion | sentence | join => cases h; rfl
  | case4 o os e he ih =>
    have hne : e.isNoun = false := by
      cases e with
      | noun q => exact absurd rfl (he q)
      | adj | chain | fusion | sentence | join => rfl
    simp only [bigStepNoun, ih hne (map_eq_error_iff.1 h), bind, Except.bind]
  | case5 t hf hn hc =>
    cases t with
    | noun => cases ht
    | chain o os e => exact absurd rfl (hc o os e)
    | fusion f => exact absurd rfl (hf f)
    | adj | sentence | join => cases h; rfl

/-! ## One step of a term -/

/-- **A terminal term is its own result.** -/
theorem bigStep_of_terminal (h : contract op strategy t = .ok none) :
    bigStep op strategy t = .ok ⟨[], t⟩ := by
  induction t using Term.induction with
  | noun | adj => rfl
  | chain | fusion =>
    obtain ⟨k, _, hk⟩ := map_eq_ok_iff.1 h
    cases hk
  | sentence e ih =>
    obtain ⟨k, hk, hnone⟩ := bind_eq_ok_iff.1 h
    cases k with
    | none => simp only [bigStep, ih hk]; rfl
    | some k => cases hnone
  | join c l r ihl ihr =>
    obtain ⟨hl, hr⟩ := contract_join_none h
    cases strategy <;> simp only [bigStep, ihl hl, ihr hr] <;> rfl

/-- Noun expressions step alike under every strategy. -/
theorem bigStep_of_contractExpr {k : Contraction} (h : contractExpr op t = .ok k) :
    bigStep op strategy t = (bigStep op strategy k.after).map (·.cons k.event) := by
  obtain ⟨ht, hk⟩ := isNounShaped_of_contractExpr h
  rw [bigStep_of_isNounShaped ht, bigStep_of_isNounShaped hk, bigStepNoun_of_contractExpr h]
  cases bigStepNoun op k.after <;> rfl

/-- **A contraction is the first event**: what is left is the evaluation of the contracted term. -/
theorem bigStep_of_contract {k : Contraction} (h : contract op strategy t = .ok (some k)) :
    bigStep op strategy t = (bigStep op strategy k.after).map (·.cons k.event) := by
  induction t using Term.induction generalizing k with
  | noun | adj => cases h
  | chain | fusion =>
    obtain ⟨k', hk, hsome⟩ := map_eq_ok_iff.1 h
    cases hsome
    exact bigStep_of_contractExpr hk
  | sentence e ih =>
    obtain ⟨x, hk, hsome⟩ := bind_eq_ok_iff.1 h
    cases x with
    | none => cases hsome
    | some k' =>
      cases hsome
      simp only [Contraction.inBody, bigStep, ih hk, bind, Except.bind]
      cases bigStep op strategy k'.after <;> rfl
  | join c l r ihl ihr =>
    -- the part that the strategy looks at first may be terminal, and then adds no event
    rcases contract_join_some h with ⟨k', hl, rfl, hother⟩ | ⟨k', hr, rfl, hother⟩
    · cases strategy with
      | leftmostFirst =>
        simp only [Contraction.inLeft, bigStep, ihl hl, bind, Except.bind]
        cases bigStep op .leftmostFirst k'.after with
        | error err => rfl
        | ok x => cases bigStep op .leftmostFirst r <;> rfl
      | rightmostFirst =>
        simp only [Contraction.inLeft, bigStep, ihl hl, bigStep_of_terminal (hother rfl), bind,
          Except.bind]
        cases bigStep op .rightmostFirst k'.after <;> rfl
    · cases strategy with
      | leftmostFirst =>
        simp only [Contraction.inRight, bigStep, ihr hr, bigStep_of_terminal (hother rfl), bind,
          Except.bind]
        cases bigStep op .leftmostFirst k'.after <;> rfl
      | rightmostFirst =>
        simp only [Contraction.inRight, bigStep, ihr hr, bind, Except.bind]
        cases bigStep op .rightmostFirst k'.after with
        | error err => rfl
        | ok y => cases bigStep op .rightmostFirst l <;> rfl

/-- **An error of a step is the error of the evaluation.** -/
theorem bigStep_of_error {err : Error} (h : contract op strategy t = .error err) :
    bigStep op strategy t = .error err := by
  induction t using Term.induction with
  | noun | adj => cases h
  | chain | fusion =>
    have hk := bigStepNoun_of_contractExpr_error rfl (map_eq_error_iff.1 h)
    rw [bigStep, hk]
    rfl
  | sentence e ih =>
    rcases bind_eq_error_iff.1 h with he | ⟨x, _, h⟩
    · simp only [bigStep, ih he]; rfl
    · cases h
  | join c l r ihl ihr =>
    rcases contract_join_error h with ⟨hl, hother⟩ | ⟨hr, hother⟩
    · cases strategy with
      | leftmostFirst => simp only [bigStep, ihl hl]; rfl
      | rightmostFirst => simp only [bigStep, ihl hl, bigStep_of_terminal (hother rfl)]; rfl
    · cases strategy with
      | leftmostFirst => simp only [bigStep, ihr hr, bigStep_of_terminal (hother rfl)]; rfl
      | rightmostFirst => simp only [bigStep, ihr hr]; rfl

end Operator

end PrimeLanguage
