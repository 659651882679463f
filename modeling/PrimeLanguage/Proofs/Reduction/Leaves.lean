import PrimeLanguage.Proofs.Reduction.BigStep

/-!
# Leaves of sentences

The parts of a term that sentences and joins lead to are reduced independently of each other.

* `Leaf`, `Term.leaves` — the parts that are no sentences and the ways to them, from left to right;
* `Strategy.visit` — the order in which a strategy comes to the leaves;
* `Operator.leafEvents` — the events of one leaf.

Principal results: `bigStep_eq_of_ok` — where the evaluation succeeds under one strategy it succeeds
under every strategy, with the same result and the events of the leaves in its order;
`exists_leaf_of_bigStep_error` and `exists_leaf_of_contractAll_error` — every error is the error of
a leaf on its own.
-/

namespace PrimeLanguage

/-- A part of a term that is no sentence, and the way to it. -/
structure Leaf where
  path : List Position
  term : Term

/-- The leaf of a part, as a leaf of the whole: `ps` leads from the whole to the part. -/
def Leaf.under (ps : List Position) (leaf : Leaf) : Leaf := ⟨ps ++ leaf.path, leaf.term⟩

@[simp] theorem Leaf.term_under (ps : List Position) (leaf : Leaf) :
    (leaf.under ps).term = leaf.term := rfl

/-- The parts that sentences and joins lead to, from left to right; a term that is no sentence is
its own leaf. -/
def Term.leaves : Term → List Leaf
  | .sentence e => e.leaves.map (·.under [.body])
  | .join _ l r => l.leaves.map (·.under [.left]) ++ r.leaves.map (·.under [.right])
  | t => [⟨[], t⟩]

theorem Term.leaves_of_not_isSentence {t : Term} (h : t.isSentence = false) :
    t.leaves = [⟨[], t⟩] := by
  cases t with
  | noun | adj | chain | fusion => rfl
  | sentence | join => cases h

/-- The terms at the leaves, from left to right. -/
def Term.leafTerms (t : Term) : List Term := t.leaves.map (·.term)

@[simp] theorem Term.leafTerms_sentence (e : Term) : (Term.sentence e).leafTerms = e.leafTerms := by
  simp [Term.leafTerms, Term.leaves]

@[simp] theorem Term.leafTerms_join (c : Connective) (l r : Term) :
    (Term.join c l r).leafTerms = l.leafTerms ++ r.leafTerms := by
  simp only [Term.leafTerms, Term.leaves, List.map_append, List.map_map]
  rfl

theorem Term.isSentence_of_mem_leafTerms {t u : Term} (h : u ∈ t.leafTerms) :
    u.isSentence = false := by
  induction t using Term.induction with
  | noun | adj | chain | fusion => rw [List.mem_singleton.1 h]; rfl
  | sentence e ih => exact ih (by simpa using h)
  | join c l r ihl ihr =>
    rw [Term.leafTerms_join] at h
    exact (List.mem_append.1 h).elim ihl ihr

/-- The order in which a strategy comes to what stands from left to right. -/
def Strategy.visit {α : Type} : Strategy → List α → List α
  | .leftmostFirst, xs => xs
  | .rightmostFirst, xs => xs.reverse

namespace Strategy

variable {α β : Type} (strategy : Strategy)

@[simp] theorem visit_singleton (x : α) : strategy.visit [x] = [x] := by
  cases strategy <;> rfl

@[simp] theorem visit_map (f : α → β) (xs : List α) :
    strategy.visit (xs.map f) = (strategy.visit xs).map f := by
  cases strategy with
  | leftmostFirst => rfl
  | rightmostFirst => exact List.map_reverse.symm

theorem length_flatten_visit_pair (xs ys : List α) :
    (strategy.visit [xs, ys]).flatten.length = xs.length + ys.length := by
  cases strategy with
  | leftmostFirst => simp [visit]
  | rightmostFirst => simp [visit, Nat.add_comm]

theorem applications_flatten_visit_pair (evs evs' : List Event) :
    Event.applications (strategy.visit [evs, evs']).flatten =
      Event.applications evs + Event.applications evs' := by
  cases strategy with
  | leftmostFirst => simp [visit]
  | rightmostFirst => simp [visit, Nat.add_comm]

theorem visit_perm (xs : List α) : (strategy.visit xs).Perm xs := by
  cases strategy with
  | leftmostFirst => exact List.Perm.refl xs
  | rightmostFirst => exact List.reverse_perm xs

end Strategy

namespace Operator

variable {op : Operator} {strategy : Strategy} {t : Term}

/-- The events of a leaf that is evaluated on its own. -/
def leafEvents (op : Operator) (leaf : Leaf) : List Event :=
  match op.bigStep .leftmostFirst leaf.term with
  | .ok r => r.events.map (·.under leaf.path)
  | .error _ => []

theorem leafEvents_under (ps : List Position) (leaf : Leaf) :
    op.leafEvents (leaf.under ps) = (op.leafEvents leaf).map (·.under ps) := by
  simp only [leafEvents, Leaf.under]
  cases op.bigStep .leftmostFirst leaf.term with
  | error err => rfl
  | ok r => simp

theorem flatMap_leafEvents_under (ps : List Position) (leaves : List Leaf) :
    (leaves.map (·.under ps)).flatMap op.leafEvents =
      (leaves.flatMap op.leafEvents).map (·.under ps) := by
  rw [List.flatMap_map, List.map_flatMap]
  exact congrArg (leaves.flatMap ·) (funext fun leaf => leafEvents_under ps leaf)

/-- A term that is no sentence is evaluated alike under every strategy. -/
theorem bigStep_of_not_isSentence (h : t.isSentence = false) (s : Strategy) :
    bigStep op strategy t = bigStep op s t := by
  cases t with
  | noun | adj | chain | fusion => rfl
  | sentence | join => cases h

theorem leafEvents_of_ok {leaf : Leaf} {r : Reduct Term} (ht : leaf.term.isSentence = false)
    (h : bigStep op strategy leaf.term = .ok r) :
    op.leafEvents leaf = r.events.map (·.under leaf.path) := by
  rw [bigStep_of_not_isSentence ht .leftmostFirst] at h
  simp only [leafEvents, h]

theorem bigStep_leaf_eq_of_ok {r : Reduct Term} (ht : t.isSentence = false)
    (h : bigStep op strategy t = .ok r) (s : Strategy) :
    bigStep op s t = .ok ⟨(s.visit t.leaves).flatMap op.leafEvents, r.result⟩ := by
  have hev : op.leafEvents ⟨[], t⟩ = r.events := by
    rw [leafEvents_of_ok ht h]
    simp
  rw [bigStep_of_not_isSentence ht strategy, h, Term.leaves_of_not_isSentence ht,
    Strategy.visit_singleton, List.flatMap_singleton, hev]

theorem bigStep_join_eq_ok_iff {c : Connective} {l r : Term} {z : Reduct Term} :
    bigStep op strategy (.join c l r) = .ok z ↔
      ∃ x y, bigStep op strategy l = .ok x ∧ bigStep op strategy r = .ok y ∧
        z = ⟨(strategy.visit
          [x.events.map (·.under [.left]), y.events.map (·.under [.right])]).flatten,
          .join c x.result y.result⟩ := by
  constructor
  · intro h
    cases strategy with
    | leftmostFirst =>
      obtain ⟨x, hx, h⟩ := bind_eq_ok_iff.1 h
      obtain ⟨y, hy, h⟩ := bind_eq_ok_iff.1 h
      cases h
      exact ⟨x, y, hx, hy, by simp [Strategy.visit]⟩
    | rightmostFirst =>
      obtain ⟨y, hy, h⟩ := bind_eq_ok_iff.1 h
      obtain ⟨x, hx, h⟩ := bind_eq_ok_iff.1 h
      cases h
      exact ⟨x, y, hx, hy, by simp [Strategy.visit]⟩
  · rintro ⟨x, y, hx, hy, rfl⟩
    cases strategy <;> simp [bigStep, hx, hy, Strategy.visit, bind, Except.bind, pure, Except.pure]

/-- **Success and result do not depend on the strategy**, and the events are those of the leaves, in
the order in which the strategy comes to them. -/
theorem bigStep_eq_of_ok {r : Reduct Term} (h : bigStep op strategy t = .ok r) (s : Strategy) :
    bigStep op s t = .ok ⟨(s.visit t.leaves).flatMap op.leafEvents, r.result⟩ := by
  induction t using Term.induction generalizing r with
  | noun | adj | chain | fusion => exact bigStep_leaf_eq_of_ok rfl h s
  | sentence e ih =>
    obtain ⟨x, hx, h⟩ := bind_eq_ok_iff.1 h
    cases h
    simp only [bigStep, ih hx, Term.leaves, Strategy.visit_map, flatMap_leafEvents_under]
    rfl
  | join c t u iht ihu =>
    obtain ⟨x, y, hx, hy, rfl⟩ := bigStep_join_eq_ok_iff.1 h
    rw [bigStep_join_eq_ok_iff.2 ⟨_, _, iht hx, ihu hy, rfl⟩]
    cases s <;> simp [Term.leaves, Strategy.visit, flatMap_leafEvents_under, ← List.map_reverse]

/-- Two strategies have the same events, in different orders. -/
theorem bigStep_strategy_perm {r : Reduct Term} (h : bigStep op strategy t = .ok r)
    (s : Strategy) :
    ∃ r', bigStep op s t = .ok r' ∧ r'.result = r.result ∧ r'.events.Perm r.events := by
  refine ⟨_, bigStep_eq_of_ok h s, rfl, ?_⟩
  have hr := bigStep_eq_of_ok h strategy
  rw [h] at hr
  rw [Except.ok.inj hr]
  exact ((s.visit_perm _).trans (strategy.visit_perm _).symm).flatMap_right _

/-! ## Leaves of a term that evaluates -/

theorem bigStep_leaf_of_ok {r : Reduct Term} (h : bigStep op strategy t = .ok r) {u : Term}
    (hu : u ∈ t.leafTerms) : ∃ r', bigStep op strategy u = .ok r' := by
  induction t using Term.induction generalizing r with
  | noun | adj | chain | fusion => rw [List.mem_singleton.1 hu]; exact ⟨r, h⟩
  | sentence e ih =>
    obtain ⟨x, hx, _⟩ := bind_eq_ok_iff.1 h
    exact ih hx (by simpa using hu)
  | join c t u iht ihu =>
    obtain ⟨x, y, hx, hy, _⟩ := bigStep_join_eq_ok_iff.1 h
    rw [Term.leafTerms_join] at hu
    exact (List.mem_append.1 hu).elim (iht hx) (ihu hy)

/-! ## Errors -/

theorem bigStep_join_error {c : Connective} {l r : Term} {err : Error}
    (h : bigStep op strategy (.join c l r) = .error err) :
    bigStep op strategy l = .error err ∨ bigStep op strategy r = .error err := by
  cases strategy with
  | leftmostFirst =>
    rcases bind_eq_error_iff.1 h with hl | ⟨x, _, h⟩
    · exact Or.inl hl
    · rcases bind_eq_error_iff.1 h with hr | ⟨y, _, h⟩
      · exact Or.inr hr
      · cases h
  | rightmostFirst =>
    rcases bind_eq_error_iff.1 h with hr | ⟨y, _, h⟩
    · exact Or.inr hr
    · rcases bind_eq_error_iff.1 h with hl | ⟨x, _, h⟩
      · exact Or.inl hl
      · cases h

theorem exists_mem_leafTerms_join {c : Connective} {l r : Term} {p : Term → Prop}
    (h : (∃ u ∈ l.leafTerms, p u) ∨ ∃ u ∈ r.leafTerms, p u) :
    ∃ u ∈ (Term.join c l r).leafTerms, p u := by
  rw [Term.leafTerms_join]
  rcases h with ⟨u, hu, hp⟩ | ⟨u, hu, hp⟩
  · exact ⟨u, List.mem_append_left _ hu, hp⟩
  · exact ⟨u, List.mem_append_right _ hu, hp⟩

/-- **An error of the evaluation is the error of a leaf.** -/
theorem exists_leaf_of_bigStep_error {err : Error} (h : bigStep op strategy t = .error err) :
    ∃ u ∈ t.leafTerms, bigStep op strategy u = .error err := by
  induction t using Term.induction with
  | noun | adj | chain | fusion => exact ⟨_, List.mem_singleton_self _, h⟩
  | sentence e ih =>
    rcases bind_eq_error_iff.1 h with he | ⟨x, _, h⟩
    · rw [Term.leafTerms_sentence]; exact ih he
    · cases h
  | join c l r ihl ihr => exact exists_mem_leafTerms_join ((bigStep_join_error h).imp ihl ihr)

/-- **An error on the way to all redexes is the error of a leaf.** -/
theorem exists_leaf_of_contractAll_error {err : Error} (h : contractAll op t = .error err) :
    ∃ u ∈ t.leafTerms, bigStep op strategy u = .error err := by
  induction t using Term.induction with
  | noun | adj => cases h
  | chain | fusion =>
    refine ⟨_, List.mem_singleton_self _, ?_⟩
    have herr := bigStepNoun_of_contractExpr_error rfl (map_eq_error_iff.1 h)
    rw [bigStep_of_isNounShaped rfl, herr]
    rfl
  | sentence e ih =>
    rcases bind_eq_error_iff.1 h with he | ⟨ks, _, h⟩
    · rw [Term.leafTerms_sentence]; exact ih he
    · cases h
  | join c l r ihl ihr =>
    rcases bind_eq_error_iff.1 h with hl | ⟨ls, _, h⟩
    · exact exists_mem_leafTerms_join (Or.inl (ihl hl))
    · rcases bind_eq_error_iff.1 h with hr | ⟨rs, _, h⟩
      · exact exists_mem_leafTerms_join (Or.inr (ihr hr))
      · cases h

end Operator

end PrimeLanguage
