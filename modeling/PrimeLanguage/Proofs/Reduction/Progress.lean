import Mathlib.Logic.Relation
import PrimeLanguage.Proofs.Reduction.Accounting
import PrimeLanguage.Proofs.Reduction.Countdown
import PrimeLanguage.Proofs.Reduction.Successors

/-!
# The reduction graph

The leaves of a term are reduced independently of each other, and each of them on a single way.  So
a term on the way is known by how many steps each leaf has left, and a reduction is a countdown of
these numbers.

* `Term.leafSteps` — the steps that each leaf has left;
* `Operator.Evaluates` — reduction meets no error;
* `Operator.Reaches` — what contractions lead to, one after another;
* `Engine.reachable`, `Engine.maximalRuns` — the terms that runs lead to, and the runs that cannot
  go on.

What carries the argument is that the contractions of a term that evaluates, from left to right, are
the steps of the countdown (`contractAll_of_evaluates`), and that no two terms on the way have the
same steps left (`Reaches.eq_of_leafSteps`).  `encard_reachable` and `encard_maximalRuns` count the
terms and the runs.
-/

namespace PrimeLanguage

open Countdown

namespace Term

/-- How many steps each leaf has left, from left to right: as many as its measure exceeds that of an
atom. -/
def leafSteps (t : Term) : List Nat := t.leafTerms.map (·.measure - 1)

@[simp] theorem leafSteps_sentence (e : Term) : (Term.sentence e).leafSteps = e.leafSteps := by
  simp [leafSteps]

@[simp] theorem leafSteps_join (c : Connective) (l r : Term) :
    (Term.join c l r).leafSteps = l.leafSteps ++ r.leafSteps := by
  simp [leafSteps]

theorem leafSteps_of_not_isSentence {t : Term} (h : t.isSentence = false) :
    t.leafSteps = [t.measure - 1] := by
  rw [leafSteps, leafTerms, leaves_of_not_isSentence h]
  rfl

theorem length_leafSteps (t : Term) : t.leafSteps.length = t.leaves.length := by
  rw [leafSteps, leafTerms, List.length_map, List.length_map]

theorem measure_pos (t : Term) : 0 < t.measure := weight_pos (by decide) t

/-- The measure is the steps left and one for each leaf. -/
theorem sum_leafSteps (t : Term) : t.leafSteps.sum + t.leaves.length = t.measure := by
  induction t using Term.induction with
  | noun | adj => rfl
  | chain | fusion =>
    rw [leafSteps_of_not_isSentence rfl, leaves_of_not_isSentence rfl]
    exact Nat.sub_add_cancel (measure_pos _)
  | sentence e ih => simpa [leaves, measure, weight] using ih
  | join c l r ihl ihr =>
    simp only [leafSteps_join, List.sum_append, leaves, List.length_append, List.length_map,
      measure, weight] at ihl ihr ⊢
    omega

theorem isSentence_of_isNounShaped {t : Term} (h : t.isNounShaped = true) :
    t.isSentence = false := by
  cases t with
  | noun | chain | fusion => rfl
  | adj | sentence | join => cases h

end Term

namespace Operator

variable {op : Operator} {strategy : Strategy} {t u v : Term} {k k' : Contraction}

/-! ## Terms that evaluate -/

/-- Reduction of the term meets no error. -/
def Evaluates (op : Operator) (t : Term) : Prop := ∃ r, op.bigStep .leftmostFirst t = .ok r

theorem evaluates_sentence {e : Term} : op.Evaluates (.sentence e) ↔ op.Evaluates e := by
  constructor
  · rintro ⟨_, h⟩
    obtain ⟨r, hr, _⟩ := bind_eq_ok_iff.1 h
    exact ⟨r, hr⟩
  · rintro ⟨r, hr⟩
    exact ⟨_, bind_eq_ok_iff.2 ⟨r, hr, rfl⟩⟩

theorem evaluates_join {c : Connective} {l r : Term} :
    op.Evaluates (.join c l r) ↔ op.Evaluates l ∧ op.Evaluates r := by
  constructor
  · rintro ⟨_, h⟩
    obtain ⟨x, y, hx, hy, _⟩ := bigStep_join_eq_ok_iff.1 h
    exact ⟨⟨x, hx⟩, ⟨y, hy⟩⟩
  · rintro ⟨⟨x, hx⟩, ⟨y, hy⟩⟩
    exact ⟨_, bigStep_join_eq_ok_iff.2 ⟨x, y, hx, hy, rfl⟩⟩

/-- **A contraction neither meets an error nor gets rid of one.** -/
theorem Contracts.evaluates_iff (h : op.Contracts t k) :
    op.Evaluates t ↔ op.Evaluates k.after := by
  induction h with
  | expr h =>
    rw [Evaluates, bigStep_of_contractExpr h]
    exact exists_map_eq_ok_iff
  | body _ ih => exact evaluates_sentence.trans (ih.trans evaluates_sentence.symm)
  | left _ ih => exact evaluates_join.trans ((and_congr_left' ih).trans evaluates_join.symm)
  | right _ ih => exact evaluates_join.trans ((and_congr_right' ih).trans evaluates_join.symm)

/-- A term without redexes is terminal under every strategy. -/
theorem contract_of_contractAll_nil (h : contractAll op t = .ok []) :
    contract op strategy t = .ok none := by
  rw [contract_of_contractAll h]
  cases strategy <;> rfl

theorem evaluates_of_contractAll_nil (h : contractAll op t = .ok []) : op.Evaluates t :=
  ⟨_, bigStep_of_terminal (contract_of_contractAll_nil h)⟩

/-- Every redex is among all redexes. -/
theorem mem_contractAll_of_contracts (h : op.Contracts t k) {ks : List Contraction}
    (hks : contractAll op t = .ok ks) : k ∈ ks := by
  induction h generalizing ks with
  | @expr t k h =>
    cases t with
    | chain | fusion =>
      rw [contractAll, h] at hks
      cases hks
      exact List.mem_singleton_self k
    | noun | adj | sentence | join => cases h
  | body _ ih =>
    obtain ⟨ks', hks', h⟩ := bind_eq_ok_iff.1 hks
    cases h
    exact List.mem_map_of_mem (ih hks')
  | left _ ih =>
    obtain ⟨ls, hls, h⟩ := bind_eq_ok_iff.1 hks
    obtain ⟨rs, _, h⟩ := bind_eq_ok_iff.1 h
    cases h
    exact List.mem_append_left _ (List.mem_map_of_mem (ih hls))
  | right _ ih =>
    obtain ⟨ls, _, h⟩ := bind_eq_ok_iff.1 hks
    obtain ⟨rs, hrs, h⟩ := bind_eq_ok_iff.1 h
    cases h
    exact List.mem_append_right _ (List.mem_map_of_mem (ih hrs))

/-- The contraction of a leaf takes one off its steps. -/
theorem leafSteps_of_contractExpr (h : contractExpr op t = .ok k) :
    decrements t.leafSteps = [k.after.leafSteps] := by
  obtain ⟨ht, hk⟩ := isNounShaped_of_contractExpr h
  have hmeasure := contractExpr_measure h
  have hpos := k.after.measure_pos
  have hone : t.measure - 1 = k.after.measure - 1 + 1 := by omega
  rw [Term.leafSteps_of_not_isSentence (Term.isSentence_of_isNounShaped ht),
    Term.leafSteps_of_not_isSentence (Term.isSentence_of_isNounShaped hk), hone]
  rfl

/-- **All redexes of a term that evaluates are the steps of the countdown**, in the same order. -/
theorem contractAll_of_evaluates (h : op.Evaluates t) :
    ∃ ks, contractAll op t = .ok ks ∧ ks.map (·.after.leafSteps) = decrements t.leafSteps := by
  induction t using Term.induction with
  | noun | adj => exact ⟨[], rfl, rfl⟩
  | chain | fusion =>
    obtain ⟨r, hr⟩ := h
    obtain ⟨k, hk, _⟩ := contractExpr_of_bigStep rfl rfl hr
    exact ⟨[k], map_eq_ok_iff.2 ⟨k, hk, rfl⟩, (leafSteps_of_contractExpr hk).symm⟩
  | sentence e ih =>
    obtain ⟨ks, hks, hsteps⟩ := ih (evaluates_sentence.1 h)
    refine ⟨_, bind_eq_ok_iff.2 ⟨ks, hks, rfl⟩, ?_⟩
    rw [Term.leafSteps_sentence, ← hsteps, List.map_map]
    exact List.map_congr_left fun k _ => Term.leafSteps_sentence k.after
  | join c l r ihl ihr =>
    obtain ⟨hl, hr⟩ := evaluates_join.1 h
    obtain ⟨ls, hls, hlsteps⟩ := ihl hl
    obtain ⟨rs, hrs, hrsteps⟩ := ihr hr
    refine ⟨_, bind_eq_ok_iff.2 ⟨ls, hls, bind_eq_ok_iff.2 ⟨rs, hrs, rfl⟩⟩, ?_⟩
    rw [Term.leafSteps_join, decrements_append, ← hlsteps, ← hrsteps]
    simp only [List.map_append, List.map_map]
    exact congrArg₂ (· ++ ·) (List.map_congr_left fun k _ => Term.leafSteps_join c k.after r)
      (List.map_congr_left fun k _ => Term.leafSteps_join c l k.after)

theorem map_leafSteps_contractAll {ks : List Contraction} (h : op.Evaluates t)
    (hks : contractAll op t = .ok ks) : ks.map (·.after.leafSteps) = decrements t.leafSteps := by
  obtain ⟨ks', hks', hsteps⟩ := contractAll_of_evaluates h
  rw [hks] at hks'
  cases hks'
  exact hsteps

/-- A term that evaluates is terminal when no leaf has a step left. -/
theorem sum_leafSteps_eq_zero_iff {ks : List Contraction} (h : op.Evaluates t)
    (hks : contractAll op t = .ok ks) : t.leafSteps.sum = 0 ↔ ks = [] := by
  rw [← decrements_eq_nil_iff, ← map_leafSteps_contractAll h hks, List.map_eq_nil_iff]

/-- The orders of a term that is not terminal are those of its contractions together. -/
theorem sum_interleavings_contractAll {ks : List Contraction} (h : op.Evaluates t)
    (hks : contractAll op t = .ok ks) (hne : ks ≠ []) :
    (ks.map fun k => interleavings k.after.leafSteps).sum = interleavings t.leafSteps := by
  have hpos : 0 < t.leafSteps.sum :=
    Nat.pos_of_ne_zero fun hzero => hne ((sum_leafSteps_eq_zero_iff h hks).1 hzero)
  rw [← sum_interleavings hpos, ← map_leafSteps_contractAll h hks, List.map_map]
  rfl

theorem leafSteps_of_contracts (h : op.Evaluates t) (hk : op.Contracts t k) :
    k.after.leafSteps ∈ decrements t.leafSteps := by
  obtain ⟨ks, hks, hsteps⟩ := contractAll_of_evaluates h
  rw [← hsteps]
  exact List.mem_map_of_mem (mem_contractAll_of_contracts hk hks)

/-! ## What contractions lead to -/

/-- Contractions lead from one term to the other, one after another. -/
def Reaches (op : Operator) : Term → Term → Prop :=
  Relation.ReflTransGen fun t u => ∃ k, op.Contracts t k ∧ k.after = u

theorem Reaches.refl (t : Term) : op.Reaches t t := Relation.ReflTransGen.refl

theorem Reaches.head (hk : op.Contracts t k) (h : op.Reaches k.after u) : op.Reaches t u :=
  Relation.ReflTransGen.head ⟨k, hk, rfl⟩ h

/-- Whatever is reached is the start, or is reached after a first contraction. -/
theorem reaches_iff : op.Reaches t u ↔ u = t ∨ ∃ k, op.Contracts t k ∧ op.Reaches k.after u := by
  constructor
  · intro h
    rcases Relation.ReflTransGen.cases_head h with rfl | ⟨_, ⟨k, hk, rfl⟩, h⟩
    · exact Or.inl rfl
    · exact Or.inr ⟨k, hk, h⟩
  · rintro (rfl | ⟨k, hk, h⟩)
    · exact Reaches.refl u
    · exact h.head hk

theorem reaches_iff_of_contractAll {ks : List Contraction} (hks : contractAll op t = .ok ks) :
    op.Reaches t u ↔ u = t ∨ ∃ v ∈ ks.map (·.after), op.Reaches v u := by
  rw [reaches_iff]
  refine or_congr_right ⟨?_, ?_⟩
  · rintro ⟨k, hk, h⟩
    exact ⟨k.after, List.mem_map_of_mem (mem_contractAll_of_contracts hk hks), h⟩
  · rintro ⟨v, hv, h⟩
    obtain ⟨k, hk, rfl⟩ := List.mem_map.1 hv
    exact ⟨k, contracts_of_mem_contractAll hks hk, h⟩

theorem Reaches.evaluates (h : op.Reaches t u) (ht : op.Evaluates t) : op.Evaluates u := by
  induction h with
  | refl => exact ht
  | tail _ hstep ih =>
    obtain ⟨k, hk, rfl⟩ := hstep
    exact hk.evaluates_iff.1 ih

theorem Reaches.measure_le (h : op.Reaches t u) : u.measure ≤ t.measure := by
  induction h with
  | refl => exact Nat.le_refl _
  | tail _ hstep ih =>
    obtain ⟨k, hk, rfl⟩ := hstep
    have hmeasure := hk.measure
    omega

theorem Reaches.length_leafSteps (h : op.Reaches t u) :
    u.leafSteps.length = t.leafSteps.length := by
  rw [Term.length_leafSteps, Term.length_leafSteps]
  induction h with
  | refl => rfl
  | tail _ hstep ih =>
    obtain ⟨k, hk, rfl⟩ := hstep
    exact hk.length_leaves.trans ih

theorem Reaches.of_sentence {e : Term} (h : op.Reaches (.sentence e) u) :
    ∃ e', u = .sentence e' ∧ op.Reaches e e' := by
  induction h with
  | refl => exact ⟨e, rfl, Reaches.refl e⟩
  | tail _ hstep ih =>
    obtain ⟨e', rfl, he⟩ := ih
    obtain ⟨k, hk, rfl⟩ := hstep
    cases hk with
    | expr hk => cases hk
    | body hk => exact ⟨_, rfl, he.tail ⟨_, hk, rfl⟩⟩

theorem Reaches.of_join {c : Connective} {l r : Term} (h : op.Reaches (.join c l r) u) :
    ∃ l' r', u = .join c l' r' ∧ op.Reaches l l' ∧ op.Reaches r r' := by
  induction h with
  | refl => exact ⟨l, r, rfl, Reaches.refl l, Reaches.refl r⟩
  | tail _ hstep ih =>
    obtain ⟨l', r', rfl, hl, hr⟩ := ih
    obtain ⟨k, hk, rfl⟩ := hstep
    cases hk with
    | expr hk => cases hk
    | left hk => exact ⟨_, r', rfl, hl.tail ⟨_, hk, rfl⟩, hr⟩
    | right hk => exact ⟨l', _, rfl, hl, hr.tail ⟨_, hk, rfl⟩⟩

/-! ## No two terms on the way have the same steps left -/

/-- A leaf has one contraction at most. -/
theorem Contracts.eq_of_not_isSentence (ht : t.isSentence = false) (h : op.Contracts t k)
    (h' : op.Contracts t k') : k = k' := by
  cases h with
  | expr h =>
    cases h' with
    | expr h' => rw [h] at h'; exact Except.ok.inj h'
    | body | left | right => cases ht
  | body | left | right => cases ht

theorem Contracts.not_isSentence (ht : t.isSentence = false) (h : op.Contracts t k) :
    k.after.isSentence = false := by
  cases h with
  | expr h => exact Term.isSentence_of_isNounShaped (isNounShaped_of_contractExpr h).2
  | body | left | right => cases ht

/-- A leaf goes a single way, and a place on it is known by the measure. -/
theorem Reaches.eq_of_measure (hu : op.Reaches t u) (hv : op.Reaches t v)
    (ht : t.isSentence = false) (h : u.measure = v.measure) : u = v := by
  induction hu using Relation.ReflTransGen.head_induction_on with
  | refl =>
    rcases reaches_iff.1 hv with rfl | ⟨k, hk, hv⟩
    · rfl
    · have hmeasure := hk.measure
      have hle := hv.measure_le
      omega
  | @head t t' hstep hu ih =>
    obtain ⟨k, hk, rfl⟩ := hstep
    rcases reaches_iff.1 hv with rfl | ⟨k', hk', hv⟩
    · have hmeasure := hk.measure
      have hle := Reaches.measure_le hu
      omega
    · rw [hk.eq_of_not_isSentence ht hk'] at ih
      exact ih hv (hk'.not_isSentence ht)

theorem Reaches.not_isSentence (ht : t.isSentence = false) (h : op.Reaches t u) :
    u.isSentence = false := by
  induction h with
  | refl => exact ht
  | tail _ hstep ih =>
    obtain ⟨k, hk, rfl⟩ := hstep
    exact hk.not_isSentence ih

theorem Reaches.eq_of_leafSteps_leaf (ht : t.isSentence = false) (hu : op.Reaches t u)
    (hv : op.Reaches t v) (h : u.leafSteps = v.leafSteps) : u = v := by
  rw [Term.leafSteps_of_not_isSentence (hu.not_isSentence ht),
    Term.leafSteps_of_not_isSentence (hv.not_isSentence ht)] at h
  have hpos := u.measure_pos
  have hpos' := v.measure_pos
  have hsteps := List.singleton_inj.1 h
  exact hu.eq_of_measure hv ht (by omega)

/-- **No two terms on the way have the same steps left at every leaf.** -/
theorem Reaches.eq_of_leafSteps (hu : op.Reaches t u) (hv : op.Reaches t v)
    (h : u.leafSteps = v.leafSteps) : u = v := by
  induction t using Term.induction generalizing u v with
  | noun | adj | chain | fusion => exact eq_of_leafSteps_leaf rfl hu hv h
  | sentence e ih =>
    obtain ⟨e', rfl, he'⟩ := hu.of_sentence
    obtain ⟨e'', rfl, he''⟩ := hv.of_sentence
    rw [Term.leafSteps_sentence, Term.leafSteps_sentence] at h
    rw [ih he' he'' h]
  | join c l r ihl ihr =>
    obtain ⟨l', r', rfl, hul, hur⟩ := hu.of_join
    obtain ⟨l'', r'', rfl, hvl, hvr⟩ := hv.of_join
    rw [Term.leafSteps_join, Term.leafSteps_join] at h
    obtain ⟨hl, hr⟩ := List.append_inj h (hul.length_leafSteps.trans hvl.length_leafSteps.symm)
    rw [ihl hul hvl hl, ihr hur hvr hr]

/-! ## Which steps are left on the way -/

theorem Reaches.leafSteps_below (h : op.Reaches t u) (ht : op.Evaluates t) :
    u.leafSteps ∈ Below t.leafSteps := by
  induction h with
  | refl => exact mem_below_self _
  | tail hreach hstep ih =>
    obtain ⟨k, hk, rfl⟩ := hstep
    exact below_trans (below_of_mem_decrements
      (leafSteps_of_contracts (Reaches.evaluates hreach ht) hk)) ih

/-- **Every combination of steps left is reached.** -/
theorem exists_reaches_of_below (ht : op.Evaluates t) {ks : List Nat}
    (h : ks ∈ Below t.leafSteps) : ∃ u, op.Reaches t u ∧ u.leafSteps = ks := by
  induction hm : t.measure using Nat.strongRecOn generalizing t with
  | ind m ih =>
    by_cases hks : ks = t.leafSteps
    · exact ⟨t, Reaches.refl t, hks.symm⟩
    · obtain ⟨vs, hvs, hbelow⟩ := exists_decrement h hks
      obtain ⟨cs, hcs, hsteps⟩ := contractAll_of_evaluates ht
      rw [← hsteps] at hvs
      obtain ⟨k, hk, rfl⟩ := List.mem_map.1 hvs
      have hcontracts := contracts_of_mem_contractAll hcs hk
      have hmeasure := hcontracts.measure
      obtain ⟨u, hu, hleaf⟩ := ih k.after.measure (by omega) (hcontracts.evaluates_iff.1 ht)
        hbelow rfl
      exact ⟨u, hu.head hcontracts, hleaf⟩

/-- **The terms on the way and the combinations of steps left are the same in number.** -/
theorem encard_reaches (ht : op.Evaluates t) :
    {u | op.Reaches t u}.encard = ((t.leafSteps.map (· + 1)).prod : Nat) := by
  have hinj : Set.InjOn Term.leafSteps {u | op.Reaches t u} :=
    fun u hu v hv h => Reaches.eq_of_leafSteps hu hv h
  have himage : Term.leafSteps '' {u | op.Reaches t u} = Below t.leafSteps := by
    ext ks
    constructor
    · rintro ⟨u, hu, rfl⟩
      exact Reaches.leafSteps_below hu ht
    · exact fun h => exists_reaches_of_below ht h
  rw [← hinj.encard_image, himage, encard_below]

end Operator

namespace Engine

variable {e : Engine} {t u : Term} {next ss : List Step} {s : Step}

/-! ## Runs -/

/-- The terms that runs lead to. -/
def reachable (e : Engine) (t : Term) : Set Term := {u | ∃ ss, e.Run t ss u}

/-- The runs that end where there is no step left. -/
def maximalRuns (e : Engine) (t : Term) : Set (List Step) :=
  {ss | ∃ u, e.Run t ss u ∧ e.successors u = .ok []}

theorem Run.reaches (h : e.Run t ss u) : e.operator.Reaches t u := by
  induction h with
  | nil t => exact Operator.Reaches.refl t
  | cons hnext hs _ ih =>
    obtain ⟨k, hk, rfl⟩ := contracts_of_mem_successors hnext hs
    exact ih.head hk

/-- All steps of a term that evaluates, by where they lead. -/
theorem successors_of_evaluates (h : e.operator.Evaluates t) :
    ∃ next, e.successors t = .ok next ∧
      next.map (·.after.leafSteps) = decrements t.leafSteps := by
  obtain ⟨ks, hks, hsteps⟩ := Operator.contractAll_of_evaluates h
  refine ⟨_, map_eq_ok_iff.2 ⟨ks, hks, rfl⟩, ?_⟩
  rw [List.map_map]
  exact hsteps

theorem exists_run (ht : e.operator.Evaluates t) (h : e.operator.Reaches t u) :
    ∃ ss, e.Run t ss u := by
  induction h using Relation.ReflTransGen.head_induction_on with
  | refl => exact ⟨[], .nil u⟩
  | head hstep _ ih =>
    obtain ⟨k, hk, rfl⟩ := hstep
    obtain ⟨ss, hss⟩ := ih (hk.evaluates_iff.1 ht)
    obtain ⟨ks, hks, _⟩ := Operator.contractAll_of_evaluates ht
    have hmem := Operator.mem_contractAll_of_contracts hk hks
    exact ⟨_, .cons (map_eq_ok_iff.2 ⟨ks, hks, rfl⟩) (List.mem_map_of_mem hmem) hss⟩

theorem reachable_eq (ht : e.operator.Evaluates t) :
    e.reachable t = {u | e.operator.Reaches t u} :=
  Set.ext fun _ => ⟨fun ⟨_, h⟩ => h.reaches, exists_run ht⟩

/-- **How many terms are reachable.** -/
theorem encard_reachable (ht : e.operator.Evaluates t) :
    (e.reachable t).encard = ((t.leafSteps.map (· + 1)).prod : Nat) := by
  rw [reachable_eq ht, Operator.encard_reaches ht]

/-! ## Normalization -/

/-- A term that normalizes evaluates, and what is terminal on any way is what it ends in, after as
many steps as are left. -/
theorem evaluates_of_normalize {trace : Trace} (h : e.normalize t = .ok trace) :
    e.operator.Evaluates t ∧ trace.steps.length = t.leafSteps.sum ∧
      ∀ u, e.operator.Reaches t u ∧ u.leafSteps.sum = 0 ↔ u = trace.final := by
  have ht : e.operator.Evaluates t :=
    ⟨_, Operator.bigStep_eq_of_ok (bigStep_of_normalize h).1 .leftmostFirst⟩
  have hend : ∀ u, e.operator.Reaches t u → u.leafSteps.sum = 0 → u = trace.final := by
    intro u hu hzero
    obtain ⟨ss, hrun⟩ := exists_run ht hu
    obtain ⟨_, next, hnext, _, hfinal⟩ := hrun.of_normalize rfl h
    obtain ⟨ks, hks, rfl⟩ := map_eq_ok_iff.1 hnext
    have hnil := (Operator.sum_leafSteps_eq_zero_iff (hu.evaluates ht) hks).1 hzero
    exact hfinal (by rw [hnil]; rfl)
  obtain ⟨ks, hbelow, hsum⟩ := exists_below_sum_eq_zero t.leafSteps
  obtain ⟨u, hu, rfl⟩ := Operator.exists_reaches_of_below ht hbelow
  obtain rfl := hend u hu hsum
  refine ⟨ht, ?_, fun v => ⟨fun hv => hend v hv.1 hv.2, ?_⟩⟩
  · have hmeasure := measure_of_normalize h
    have hleaves := hu.length_leafSteps
    have hstart := t.sum_leafSteps
    have hfinal := trace.final.sum_leafSteps
    rw [Term.length_leafSteps, Term.length_leafSteps] at hleaves
    omega
  · rintro rfl
    exact ⟨hu, hsum⟩

/-- **A term that evaluates normalizes** within as many steps as its leaves have left. -/
theorem exists_normalize_of_evaluates (ht : e.operator.Evaluates t)
    (hm : t.leafSteps.sum ≤ e.maxSteps) : ∃ trace, e.normalize t = .ok trace := by
  obtain ⟨r, hr⟩ : ∃ r, e.bigStep t = .ok r := by
    obtain ⟨r, hr⟩ := ht
    exact ⟨_, Operator.bigStep_eq_of_ok hr e.strategy⟩
  -- under a bound made for the events, which are the steps left
  obtain ⟨trace, htrace, hevents, _⟩ :=
    normalize_of_bigStep (e := ⟨e.operator, r.events.length, e.strategy⟩) hr (Nat.le_refl _)
  have hlength : r.events.length = t.leafSteps.sum := by
    rw [← hevents, Trace.events, List.length_map, (evaluates_of_normalize htrace).2.1]
  obtain ⟨trace', htrace', _⟩ := normalize_of_bigStep hr (hlength ▸ hm)
  exact ⟨trace', htrace'⟩

/-- Each leaf of a term that evaluates normalizes in as many steps as it has left. -/
theorem forall₂_normalize_leaf (ht : e.operator.Evaluates t) :
    List.Forall₂ (fun leaf n => ∃ trace, (Engine.mk e.operator n e.strategy).normalize leaf =
      .ok trace ∧ trace.steps.length = n) t.leafTerms t.leafSteps := by
  refine List.forall₂_map_right_iff.2 (List.forall₂_same.2 fun leaf hleaf => ?_)
  obtain ⟨r, hr⟩ := ht
  have hsteps := Term.leafSteps_of_not_isSentence (Term.isSentence_of_mem_leafTerms hleaf)
  have hsum : leaf.leafSteps.sum = leaf.measure - 1 := by rw [hsteps, List.sum_singleton]
  obtain ⟨trace, htrace⟩ := exists_normalize_of_evaluates
    (e := ⟨e.operator, leaf.measure - 1, e.strategy⟩) (Operator.bigStep_leaf_of_ok hr hleaf)
    (Nat.le_of_eq hsum)
  exact ⟨trace, htrace, (evaluates_of_normalize htrace).2.1.trans hsum⟩

/-! ## Maximal runs -/

theorem nil_mem_maximalRuns (h : e.successors t = .ok next) :
    [] ∈ e.maximalRuns t ↔ next = [] := by
  constructor
  · rintro ⟨u, hrun, hend⟩
    cases hrun
    rw [h] at hend
    exact Except.ok.inj hend
  · rintro rfl
    exact ⟨t, .nil t, h⟩

theorem cons_mem_maximalRuns (h : e.successors t = .ok next) :
    s :: ss ∈ e.maximalRuns t ↔ s ∈ next ∧ ss ∈ e.maximalRuns s.after := by
  constructor
  · rintro ⟨u, hrun, hend⟩
    obtain _ | ⟨hnext, hs, hrest⟩ := hrun
    rw [h] at hnext
    cases hnext
    exact ⟨hs, u, hrest, hend⟩
  · rintro ⟨hs, u, hrest, hend⟩
    exact ⟨u, .cons h hs hrest, hend⟩

/-- A number of runs that start with different steps. -/
theorem encard_first_step {next : List Step} (hnext : next.Nodup)
    (h : ∀ s ∈ next, (e.maximalRuns s.after).encard = (interleavings s.after.leafSteps : Nat)) :
    {l | ∃ s ∈ next, ∃ ss ∈ e.maximalRuns s.after, l = s :: ss}.encard =
      ((next.map fun s => interleavings s.after.leafSteps).sum : Nat) := by
  induction next with
  | nil => simp
  | cons s next ih =>
    obtain ⟨hs, hnext⟩ := List.nodup_cons.1 hnext
    have hsplit : {l | ∃ s' ∈ s :: next, ∃ ss ∈ e.maximalRuns s'.after, l = s' :: ss} =
        (s :: ·) '' e.maximalRuns s.after ∪
          {l | ∃ s' ∈ next, ∃ ss ∈ e.maximalRuns s'.after, l = s' :: ss} := by
      ext l
      simp [eq_comm]
    have hdisjoint : Disjoint ((s :: ·) '' e.maximalRuns s.after)
        {l | ∃ s' ∈ next, ∃ ss ∈ e.maximalRuns s'.after, l = s' :: ss} := by
      refine Set.disjoint_left.2 ?_
      rintro _ ⟨ss, _, rfl⟩ ⟨s', hs', ss', _, heq⟩
      exact hs ((List.cons.inj heq).1 ▸ hs')
    have hinj : Function.Injective (s :: · : List Step → List Step) :=
      fun _ _ heq => (List.cons.inj heq).2
    rw [hsplit, Set.encard_union_eq hdisjoint, hinj.encard_image, h s List.mem_cons_self,
      ih hnext fun s' hs' => h s' (List.mem_cons_of_mem s hs'), List.map_cons, List.sum_cons,
      Nat.cast_add]

/-- **How many runs there are to the end**: the orders in which the leaves can take their steps. -/
theorem encard_maximalRuns (ht : e.operator.Evaluates t) :
    (e.maximalRuns t).encard = (interleavings t.leafSteps : Nat) := by
  induction hm : t.measure using Nat.strongRecOn generalizing t with
  | ind m ih =>
    obtain ⟨next, hnext, hsteps⟩ := successors_of_evaluates ht
    rcases Nat.eq_zero_or_pos t.leafSteps.sum with hzero | hpos
    · have hnil : next = [] := by
        rw [decrements_eq_nil_iff.2 hzero] at hsteps
        exact List.map_eq_nil_iff.1 hsteps
      have hruns : e.maximalRuns t = {[]} := by
        ext ss
        cases ss with
        | nil => simp [nil_mem_maximalRuns hnext, hnil]
        | cons s ss => simp [cons_mem_maximalRuns hnext, hnil]
      rw [hruns, Set.encard_singleton, interleavings_of_sum_eq_zero hzero, Nat.cast_one]
    · have hne : next ≠ [] := by
        rintro rfl
        exact absurd (decrements_eq_nil_iff.1 hsteps.symm) (Nat.ne_of_gt hpos)
      have hruns : e.maximalRuns t =
          {l | ∃ s ∈ next, ∃ ss ∈ e.maximalRuns s.after, l = s :: ss} := by
        ext ss
        cases ss with
        | nil => simp [nil_mem_maximalRuns hnext, hne]
        | cons s ss => simp [cons_mem_maximalRuns hnext]
      have hnodup : next.Nodup := List.Nodup.of_map _ (hsteps ▸ nodup_decrements t.leafSteps)
      rw [hruns, encard_first_step hnodup, ← sum_interleavings hpos, ← hsteps, List.map_map]
      · rfl
      · intro s hs
        obtain ⟨k, hk, rfl⟩ := contracts_of_mem_successors hnext hs
        have hmeasure := hk.measure
        exact ih k.after.measure (by omega) (hk.evaluates_iff.1 ht) rfl

end Engine

end PrimeLanguage
