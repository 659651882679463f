import PrimeLanguage.Proofs.Reduction.Evaluation
import PrimeLanguage.Proofs.Reduction.Position

/-!
# One step and all steps

The engine has two searches for redexes: one stops at the first that its strategy comes to, the
other collects all of them.  Both are one computation on the leaves of the term that are chains or
fusions.

* `Term.openLeaves` — these leaves, from left to right;
* `Operator.contractLeaf` — the contraction of a leaf, inside the whole term;
* `Step.inside` — the step of a part, as a step of the whole.

`contractAll_eq_mapM` and `contract_eq_mapM` say what the searches do: the one contracts every open
leaf, the other the first of them in the order of the strategy.  Principal result:
`step_among_successors`.
-/

namespace PrimeLanguage

/-! ## Open leaves -/

namespace Term

/-- Chains and fusions, the terms that a rule contracts or fails on. -/
def isCompound : Term → Bool
  | .chain .. | .fusion _ => true
  | _ => false

/-- The leaves that are chains or fusions, from left to right. -/
def openLeaves (t : Term) : List Leaf := t.leaves.filter (·.term.isCompound)

theorem openLeaves_under (ps : List Position) (leaves : List Leaf) :
    (leaves.map (·.under ps)).filter (·.term.isCompound) =
      (leaves.filter (·.term.isCompound)).map (·.under ps) :=
  List.filter_map

theorem openLeaves_sentence (e : Term) :
    (Term.sentence e).openLeaves = e.openLeaves.map (·.under [.body]) :=
  openLeaves_under _ _

theorem openLeaves_join (c : Connective) (l r : Term) :
    (Term.join c l r).openLeaves =
      l.openLeaves.map (·.under [.left]) ++ r.openLeaves.map (·.under [.right]) := by
  rw [openLeaves, leaves, List.filter_append, openLeaves_under, openLeaves_under]
  rfl

/-- The way of a leaf leads to it. -/
theorem subterm?_of_mem_leaves {t : Term} {leaf : Leaf} (h : leaf ∈ t.leaves) :
    t.subterm? leaf.path = some leaf.term := by
  induction t using Term.induction generalizing leaf with
  | noun | adj | chain | fusion => rw [List.mem_singleton.1 h]; rfl
  | sentence e ih =>
    obtain ⟨leaf', h', rfl⟩ := List.mem_map.1 h
    exact ih h'
  | join c l r ihl ihr =>
    rcases List.mem_append.1 h with h | h
    · obtain ⟨leaf', h', rfl⟩ := List.mem_map.1 h
      exact ihl h'
    · obtain ⟨leaf', h', rfl⟩ := List.mem_map.1 h
      exact ihr h'

end Term

namespace Operator

variable {op : Operator} {strategy : Strategy} {t : Term}

/-! ## The two searches -/

/-- The contraction of a leaf, inside the whole term. -/
def contractLeaf (op : Operator) (t : Term) (leaf : Leaf) : Except Error Contraction :=
  (contractExpr op leaf.term).map (·.inside t leaf.path)

theorem contractLeaf_body (e : Term) (leaf : Leaf) :
    op.contractLeaf (.sentence e) (leaf.under [.body]) =
      (op.contractLeaf e leaf).map (·.inBody) := by
  simp only [contractLeaf, Leaf.term_under]
  cases contractExpr op leaf.term <;> rfl

theorem contractLeaf_left (c : Connective) (l r : Term) (leaf : Leaf) :
    op.contractLeaf (.join c l r) (leaf.under [.left]) =
      (op.contractLeaf l leaf).map (·.inLeft c r) := by
  simp only [contractLeaf, Leaf.term_under]
  cases contractExpr op leaf.term <;> rfl

theorem contractLeaf_right (c : Connective) (l r : Term) (leaf : Leaf) :
    op.contractLeaf (.join c l r) (leaf.under [.right]) =
      (op.contractLeaf r leaf).map (·.inRight c l) := by
  simp only [contractLeaf, Leaf.term_under]
  cases contractExpr op leaf.term <;> rfl

theorem contractAll_of_isCompound (h : t.isCompound = true) :
    contractAll op t = (contractExpr op t).map ([·]) := by
  cases t with
  | chain | fusion => rfl
  | noun | adj | sentence | join => cases h

/-- **The collecting search contracts every open leaf.** -/
theorem contractAll_eq_mapM (t : Term) :
    contractAll op t = t.openLeaves.mapM (op.contractLeaf t) := by
  induction t using Term.induction with
  | noun | adj => rfl
  | chain | fusion =>
    rw [contractAll_of_isCompound rfl]
    change _ = List.mapM (op.contractLeaf _) [⟨[], _⟩]
    rw [List.mapM_cons, contractLeaf]
    cases contractExpr op _ <;> rfl
  | sentence e ih =>
    rw [contractAll, ih, Term.openLeaves_sentence, mapM_map_of_comm (contractLeaf_body e)]
    rfl
  | join c l r ihl ihr =>
    rw [contractAll, ihl, ihr, Term.openLeaves_join, List.mapM_append,
      mapM_map_of_comm (contractLeaf_left c l r), mapM_map_of_comm (contractLeaf_right c l r)]
    cases l.openLeaves.mapM (op.contractLeaf l) with
    | error err => rfl
    | ok ls => cases r.openLeaves.mapM (op.contractLeaf r) <;> rfl

/-- **The search of a strategy contracts the first open leaf that it comes to.** -/
theorem contract_eq_mapM (t : Term) :
    contract op strategy t = (strategy.visit t.openLeaves).head?.mapM (op.contractLeaf t) := by
  induction t using Term.induction with
  | noun | adj => cases strategy <;> rfl
  | chain | fusion =>
    rw [contract, Term.openLeaves, Term.leaves_of_not_isSentence rfl]
    change _ = (strategy.visit [_]).head?.mapM _
    rw [Strategy.visit_singleton]
    change _ = (op.contractLeaf _ _).map some
    rw [contractLeaf]
    cases contractExpr op _ <;> rfl
  | sentence e ih =>
    rw [contract, ih, Term.openLeaves_sentence, Strategy.visit_map, List.head?_map,
      option_mapM_map_of_comm (contractLeaf_body e)]
    rfl
  | join c l r ihl ihr =>
    rw [Term.openLeaves_join]
    cases strategy with
    | leftmostFirst =>
      simp only [contract, ihl, ihr, Strategy.visit, List.head?_append, List.head?_map,
        option_mapM_or, option_mapM_map_of_comm (contractLeaf_left c l r),
        option_mapM_map_of_comm (contractLeaf_right c l r)]
      cases l.openLeaves.head?.mapM (op.contractLeaf l) with
      | error err => rfl
      | ok x => cases x <;> rfl
    | rightmostFirst =>
      simp only [contract, ihl, ihr, Strategy.visit, List.reverse_append, ← List.map_reverse,
        List.head?_append, List.head?_map, option_mapM_or,
        option_mapM_map_of_comm (contractLeaf_left c l r),
        option_mapM_map_of_comm (contractLeaf_right c l r)]
      cases r.openLeaves.reverse.head?.mapM (op.contractLeaf r) with
      | error err => rfl
      | ok x => cases x <;> rfl

/-- Where the collecting search succeeds, that of a strategy finds what comes first in its order. -/
theorem contract_of_contractAll {ks : List Contraction} (h : contractAll op t = .ok ks) :
    contract op strategy t = .ok (strategy.visit ks).head? := by
  rw [contractAll_eq_mapM, mapM_eq_ok_iff] at h
  rw [contract_eq_mapM]
  cases strategy with
  | leftmostFirst => exact option_mapM_head? h
  | rightmostFirst => exact option_mapM_head? (List.forall₂_reverse_iff.2 h)

/-- **Redexes differ in their ways and in the terms after them.** -/
theorem pairwise_ne_of_contractAll {ks : List Contraction} (h : contractAll op t = .ok ks) :
    ks.Pairwise fun k k' => k.path ≠ k'.path ∧ k.after ≠ k'.after := by
  induction t using Term.induction generalizing ks with
  | noun | adj => cases h; exact .nil
  | chain | fusion =>
    obtain ⟨k, _, rfl⟩ := map_eq_ok_iff.1 h
    exact List.pairwise_singleton _ k
  | sentence e ih =>
    obtain ⟨ks', hks', h⟩ := bind_eq_ok_iff.1 h
    cases h
    refine List.pairwise_map.2 ((ih hks').imp fun hne => ?_)
    simpa [Contraction.inBody] using hne
  | join c l r ihl ihr =>
    obtain ⟨ls, hls, h⟩ := bind_eq_ok_iff.1 h
    obtain ⟨rs, hrs, h⟩ := bind_eq_ok_iff.1 h
    cases h
    refine List.pairwise_append.2 ⟨?_, ?_, ?_⟩
    · refine List.pairwise_map.2 ((ihl hls).imp fun hne => ?_)
      simpa [Contraction.inLeft] using hne
    · refine List.pairwise_map.2 ((ihr hrs).imp fun hne => ?_)
      simpa [Contraction.inRight] using hne
    · intro k hk k' hk'
      obtain ⟨x, hx, rfl⟩ := List.mem_map.1 hk
      obtain ⟨y, hy, rfl⟩ := List.mem_map.1 hk'
      have hpath : (x.inLeft c r).path ≠ (y.inRight c l).path := by
        simp [Contraction.inLeft, Contraction.inRight]
      -- a contraction of the left part changes it, one of the right part does not
      have hmeasure := (contracts_of_mem_contractAll hls hx).measure
      refine ⟨hpath, fun hafter => ?_⟩
      have hl : x.after = l := (Term.join.inj hafter).2.1
      rw [hl] at hmeasure
      omega

/-! ## Errors -/

/-- A leaf that is no chain and no fusion has no redex. -/
theorem contractAll_leaf_of_not_isCompound {leaf : Leaf} (hleaf : leaf ∈ t.leaves)
    (h : leaf.term.isCompound = false) : contractAll op leaf.term = .ok [] := by
  have hterm := Term.isSentence_of_mem_leafTerms (List.mem_map_of_mem hleaf)
  cases hleaf : leaf.term with
  | noun | adj => rfl
  | chain | fusion => rw [hleaf] at h; cases h
  | sentence | join => rw [hleaf] at hterm; cases hterm

theorem isCompound_of_contractAll_error {leaf : Leaf} {err : Error} (hleaf : leaf ∈ t.leaves)
    (h : contractAll op leaf.term = .error err) : leaf.term.isCompound = true := by
  cases hterm : leaf.term.isCompound with
  | true => rfl
  | false => rw [contractAll_leaf_of_not_isCompound hleaf hterm] at h; cases h

/-- An open leaf fails inside the whole term as it does on its own. -/
theorem contractLeaf_eq_error_iff {leaf : Leaf} {err : Error} (h : leaf.term.isCompound = true) :
    op.contractLeaf t leaf = .error err ↔ contractAll op leaf.term = .error err := by
  rw [contractAll_of_isCompound h, contractLeaf, map_eq_error_iff, map_eq_error_iff]

/-- An open leaf contracts inside the whole term if it does on its own. -/
theorem exists_contractLeaf_iff {leaf : Leaf} (h : leaf.term.isCompound = true) :
    (∃ k, op.contractLeaf t leaf = .ok k) ↔ ∃ ks, contractAll op leaf.term = .ok ks := by
  rw [contractAll_of_isCompound h]
  exact exists_map_eq_ok_iff.trans exists_map_eq_ok_iff.symm

/-- **The collecting search fails as the leftmost failing leaf does on its own.** -/
theorem contractAll_eq_error_iff {err : Error} :
    contractAll op t = .error err ↔ ∃ before leaf after, t.leaves = before ++ leaf :: after ∧
      (∀ l ∈ before, ∃ ks, contractAll op l.term = .ok ks) ∧
      contractAll op leaf.term = .error err := by
  rw [contractAll_eq_mapM, mapM_eq_error_iff]
  constructor
  · rintro ⟨before, leaf, after, hopen, hbefore, hleaf⟩
    obtain ⟨ls, rest, hleaves, rfl, hrest⟩ := List.filter_eq_append_iff.1 hopen
    obtain ⟨ls', after', rfl, hclosed, hcompound, _⟩ := List.filter_eq_cons_iff.1 hrest
    refine ⟨ls ++ ls', leaf, after', by rw [hleaves, List.append_assoc], fun l hl => ?_,
      (contractLeaf_eq_error_iff hcompound).1 hleaf⟩
    cases hl' : l.term.isCompound with
    | false =>
      have hmem : l ∈ t.leaves := by
        rw [hleaves, ← List.append_assoc]
        exact List.mem_append_left _ hl
      exact ⟨[], contractAll_leaf_of_not_isCompound hmem hl'⟩
    | true =>
      have hmem : l ∈ ls := (List.mem_append.1 hl).resolve_right fun h => hclosed l h hl'
      exact (exists_contractLeaf_iff hl').1 (hbefore l (List.mem_filter.2 ⟨hmem, hl'⟩))
  · rintro ⟨before, leaf, after, hleaves, hbefore, hleaf⟩
    have hmem : leaf ∈ t.leaves := by
      rw [hleaves]
      exact List.mem_append_right _ List.mem_cons_self
    have hcompound := isCompound_of_contractAll_error hmem hleaf
    have hopen : t.openLeaves = before.filter (·.term.isCompound) ++
        leaf :: after.filter (·.term.isCompound) := by
      simp only [Term.openLeaves, hleaves, List.filter_append, List.filter_cons, hcompound,
        if_true]
    refine ⟨_, leaf, _, hopen, fun l hl => ?_, (contractLeaf_eq_error_iff hcompound).2 hleaf⟩
    obtain ⟨hmem, hl'⟩ := List.mem_filter.1 hl
    exact (exists_contractLeaf_iff hl').2 (hbefore l hmem)

/-- What the search from the left fails with, the collecting search fails with too. -/
theorem contractAll_of_contract_error {err : Error}
    (h : contract op .leftmostFirst t = .error err) : contractAll op t = .error err := by
  rw [contract_eq_mapM, Strategy.visit] at h
  rw [contractAll_eq_mapM, mapM_eq_error_iff]
  cases hopen : t.openLeaves with
  | nil => rw [hopen] at h; cases h
  | cons leaf leaves =>
    rw [hopen] at h
    exact ⟨[], leaf, leaves, rfl, List.forall_mem_nil _, map_eq_error_iff.1 h⟩

end Operator

/-- The step of what stands at the end of a way, as a step of the whole term. -/
def Step.inside (t : Term) (ps : List Position) (s : Step) : Step :=
  ⟨t, t.replaceAt ps s.after, ps ++ s.path, s.details⟩

namespace Engine

variable {e : Engine} {t : Term} {next : List Step}

/-- **Every open leaf has one step, which is a step of the whole term**; and these are all steps. -/
theorem forall₂_openLeaves (h : e.successors t = .ok next) :
    List.Forall₂ (fun leaf s => t.subterm? leaf.path = some leaf.term ∧
      ∃ s', e.successors leaf.term = .ok [s'] ∧ s = s'.inside t leaf.path) t.openLeaves next := by
  obtain ⟨ks, hks, rfl⟩ := map_eq_ok_iff.1 h
  rw [Operator.contractAll_eq_mapM, mapM_eq_ok_iff] at hks
  have hopen : ∀ leaf ∈ t.openLeaves, leaf ∈ t.leaves ∧ leaf.term.isCompound = true :=
    fun leaf hleaf => List.mem_filter.1 hleaf
  refine List.forall₂_map_right_iff.2 (((List.forall₂_and_left _ _).2 ⟨hopen, hks⟩).imp ?_)
  rintro leaf k ⟨⟨hleaf, hcompound⟩, hk⟩
  obtain ⟨k', hk', rfl⟩ := map_eq_ok_iff.1 hk
  refine ⟨Term.subterm?_of_mem_leaves hleaf, k'.stepFrom leaf.term, ?_, rfl⟩
  rw [successors, Operator.contractAll_of_isCompound hcompound, hk']
  rfl

theorem step_of_successors (h : e.successors t = .ok next) :
    e.step t = .ok (e.strategy.visit next).head? := by
  obtain ⟨ks, hks, rfl⟩ := map_eq_ok_iff.1 h
  rw [step, Operator.contract_of_contractAll hks, Strategy.visit_map, List.head?_map]
  rfl

/-- A step that fails is among all steps: they fail, too. -/
theorem successors_of_step_error {err : Error} (h : e.step t = .error err) :
    ∃ err', e.successors t = .error err' ∧ (e.strategy = .leftmostFirst → err' = err) := by
  cases hnext : e.successors t with
  | ok next => rw [step_of_successors hnext] at h; cases h
  | error err' =>
    refine ⟨err', rfl, fun hleft => ?_⟩
    have hcontract : contract e.operator .leftmostFirst t = .error err := by
      rw [← hleft]
      exact map_eq_error_iff.1 h
    have hall := Operator.contractAll_of_contract_error hcontract
    rw [map_eq_error_iff.1 hnext] at hall
    exact Except.error.inj hall

end Engine

/-- **One step and all steps agree.**  Where all steps are found, there is one for each leaf of the
term that is a chain or fusion, from left to right: the one step that the leaf has on its own, taken
inside the whole term.  No two of them have the same way or lead to the same term.  The engine's
step is the first or the last of them, as its strategy goes from the left or from the right.  They
are not found exactly where a leaf fails on its own, and the error is that of the leftmost such
leaf.  Where the engine's step fails they are not found either. -/
theorem step_among_successors (e : Engine) (t : Term) :
    (∀ next, e.successors t = .ok next →
      List.Forall₂ (fun leaf s => t.subterm? leaf.path = some leaf.term ∧
        ∃ s', e.successors leaf.term = .ok [s'] ∧ s = s'.inside t leaf.path)
        t.openLeaves next ∧
      (next.map (·.path)).Nodup ∧ (next.map (·.after)).Nodup ∧
      e.step t = .ok (match e.strategy with
        | .leftmostFirst => next.head?
        | .rightmostFirst => next.getLast?)) ∧
    (∀ err, e.successors t = .error err ↔
      ∃ before leaf after, t.leaves = before ++ leaf :: after ∧
        (∀ l ∈ before, ∃ next, e.successors l.term = .ok next) ∧
        e.successors leaf.term = .error err) ∧
    ∀ err, e.step t = .error err →
      ∃ err', e.successors t = .error err' ∧ (e.strategy = .leftmostFirst → err' = err) := by
  refine ⟨fun next hnext => ?_, fun err => ?_, fun err => Engine.successors_of_step_error⟩
  · obtain ⟨ks, hks, hkeep⟩ := map_eq_ok_iff.1 hnext
    have hne := Operator.pairwise_ne_of_contractAll hks
    refine ⟨Engine.forall₂_openLeaves hnext, ?_, ?_, ?_⟩
    · rw [← hkeep, List.map_map]
      exact List.pairwise_map.2 (hne.imp And.left)
    · rw [← hkeep, List.map_map]
      exact List.pairwise_map.2 (hne.imp And.right)
    · rw [Engine.step_of_successors hnext]
      cases e.strategy with
      | leftmostFirst => rfl
      | rightmostFirst => exact congrArg Except.ok List.head?_reverse
  · simp only [Engine.successors, map_eq_error_iff, exists_map_eq_ok_iff]
    exact Operator.contractAll_eq_error_iff

namespace OverlappingRedexes

/-- An adjective over a noun, next to a fusion and a noun. -/
def beside : Term :=
  .join .imp (sentenceOver [p3] (.noun p5)) (.join .seq (.sentence fusion19) (.sentence (.noun p2)))

end OverlappingRedexes

open OverlappingRedexes in
/-- Two of three leaves are open, and the step from the right is that of the second one; and a term
whose right leaf is refused. -/
theorem step_among_successors_beside :
    (∃ next, (Engine.mk .identity 2 .rightmostFirst).successors beside = .ok next ∧
      next.length = 2 ∧ (next.map (·.path)).Nodup ∧ (next.map (·.after)).Nodup ∧
      (Engine.mk .identity 2 .rightmostFirst).step beside = .ok next.getLast?) ∧
    (∃ before leaf after, nestedThenBroken.leaves = before ++ leaf :: after ∧
      (∀ l ∈ before, ∃ next, (Engine.mk .identity 2 .rightmostFirst).successors l.term = .ok next) ∧
      (Engine.mk .identity 2 .rightmostFirst).successors leaf.term =
        .error (shapeMismatch .adj (.noun p5))) ∧
    ∃ err, (Engine.mk .identity 2 .rightmostFirst).successors nestedThenBroken = .error err := by
  have hnext : ∃ next, (Engine.mk .identity 2 .rightmostFirst).successors beside = .ok next ∧
      next.length = 2 := ⟨_, rfl, rfl⟩
  have hrefused : (Engine.mk .identity 2 .rightmostFirst).successors nestedThenBroken =
      .error (shapeMismatch .adj (.noun p5)) := by rfl
  have hstep : (Engine.mk .identity 2 .rightmostFirst).step nestedThenBroken =
      .error (shapeMismatch .adj (.noun p5)) := by rfl
  obtain ⟨hall, _⟩ := step_among_successors (Engine.mk .identity 2 .rightmostFirst) beside
  obtain ⟨_, hleaf, herror⟩ :=
    step_among_successors (Engine.mk .identity 2 .rightmostFirst) nestedThenBroken
  obtain ⟨next, hsuccessors, hlength⟩ := hnext
  obtain ⟨_, hpaths, hafters, hlast⟩ := hall next hsuccessors
  obtain ⟨err, herr, _⟩ := herror _ hstep
  exact ⟨⟨next, hsuccessors, hlength, hpaths, hafters, hlast⟩, (hleaf _).1 hrefused, err, herr⟩

end PrimeLanguage
