import PrimeLanguage.Proofs.Reduction.Report
import PrimeLanguage.Proofs.Semantics.Agreement

/-!
# The room for exploration

`Engine.explore` compares with `maxExplored` the terms that are explored to the end.  A term on the
current way is not among them, and the way to the last new term is as long as the last leaf that has
steps has left: every other way branches off it to the left and is explored before.  So as many more
terms fit as that leaf has steps.

* `Operator.unmoved` — the terms on the last way: no leaf before the last one has moved;
* `Operator.moved` — all others.

`exists_explore_unmoved` explores along the last way if the others fit, and `error_of_moved` says that
the exploration fails if they do not.

Principal result: `confluence_budget`.
-/

namespace PrimeLanguage

open Countdown

namespace Operator

variable {op : Operator} {t u v : Term} {as bs ws : List Nat} {k : Contraction}

/-! ## The last way -/

/-- The reachable terms in which the first leaves still have the steps `as` left. -/
def unmoved (op : Operator) (t : Term) (as : List Nat) : Set Term :=
  {u | op.Reaches t u ∧ as <+: u.leafSteps}

/-- The reachable terms in which one of the first leaves has moved. -/
def moved (op : Operator) (t : Term) (as : List Nat) : Set Term :=
  {u | op.Reaches t u ∧ ¬ as <+: u.leafSteps}

theorem encard_unmoved (ht : op.Evaluates t) (h : t.leafSteps = as ++ bs) :
    (op.unmoved t as).encard = ((bs.map (· + 1)).prod : Nat) := by
  have hinj : Set.InjOn Term.leafSteps (op.unmoved t as) :=
    fun u hu v hv heq => Reaches.eq_of_leafSteps hu.1 hv.1 heq
  have himage : Term.leafSteps '' op.unmoved t as = (as ++ ·) '' Below bs := by
    ext us
    constructor
    · rintro ⟨u, ⟨hu, ws, hws⟩, rfl⟩
      have hbelow := hu.leafSteps_below ht
      rw [h, ← hws] at hbelow
      have hdrop := List.forall₂_drop_append _ _ _ hbelow
      rw [List.drop_left] at hdrop
      exact ⟨ws, hdrop, hws⟩
    · rintro ⟨ws, hws, rfl⟩
      have hbelow : as ++ ws ∈ Below t.leafSteps :=
        h ▸ mem_below_append.2 ⟨as, mem_below_self as, ws, hws, rfl⟩
      obtain ⟨u, hu, hleaf⟩ := exists_reaches_of_below ht hbelow
      exact ⟨u, ⟨hu, ws, hleaf.symm⟩, hleaf⟩
  rw [← hinj.encard_image, himage, (List.append_right_injective as).encard_image, encard_below]

/-- The last way and the rest are all there is. -/
theorem encard_moved_add_encard_unmoved (op : Operator) (t : Term) (as : List Nat) :
    (op.moved t as).encard + (op.unmoved t as).encard = {u | op.Reaches t u}.encard := by
  have hdisjoint : Disjoint (op.moved t as) (op.unmoved t as) :=
    Set.disjoint_left.2 fun _ hu hu' => hu.2 hu'.2
  rw [← Set.encard_union_eq hdisjoint]
  congr 1
  ext u
  by_cases has : as <+: u.leafSteps <;> simp [moved, unmoved, has]

/-- **The contractions of an unmoved term**: first those that move one of the first leaves, then
those that do not. -/
theorem contractAll_append (hu : op.Evaluates u) (h : u.leafSteps = as ++ ws) :
    ∃ pre post, contractAll op u = .ok (pre ++ post) ∧
      pre.map (·.after.leafSteps) = (decrements as).map (· ++ ws) ∧
      post.map (·.after.leafSteps) = (decrements ws).map (as ++ ·) := by
  obtain ⟨ks, hks, hsteps⟩ := contractAll_of_evaluates hu
  rw [h, decrements_append, List.map_eq_append_iff] at hsteps
  obtain ⟨pre, post, rfl, hpre, hpost⟩ := hsteps
  exact ⟨pre, post, hks, hpre, hpost⟩

/-- A moved leaf never has all its steps again. -/
theorem reaches_subset_moved (ht : op.Evaluates t) (hk : op.Reaches t k.after)
    (h : k.after.leafSteps ∈ (decrements as).map (· ++ ws)) :
    {v | op.Reaches k.after v} ⊆ op.moved t as := by
  intro v hv
  refine ⟨hk.trans hv, ?_⟩
  rintro ⟨us, hus⟩
  obtain ⟨as', has', hsteps⟩ := List.mem_map.1 h
  have hlength : as.length = as'.length := ((below_of_mem_decrements has').length_eq).symm
  have hbelow := Reaches.leafSteps_below hv (hk.evaluates ht)
  rw [← hus, ← hsteps] at hbelow
  have htake := List.forall₂_take_append _ _ _ hbelow
  rw [← hlength, List.take_left] at htake
  exact not_below_of_mem_decrements has' htake

/-- **Every moved term is behind a first contraction that moves it.** -/
theorem exists_reaches_of_moved (ht : op.Evaluates t) (h : t.leafSteps = as ++ ws)
    {pre : List Contraction} (hpre : ∀ k ∈ pre, op.Contracts t k)
    (hsteps : pre.map (·.after.leafSteps) = (decrements as).map (· ++ ws))
    (hv : v ∈ op.moved t as) : ∃ k ∈ pre, op.Reaches k.after v := by
  obtain ⟨hreach, hmoved⟩ := hv
  have hbelow := hreach.leafSteps_below ht
  rw [h] at hbelow
  obtain ⟨as', has', ws', hws', hleaf⟩ := mem_below_append.1 hbelow
  have hne : as' ≠ as := by
    rintro rfl
    exact hmoved ⟨ws', hleaf.symm⟩
  obtain ⟨vs, hvs, hbelow'⟩ := exists_decrement has' hne
  have hmem : vs ++ ws ∈ pre.map (·.after.leafSteps) := hsteps ▸ List.mem_map_of_mem hvs
  obtain ⟨k, hk, hkleaf⟩ := List.mem_map.1 hmem
  have hcontracts := hpre k hk
  have hlow : v.leafSteps ∈ Below k.after.leafSteps := by
    rw [hkleaf, hleaf]
    exact mem_below_append.2 ⟨as', hbelow', ws', hws', rfl⟩
  obtain ⟨u, hu, huleaf⟩ := exists_reaches_of_below (hcontracts.evaluates_iff.1 ht) hlow
  obtain rfl := Reaches.eq_of_leafSteps (hu.head hcontracts) hreach huleaf
  exact ⟨k, hk, hu⟩

/-- How many terms do not lie on the last way, if it is that of the last leaf with steps left. -/
theorem exists_encard_moved (ht : op.Evaluates t) (hsum : t.leafSteps.sum ≠ 0) :
    ∃ as k zs n, t.leafSteps = as ++ (k + 1) :: zs ∧ zs.sum = 0 ∧
      lastCount t.leafSteps = k + 1 ∧ (op.moved t as).encard = (n : Nat) ∧
      {u | op.Reaches t u}.encard = (n + (k + 1) + 1 : Nat) := by
  obtain ⟨as, k, zs, hleaf, hzs, hlast⟩ := exists_split_last hsum
  have hall := op.encard_moved_add_encard_unmoved t as
  have hprod : (((k + 1) :: zs).map (· + 1)).prod = k + 1 + 1 := by
    rw [List.map_cons, List.prod_cons, prod_succ_of_sum_eq_zero hzs, Nat.mul_one]
  rw [encard_unmoved ht hleaf, hprod] at hall
  have hfinite : (op.moved t as).encard ≠ ⊤ := by
    intro htop
    rw [htop, top_add, encard_reaches ht] at hall
    exact ENat.natCast_ne_top _ hall.symm
  obtain ⟨n, hn⟩ := ENat.ne_top_iff_exists.1 hfinite
  refine ⟨as, k, zs, n, hleaf, hzs, hlast, hn.symm, ?_⟩
  rw [← hall, ← hn]
  exact_mod_cast rfl

end Operator

namespace Engine

variable {e : Engine} {t u : Term} {x : Exploration} {as ws zs : List Nat}

/-! ## Exploring along the last way -/

/-- Contractions that move one of the first leaves are explored among the moved terms. -/
theorem exists_foldlM_moved (ht : e.operator.Evaluates t)
    (hroom : (e.operator.moved t as).encard ≤ maxExplored) (hu : e.operator.Reaches t u)
    {pre : List Contraction} (hpre : ∀ k ∈ pre, e.operator.Contracts u k)
    (hsteps : pre.map (·.after.leafSteps) = (decrements as).map (· ++ ws))
    (hx : x.Exact e.operator) (hxB : x.explored ⊆ e.operator.moved t as) :
    ∃ n y, pre.foldlM e.visit (0, x) = .ok (n, y) ∧ y.Exact e.operator ∧
      y.explored ⊆ e.operator.moved t as := by
  have hreach : ∀ k ∈ pre, e.operator.Reaches t k.after := fun k hk =>
    hu.tail ⟨k, hpre k hk, rfl⟩
  have hbelow : ∀ k ∈ pre, {v | e.operator.Reaches k.after v} ⊆ e.operator.moved t as :=
    fun k hk => Operator.reaches_subset_moved ht (hreach k hk)
      (hsteps ▸ List.mem_map_of_mem hk)
  obtain ⟨n, y, hy⟩ := exists_foldlM
    (fun k hk => exploresWithin hroom ((hreach k hk).evaluates ht) (hbelow k hk)) hbelow hx hxB 0
  obtain ⟨hadds, -⟩ := adds_of_foldlM (fun k _ => e.exploresExactly k.after) hx hy
  exact ⟨n, y, hy, hadds.exact, hadds.subset hxB (List.forall_mem_map.2 hbelow)⟩

/-- **The last way is explored if the other terms fit**: the terms on it are not counted before all
of them are explored. -/
theorem exists_explore_unmoved (ht : e.operator.Evaluates t) (hzs : zs.sum = 0)
    (hroom : (e.operator.moved t as).encard < maxExplored) {n : Nat}
    (hu : e.operator.Reaches t u) (h : u.leafSteps = as ++ n :: zs) (hx : x.Exact e.operator)
    (hxB : x.explored ⊆ e.operator.moved t as) : ∃ m y, e.explore u x = .ok (m, y) := by
  induction n using Nat.strongRecOn generalizing u x with
  | ind n ih =>
    have hnew : u ∉ x.explored := fun hmem => (hxB hmem).2 ⟨_, h.symm⟩
    have hsize : x.paths.size < maxExplored := by
      have hlt := (Set.encard_le_encard hxB).trans_lt hroom
      rw [Exploration.encard_explored] at hlt
      exact_mod_cast hlt
    obtain ⟨pre, post, hks, hpre, hpost⟩ := Operator.contractAll_append (hu.evaluates ht) h
    have hcontracts : ∀ k ∈ pre ++ post, e.operator.Contracts u k := fun k hk =>
      Operator.contracts_of_mem_contractAll hks hk
    obtain ⟨m, y, hfold, hy, hyB⟩ := exists_foldlM_moved ht hroom.le hu
      (fun k hk => hcontracts k (List.mem_append_left post hk)) hpre hx hxB
    rw [exists_explore_iff hnew hsize hks, List.foldlM_append, hfold]
    -- what is left of the loop is at most one step further on the last way
    change ∃ m' z, post.foldlM e.visit (m, y) = .ok (m', z)
    rcases decrements_cons_of_sum_eq_zero hzs n with hnone | ⟨n', rfl, hone⟩
    · rw [hnone, List.map_nil, List.map_eq_nil_iff] at hpost
      subst hpost
      exact ⟨m, y, rfl⟩
    · rw [hone, List.map_singleton, List.map_eq_singleton_iff] at hpost
      obtain ⟨k, rfl, hk⟩ := hpost
      have hstep := hcontracts k (List.mem_append_right pre (List.mem_singleton_self k))
      obtain ⟨m', z, hz⟩ := ih n' (Nat.lt_succ_self n') (hu.tail ⟨k, hstep, rfl⟩) hk hy hyB
      exact ⟨_, z, bind_eq_ok_iff.2 ⟨_, map_eq_ok_iff.2 ⟨_, hz, rfl⟩, rfl⟩⟩

/-- The contractions that move one of the first leaves explore all moved terms. -/
theorem explored_of_foldlM_moved (ht : e.operator.Evaluates t) (h : t.leafSteps = as ++ ws)
    {pre : List Contraction} (hpre : ∀ k ∈ pre, e.operator.Contracts t k)
    (hsteps : pre.map (·.after.leafSteps) = (decrements as).map (· ++ ws)) {n : Nat}
    {y : Exploration} (hy : pre.foldlM e.visit (0, .empty) = .ok (n, y)) :
    y.explored = e.operator.moved t as := by
  obtain ⟨hadds, -⟩ :=
    adds_of_foldlM (fun k _ => e.exploresExactly k.after) (.empty e.operator) hy
  ext v
  rw [hadds.mem_iff, Exploration.explored_empty]
  constructor
  · rintro (hv | ⟨_, hmem, hv⟩)
    · cases hv
    · obtain ⟨k, hk, rfl⟩ := List.mem_map.1 hmem
      exact Operator.reaches_subset_moved ht (Operator.Reaches.head (hpre k hk) (.refl _))
        (hsteps ▸ List.mem_map_of_mem hk) hv
  · intro hv
    obtain ⟨k, hk, hreach⟩ := Operator.exists_reaches_of_moved ht h hpre hsteps hv
    exact Or.inr ⟨k.after, List.mem_map_of_mem hk, hreach⟩

/-- **The exploration fails if the terms off the last way do not fit**: the first step of that way
comes after all of them. -/
theorem error_of_moved (ht : e.operator.Evaluates t) {n : Nat}
    (h : t.leafSteps = as ++ (n + 1) :: zs)
    (hfull : maxExplored ≤ (e.operator.moved t as).encard) :
    ∃ err, e.explore t .empty = .error err := by
  obtain ⟨pre, post, hks, hpre, hpost⟩ := Operator.contractAll_append ht h
  rw [decrements_succ_cons, List.map_cons, List.map_eq_cons_iff] at hpost
  obtain ⟨k, rest, rfl, hk, -⟩ := hpost
  have hcontracts : ∀ k' ∈ pre, e.operator.Contracts t k' := fun k' hk' =>
    Operator.contracts_of_mem_contractAll hks (List.mem_append_left _ hk')
  cases hexplore : e.explore t .empty with
  | error err => exact ⟨err, rfl⟩
  | ok p =>
    obtain ⟨_, _, hfold⟩ := (exists_explore_iff (by simp) (by decide) hks).1 ⟨_, _, hexplore⟩
    rw [List.foldlM_append] at hfold
    obtain ⟨⟨m, y⟩, hy, hfold⟩ := bind_eq_ok_iff.1 hfold
    rw [List.foldlM_cons] at hfold
    obtain ⟨_, hvisit, -⟩ := bind_eq_ok_iff.1 hfold
    obtain ⟨_, hlast, -⟩ := map_eq_ok_iff.1 hvisit
    have hexplored := explored_of_foldlM_moved ht h hcontracts hpre hy
    have hsize : maxExplored ≤ y.paths.size := by
      rw [← hexplored, Exploration.encard_explored] at hfull
      exact_mod_cast hfull
    have hnew : k.after ∉ y.explored := fun hmem => by
      rw [hexplored] at hmem
      exact hmem.2 ⟨_, hk.symm⟩
    rw [explore_of_full hnew hsize] at hlast
    cases hlast

/-! ## When the check gives up -/

theorem nonTermination_of_explore_error (ht : e.operator.Evaluates t) {err : Error}
    (h : e.explore t .empty = .error err) : ∃ u, err = .nonTermination maxExplored u := by
  obtain ⟨u, hu, herr | herr⟩ := error_of_explore h
  · exact ⟨u, herr⟩
  · obtain ⟨ks, hks, _⟩ := Operator.contractAll_of_evaluates (hu.evaluates ht)
    rw [hks] at herr
    cases herr

theorem confluence_of_room (ht : e.operator.Evaluates t)
    (h : (e.reachable t).encard ≤ (maxExplored + lastCount t.leafSteps : Nat)) :
    ∃ report, e.confluence t = .ok report := by
  rw [reachable_eq ht] at h
  by_cases hsum : t.leafSteps.sum = 0
  · refine exists_confluence ht ?_
    rw [prod_succ_of_sum_eq_zero hsum]
    decide
  · obtain ⟨as, k, zs, n, hleaf, hzs, hlast, hmoved, hall⟩ :=
      Operator.exists_encard_moved ht hsum
    rw [hall, hlast] at h
    have hle : n + (k + 1) + 1 ≤ maxExplored + (k + 1) := by exact_mod_cast h
    have hroom : (e.operator.moved t as).encard < maxExplored := by
      rw [hmoved]
      exact_mod_cast (by omega : n < maxExplored)
    obtain ⟨_, _, hexplore⟩ := exists_explore_unmoved ht hzs hroom (.refl t) hleaf
      (.empty e.operator) (by simp)
    obtain ⟨u, hu, _⟩ := confluence_of_explore hexplore
    exact ⟨_, hu⟩

theorem confluence_of_no_room (ht : e.operator.Evaluates t)
    (h : ((maxExplored + lastCount t.leafSteps : Nat) : ℕ∞) < (e.reachable t).encard) :
    ∃ u, e.confluence t = .error (.nonTermination maxExplored u) := by
  have hsum : t.leafSteps.sum ≠ 0 := by
    intro hzero
    rw [encard_reachable ht, prod_succ_of_sum_eq_zero hzero, lastCount_of_sum_eq_zero hzero] at h
    exact absurd h (by decide)
  obtain ⟨as, k, zs, n, hleaf, -, hlast, hmoved, hall⟩ := Operator.exists_encard_moved ht hsum
  rw [reachable_eq ht, hall, hlast] at h
  have hlt : maxExplored + (k + 1) < n + (k + 1) + 1 := by exact_mod_cast h
  have hfull : (maxExplored : ℕ∞) ≤ (e.operator.moved t as).encard := by
    rw [hmoved]
    exact_mod_cast (by omega : maxExplored ≤ n)
  obtain ⟨err, herr⟩ := error_of_moved ht hleaf hfull
  obtain ⟨u, rfl⟩ := nonTermination_of_explore_error ht herr
  exact ⟨u, confluence_of_error herr⟩

end Engine

/-- **How many terms may be reachable.**  The check of a term that normalizes gives up exactly when
the reachable terms outnumber the ones that may be explored and the steps of the last leaf that has
any; otherwise it reports.  The terms along the steps of that leaf go uncounted, since a term is
recorded only after everything below it. -/
theorem confluence_budget (e : Engine) (t : Term)
    (h : ∃ m trace, (Engine.mk e.operator m e.strategy).normalize t = .ok trace) :
    ((∃ u, e.confluence t = .error (.nonTermination maxExplored u)) ↔
      ((maxExplored + lastCount t.leafSteps : Nat) : ℕ∞) < (e.reachable t).encard) ∧
    ((e.reachable t).encard ≤ (maxExplored + lastCount t.leafSteps : Nat) →
      ∃ report, e.confluence t = .ok report) := by
  obtain ⟨m, trace, htrace⟩ := h
  have ht : e.operator.Evaluates t := (Engine.evaluates_of_normalize htrace).1
  refine ⟨⟨?_, Engine.confluence_of_no_room ht⟩, Engine.confluence_of_room ht⟩
  rintro ⟨u, hu⟩
  by_contra hroom
  obtain ⟨report, hreport⟩ := Engine.confluence_of_room ht (not_lt.1 hroom)
  rw [hreport] at hu
  cases hu

/-! ## Two chains side by side -/

open Semantics OverlappingRedexes

theorem evaluates_identityChain (ps : List Prime) (q : Prime) :
    Operator.identity.Evaluates (identityChain ps q) := by
  obtain ⟨trace, htrace, _⟩ := normalize_identityChain
    (e := ⟨.identity, ps.length, .leftmostFirst⟩) rfl ps q (Nat.le_refl _)
  exact (Engine.evaluates_of_normalize htrace).1

theorem leafSteps_identityChain (ps : List Prime) (q : Prime) :
    (identityChain ps q).leafSteps = [ps.length] := by
  rw [identityChain, Term.leafSteps_of_not_isSentence
    (Term.isSentence_of_isNounShaped (Operator.isNounShaped_ofOperators _ q)), Term.measure,
    Term.weight_ofOperators, List.length_map]
  rfl

/-- Two sentences of `m` and of `n` adjectives over a noun. -/
def twoChains (m n : Nat) : Term :=
  .join .seq (.sentence (identityChain (List.replicate m p2) p3))
    (.sentence (identityChain (List.replicate n p2) p3))

theorem evaluates_twoChains (m n : Nat) : Operator.identity.Evaluates (twoChains m n) :=
  Operator.evaluates_join.2 ⟨Operator.evaluates_sentence.2 (evaluates_identityChain _ _),
    Operator.evaluates_sentence.2 (evaluates_identityChain _ _)⟩

theorem leafSteps_twoChains (m n : Nat) : (twoChains m n).leafSteps = [m, n] := by
  simp [twoChains, leafSteps_identityChain]

theorem encard_reachable_twoChains (m n k : Nat) :
    ((Engine.mk .identity k .leftmostFirst).reachable (twoChains m n)).encard =
      ((m + 1) * (n + 1) : Nat) := by
  rw [Engine.encard_reachable (evaluates_twoChains m n), leafSteps_twoChains]
  simp

/-- Room for one hundred terms more than may be explored, and no room for one more. -/
theorem confluence_budget_twoChains :
    (∃ report, (Engine.mk .identity 199 .leftmostFirst).confluence (twoChains 99 100) =
      .ok report) ∧
    ∃ u, (Engine.mk .identity 200 .leftmostFirst).confluence (twoChains 100 100) =
      .error (.nonTermination maxExplored u) := by
  have hnormalize : ∀ m n, ∃ trace,
      (Engine.mk .identity (m + n) .leftmostFirst).normalize (twoChains m n) = .ok trace :=
    fun m n => Engine.exists_normalize_of_evaluates (evaluates_twoChains m n)
      (by rw [leafSteps_twoChains]; simp)
  constructor
  · refine (confluence_budget (Engine.mk .identity 199 .leftmostFirst) (twoChains 99 100)
      ⟨199, hnormalize 99 100⟩).2 ?_
    rw [encard_reachable_twoChains, leafSteps_twoChains]
    exact Nat.cast_le.2 (by decide)
  · refine (confluence_budget (Engine.mk .identity 200 .leftmostFirst) (twoChains 100 100)
      ⟨200, hnormalize 100 100⟩).1.2 ?_
    rw [encard_reachable_twoChains, leafSteps_twoChains]
    exact Nat.cast_lt.2 (by decide)

/-- More terms are reachable than may be explored, and still the check reports. -/
theorem confluence_budget_exceeded :
    (∃ trace, (Engine.mk .identity 199 .leftmostFirst).normalize (twoChains 99 100) =
      .ok trace) ∧
    (maxExplored : ℕ∞) <
      ((Engine.mk .identity 199 .leftmostFirst).reachable (twoChains 99 100)).encard ∧
    ∃ report, (Engine.mk .identity 199 .leftmostFirst).confluence (twoChains 99 100) =
      .ok report ∧ report.states = 10100 := by
  have hstates := encard_reachable_twoChains 99 100 199
  obtain ⟨report, hreport⟩ := Engine.confluence_of_room
    (e := ⟨.identity, 199, .leftmostFirst⟩) (evaluates_twoChains 99 100) (by
      rw [hstates, leafSteps_twoChains]
      exact Nat.cast_le.2 (by decide))
  refine ⟨?_, ?_, report, hreport, ?_⟩
  · exact Engine.exists_normalize_of_evaluates (evaluates_twoChains 99 100)
      (by rw [leafSteps_twoChains]; decide)
  · rw [hstates]
    exact Nat.cast_lt.2 (by decide)
  · have hcount := (Engine.describes_of_confluence hreport).states
    rw [hstates] at hcount
    exact_mod_cast hcount.symm

end PrimeLanguage
