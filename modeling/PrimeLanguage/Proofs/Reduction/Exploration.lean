import PrimeLanguage.Proofs.Reduction.Progress

/-!
# Exploring the reduction graph

What `Engine.explore` knows after exploring a term is exactly the part of the reduction graph below
it.

* `Exploration.Exact` — everything recorded is true, and nothing below an explored term is missing;
* `Exploration.Adds` — an exploration after another one and after exploring some terms;
* `Engine.visit` — one turn of the loop over the contractions.

`explore_of_known`, `explore_of_full` and `explore_of_new` are the three ways an exploration of a
term can go.  `exploresExactly` says what a successful one adds, `error_of_explore` what an
unsuccessful one fails for, and `exploresWithin` that one with room for the graph succeeds.

`Engine.confluence` is an exploration from scratch: `explore_of_confluence` and
`explore_of_confluence_error` say so for its reports and its errors, and `exists_confluence` that it
reports on a graph that fits.
-/

namespace PrimeLanguage

open Countdown

theorem clampWord_add_clampWord (m n : Nat) :
    clampWord (clampWord m + clampWord n) = clampWord (m + n) := by
  simp only [clampWord]
  omega

namespace Exploration

variable {op : Operator} {x y z : Exploration} {t u v : Term} {ts us : List Term}

/-! ## What is recorded -/

/-- The explored terms. -/
def explored (x : Exploration) : Set Term := {u | u ∈ x.paths}

/-- The table has an entry for each explored term. -/
theorem encard_explored (x : Exploration) : x.explored.encard = (x.paths.size : Nat) := by
  have hkeys : x.explored = (x.paths.keys.toFinset : Set Term) := by
    ext u
    simp [explored]
  rw [hkeys, Set.encard_coe_eq_coe_finsetCard, List.toFinset_card_of_nodup x.paths.nodup_keys,
    Std.HashMap.length_keys]

@[simp] theorem explored_empty : Exploration.empty.explored = ∅ :=
  Set.eq_empty_iff_forall_notMem.2 fun _ => Std.HashMap.not_mem_empty

@[simp] theorem mem_explored_addTerminal :
    u ∈ (x.addTerminal t).explored ↔ u = t ∨ u ∈ x.explored :=
  Std.HashMap.mem_insert.trans (or_congr_left (beq_iff_eq.trans eq_comm))

@[simp] theorem mem_explored_addPaths {n : Nat} :
    u ∈ (x.addPaths t n).explored ↔ u = t ∨ u ∈ x.explored :=
  Std.HashMap.mem_insert.trans (or_congr_left (beq_iff_eq.trans eq_comm))

/-- What is recorded of the explored terms is true, and no term below one of them is missing. -/
structure Exact (op : Operator) (x : Exploration) : Prop where
  evaluates : ∀ u ∈ x.explored, op.Evaluates u
  closed : ∀ u ∈ x.explored, ∀ v, op.Reaches u v → v ∈ x.explored
  paths : ∀ (u : Term) (n : Nat), x.paths[u]? = some n → n = clampWord (interleavings u.leafSteps)
  terminals : ∀ u, u ∈ x.terminals ↔ u ∈ x.explored ∧ u.leafSteps.sum = 0
  nodup : x.terminals.Nodup

theorem Exact.empty (op : Operator) : Exploration.empty.Exact op where
  evaluates := by simp
  closed := by simp
  paths := by simp [Exploration.empty]
  terminals u := ⟨fun h => absurd h List.not_mem_nil, fun h => absurd h.1 (by simp)⟩
  nodup := List.nodup_nil

/-- What is below a term is below its contractions, or the term. -/
theorem Exact.closed_insert (h : x.Exact op)
    (ht : ∀ k, op.Contracts t k → k.after ∈ x.explored) (hu : u = t ∨ u ∈ x.explored)
    (hreach : op.Reaches u v) : v = t ∨ v ∈ x.explored := by
  rcases hu with rfl | hu
  · rcases Operator.reaches_iff.1 hreach with rfl | ⟨k, hk, hreach⟩
    · exact Or.inl rfl
    · exact Or.inr (h.closed _ (ht k hk) v hreach)
  · exact Or.inr (h.closed u hu v hreach)

/-- **Recording a term after its contractions keeps the record exact**, if it becomes one of the
terminal terms just when it is one. -/
theorem Exact.insert (h : x.Exact op) {n : Nat} (ht : op.Evaluates t)
    (hbelow : ∀ k, op.Contracts t k → k.after ∈ x.explored)
    (hn : n = clampWord (interleavings t.leafSteps)) (hpaths : y.paths = x.paths.insert t n)
    (hterminals : ∀ u, u ∈ y.terminals ↔ u ∈ x.terminals ∨ u = t ∧ t.leafSteps.sum = 0)
    (hnodup : y.terminals.Nodup) : y.Exact op := by
  have hmem : ∀ u, u ∈ y.explored ↔ u = t ∨ u ∈ x.explored := fun u => by
    rw [explored, hpaths]
    exact mem_explored_addPaths
  refine ⟨fun u hu => ?_, fun u hu v hreach => ?_, fun u m hm => ?_, fun u => ?_, hnodup⟩
  · rcases (hmem u).1 hu with rfl | hu
    · exact ht
    · exact h.evaluates u hu
  · exact (hmem v).2 (h.closed_insert hbelow ((hmem u).1 hu) hreach)
  · rw [hpaths, Std.HashMap.getElem?_insert] at hm
    split at hm
    · rename_i htu
      rw [← Option.some.inj hm, hn, eq_of_beq htu]
    · exact h.paths u m hm
  · rw [hterminals, h.terminals, hmem, or_and_right, or_comm]
    exact or_congr_left (and_congr_right fun heq => by rw [heq])

/-- A terminal term is recorded. -/
theorem Exact.addTerminal (h : x.Exact op) (hnil : contractAll op t = .ok []) :
    (x.addTerminal t).Exact op := by
  have ht : op.Evaluates t := Operator.evaluates_of_contractAll_nil hnil
  have hsum : t.leafSteps.sum = 0 := (Operator.sum_leafSteps_eq_zero_iff ht hnil).2 rfl
  have hnone : ∀ k, op.Contracts t k → k.after ∈ x.explored := fun k hk =>
    absurd (Operator.mem_contractAll_of_contracts hk hnil) List.not_mem_nil
  refine h.insert ht hnone (by rw [interleavings_of_sum_eq_zero hsum]; rfl) rfl (fun u => ?_) ?_
  · simp only [Exploration.addTerminal, List.contains_iff_mem, hsum, and_true]
    split
    · rename_i hin
      exact ⟨Or.inl, fun hu => hu.elim id fun heq => heq ▸ hin⟩
    · simp
  · simp only [Exploration.addTerminal, List.contains_iff_mem]
    split
    · exact h.nodup
    · rename_i hnot
      exact List.nodup_append.2 ⟨h.nodup, List.nodup_singleton t, fun u hu v hv huv =>
        hnot (List.mem_singleton.1 hv ▸ huv ▸ hu)⟩

/-- A term that is not terminal is recorded. -/
theorem Exact.addPaths (h : x.Exact op) {n : Nat} (ht : op.Evaluates t)
    (hsum : t.leafSteps.sum ≠ 0) (hbelow : ∀ k, op.Contracts t k → k.after ∈ x.explored)
    (hn : n = clampWord (interleavings t.leafSteps)) : (x.addPaths t n).Exact op :=
  h.insert ht hbelow hn rfl
    (fun _ => ⟨Or.inl, fun hu => hu.elim id fun hzero => absurd hzero.2 hsum⟩) h.nodup

/-- `y` comes after `x` and after exploring the terms `ts`. -/
structure Adds (op : Operator) (x : Exploration) (ts : List Term) (y : Exploration) : Prop where
  exact : y.Exact op
  evaluates : ∀ t ∈ ts, op.Evaluates t
  mem_iff : ∀ u, u ∈ y.explored ↔ u ∈ x.explored ∨ ∃ t ∈ ts, op.Reaches t u

theorem Adds.refl (h : x.Exact op) : x.Adds op [] x := ⟨h, by simp, by simp⟩

theorem Adds.of_known (h : x.Exact op) (ht : t ∈ x.explored) : x.Adds op [t] x where
  exact := h
  evaluates := by simpa using h.evaluates t ht
  mem_iff u := by simpa using h.closed t ht u

/-- A term is explored when it is recorded after its contractions. -/
theorem Adds.of_contractAll {ks : List Contraction} (hks : contractAll op t = .ok ks)
    (h : x.Adds op (ks.map (·.after)) y) (ht : op.Evaluates t) (hz : z.Exact op)
    (hmem : ∀ u, u ∈ z.explored ↔ u = t ∨ u ∈ y.explored) : x.Adds op [t] z where
  exact := hz
  evaluates := by simpa using ht
  mem_iff u := by
    rw [hmem, h.mem_iff, or_left_comm, ← Operator.reaches_iff_of_contractAll hks]
    simp

theorem Adds.addTerminal (h : x.Exact op) (hnil : contractAll op t = .ok []) :
    x.Adds op [t] (x.addTerminal t) :=
  .of_contractAll hnil (.refl h) (Operator.evaluates_of_contractAll_nil hnil)
    (h.addTerminal hnil) fun _ => mem_explored_addTerminal

/-- A term evaluates if what its contractions lead to does, and there is one. -/
theorem Adds.evaluates_of_contractAll {ks : List Contraction}
    (h : x.Adds op (ks.map (·.after)) y) (hks : contractAll op t = .ok ks) (hne : ks ≠ []) :
    op.Evaluates t := by
  obtain ⟨k, hk⟩ := List.exists_mem_of_ne_nil ks hne
  exact (Operator.contracts_of_mem_contractAll hks hk).evaluates_iff.2
    (h.evaluates _ (List.mem_map_of_mem hk))

theorem Adds.addPaths {ks : List Contraction} (h : x.Adds op (ks.map (·.after)) y)
    (hks : contractAll op t = .ok ks) (hne : ks ≠ []) :
    x.Adds op [t] (y.addPaths t (clampWord (interleavings t.leafSteps))) := by
  have ht := h.evaluates_of_contractAll hks hne
  have hleft := mt (Operator.sum_leafSteps_eq_zero_iff ht hks).1 hne
  have hbelow : ∀ k, op.Contracts t k → k.after ∈ y.explored := fun k hk =>
    (h.mem_iff _).2 (Or.inr ⟨_, List.mem_map_of_mem
      (Operator.mem_contractAll_of_contracts hk hks), Operator.Reaches.refl _⟩)
  exact .of_contractAll hks h ht (h.exact.addPaths ht hleft hbelow rfl)
    fun _ => mem_explored_addPaths

theorem Adds.trans (h : x.Adds op ts y) (h' : y.Adds op us z) : x.Adds op (ts ++ us) z := by
  refine ⟨h'.exact, ?_, fun u => ?_⟩
  · intro t ht
    exact (List.mem_append.1 ht).elim (h.evaluates t) (h'.evaluates t)
  · rw [h'.mem_iff, h.mem_iff, or_assoc]
    simp only [List.mem_append, or_and_right, exists_or]

theorem Adds.subset {B : Set Term} (h : x.Adds op ts y) (hx : x.explored ⊆ B)
    (hts : ∀ t ∈ ts, {u | op.Reaches t u} ⊆ B) : y.explored ⊆ B := by
  intro u hu
  rcases (h.mem_iff u).1 hu with hu | ⟨t, ht, hu⟩
  · exact hx hu
  · exact hts t ht hu

end Exploration

namespace Engine

variable {e : Engine} {t u : Term} {x y : Exploration} {n : Nat}

/-! ## The three ways of an exploration -/

/-- Explores what a contraction leads to, and adds its paths to the total. -/
def visit (e : Engine) (acc : Nat × Exploration) (k : Contraction) :
    Except Error (Nat × Exploration) :=
  (e.explore k.after acc.2).map fun p => (clampWord (acc.1 + p.1), p.2)

theorem exploreAll_eq {bound : Nat} {ks : List Contraction}
    (small : ∀ k ∈ ks, k.after.measure < bound) (total : Nat) (x : Exploration) :
    e.exploreAll bound ks small total x = ks.foldlM e.visit (total, x) := by
  induction ks generalizing total x with
  | nil => rw [exploreAll]; rfl
  | cons k ks ih =>
    rw [exploreAll, List.foldlM_cons, visit]
    cases e.explore k.after x with
    | error err => rfl
    | ok p => exact ih _ _ _

theorem explore_of_known (h : t ∈ x.explored) :
    ∃ n, x.paths[t]? = some n ∧ e.explore t x = .ok (n, x) := by
  obtain ⟨n, hn⟩ := Option.isSome_iff_exists.1 (Std.HashMap.mem_iff_isSome_getElem?.1 h)
  exact ⟨n, hn, by rw [explore, hn]⟩

theorem explore_of_full (h : t ∉ x.explored) (hfull : maxExplored ≤ x.paths.size) :
    e.explore t x = .error (.nonTermination maxExplored t) := by
  rw [explore, Std.HashMap.getElem?_eq_none h]
  exact if_pos hfull

theorem explore_of_new (h : t ∉ x.explored) (hroom : x.paths.size < maxExplored) :
    e.explore t x = contractAll e.operator t >>= fun ks =>
      if ks = [] then .ok (1, x.addTerminal t)
      else (ks.foldlM e.visit (0, x)).map fun p => (p.1, p.2.addPaths t p.1) := by
  rw [explore, Std.HashMap.getElem?_eq_none h]
  simp only [if_neg (Nat.not_le_of_lt hroom)]
  split
  · rename_i herr
    rw [herr]
    rfl
  · rename_i hks
    rw [hks]
    rfl
  · rename_i k ks hks
    simp only [exploreAll_eq, hks]
    cases hfold : (k :: ks).foldlM e.visit (0, x) <;> simp [bind, Except.bind, hfold, Except.map]

/-- A new term is explored when the loop over its contractions goes through. -/
theorem exists_explore_iff {ks : List Contraction} (h : t ∉ x.explored)
    (hroom : x.paths.size < maxExplored) (hks : contractAll e.operator t = .ok ks) :
    (∃ n y, e.explore t x = .ok (n, y)) ↔ ∃ n y, ks.foldlM e.visit (0, x) = .ok (n, y) := by
  rw [explore_of_new h hroom, hks]
  by_cases hnil : ks = []
  · subst hnil
    exact ⟨fun _ => ⟨0, x, rfl⟩, fun _ => ⟨1, x.addTerminal t, rfl⟩⟩
  · constructor
    · rintro ⟨n, y, hy⟩
      obtain ⟨⟨m, z⟩, hfold, _⟩ := map_eq_ok_iff.1 ((if_neg hnil).symm.trans hy)
      exact ⟨m, z, hfold⟩
    · rintro ⟨n, y, hfold⟩
      exact ⟨n, y.addPaths t n, (if_neg hnil).trans (map_eq_ok_iff.2 ⟨_, hfold, rfl⟩)⟩

/-! ## What a successful exploration adds -/

/-- A successful exploration of the term adds what the term reaches and finds its paths. -/
def ExploresExactly (e : Engine) (t : Term) : Prop :=
  ∀ ⦃x y : Exploration⦄ ⦃n : Nat⦄, x.Exact e.operator → e.explore t x = .ok (n, y) →
    x.Adds e.operator [t] y ∧ n = clampWord (interleavings t.leafSteps)

theorem adds_of_foldlM_from {ks : List Contraction} (hks : ∀ k ∈ ks, e.ExploresExactly k.after)
    (hx : x.Exact e.operator) {m : Nat}
    (h : ks.foldlM e.visit (clampWord m, x) = .ok (n, y)) :
    x.Adds e.operator (ks.map (·.after)) y ∧
      n = clampWord (m + (ks.map fun k => interleavings k.after.leafSteps).sum) := by
  induction ks generalizing x m with
  | nil => cases h; exact ⟨.refl hx, rfl⟩
  | cons k ks ih =>
    rw [List.foldlM_cons] at h
    obtain ⟨_, hvisit, h⟩ := bind_eq_ok_iff.1 h
    obtain ⟨⟨n', z⟩, hexplore, rfl⟩ := map_eq_ok_iff.1 hvisit
    obtain ⟨hadds, rfl⟩ := hks k List.mem_cons_self hx hexplore
    rw [clampWord_add_clampWord] at h
    obtain ⟨hadds', rfl⟩ := ih (fun k' hk' => hks k' (List.mem_cons_of_mem k hk')) hadds.exact h
    refine ⟨hadds.trans hadds', ?_⟩
    rw [List.map_cons, List.sum_cons, Nat.add_assoc]

theorem adds_of_foldlM {ks : List Contraction} (hks : ∀ k ∈ ks, e.ExploresExactly k.after)
    (hx : x.Exact e.operator) (h : ks.foldlM e.visit (0, x) = .ok (n, y)) :
    x.Adds e.operator (ks.map (·.after)) y ∧
      n = clampWord (ks.map fun k => interleavings k.after.leafSteps).sum := by
  have hstart : ks.foldlM e.visit (clampWord 0, x) = .ok (n, y) := h
  have hadds := adds_of_foldlM_from hks hx hstart
  rwa [Nat.zero_add] at hadds

/-- **What a successful exploration adds**: everything below the term, and the number of its
paths. -/
theorem exploresExactly (e : Engine) (t : Term) : e.ExploresExactly t := by
  induction hm : t.measure using Nat.strongRecOn generalizing t with
  | ind m ih =>
    intro x y n hx h
    by_cases hknown : t ∈ x.explored
    · obtain ⟨m, hpaths, hm⟩ := e.explore_of_known hknown
      rw [hm] at h
      cases h
      exact ⟨.of_known hx hknown, hx.paths t _ hpaths⟩
    rcases Nat.lt_or_ge x.paths.size maxExplored with hroom | hfull
    · rw [explore_of_new hknown hroom] at h
      obtain ⟨ks, hks, h⟩ := bind_eq_ok_iff.1 h
      split at h
      · rename_i hnil
        subst hnil
        cases h
        have ht := Operator.evaluates_of_contractAll_nil hks
        refine ⟨.addTerminal hx hks, ?_⟩
        rw [interleavings_of_sum_eq_zero ((Operator.sum_leafSteps_eq_zero_iff ht hks).2 rfl)]
        rfl
      · rename_i hne
        obtain ⟨⟨n', z⟩, hfold, heq⟩ := map_eq_ok_iff.1 h
        cases heq
        have hsmall : ∀ k ∈ ks, e.ExploresExactly k.after := by
          intro k hk
          have hmeasure := contractAll_measure hks k hk
          exact ih k.after.measure (by omega) k.after rfl
        obtain ⟨hadds, rfl⟩ := adds_of_foldlM hsmall hx hfold
        have ht := hadds.evaluates_of_contractAll hks hne
        rw [Operator.sum_interleavings_contractAll ht hks hne]
        exact ⟨hadds.addPaths hks hne, rfl⟩
    · rw [explore_of_full hknown hfull] at h
      cases h

/-! ## Explorations that fail -/

theorem error_of_foldlM {ks : List Contraction} {acc : Nat × Exploration} {err : Error}
    (h : ks.foldlM e.visit acc = .error err) :
    ∃ k ∈ ks, ∃ z, e.explore k.after z = .error err := by
  induction ks generalizing acc with
  | nil => cases h
  | cons k ks ih =>
    rw [List.foldlM_cons] at h
    rcases bind_eq_error_iff.1 h with hvisit | ⟨acc', _, h⟩
    · exact ⟨k, List.mem_cons_self, acc.2, map_eq_error_iff.1 hvisit⟩
    · obtain ⟨k', hk', hz⟩ := ih h
      exact ⟨k', List.mem_cons_of_mem k hk', hz⟩

/-- **An exploration fails for want of room or for want of a contraction**, at a term on the way. -/
theorem error_of_explore {err : Error} (h : e.explore t x = .error err) :
    ∃ u, e.operator.Reaches t u ∧
      (err = .nonTermination maxExplored u ∨ contractAll e.operator u = .error err) := by
  induction hm : t.measure using Nat.strongRecOn generalizing t x with
  | ind m ih =>
    by_cases hknown : t ∈ x.explored
    · obtain ⟨n, _, hn⟩ := e.explore_of_known hknown
      rw [hn] at h
      cases h
    rcases Nat.lt_or_ge x.paths.size maxExplored with hroom | hfull
    · rw [explore_of_new hknown hroom] at h
      rcases bind_eq_error_iff.1 h with hks | ⟨ks, hks, h⟩
      · exact ⟨t, .refl t, Or.inr hks⟩
      · split at h
        · cases h
        · obtain ⟨k, hk, z, hz⟩ := error_of_foldlM (map_eq_error_iff.1 h)
          have hmeasure := contractAll_measure hks k hk
          obtain ⟨u, hu, herr⟩ := ih k.after.measure (by omega) hz rfl
          exact ⟨u, hu.head (Operator.contracts_of_mem_contractAll hks hk), herr⟩
    · rw [explore_of_full hknown hfull] at h
      cases h
      exact ⟨t, .refl t, Or.inl rfl⟩

/-! ## Explorations with enough room -/

/-- The term can be explored whenever all that is explored already lies within `B`. -/
def ExploresWithin (e : Engine) (B : Set Term) (t : Term) : Prop :=
  ∀ ⦃x : Exploration⦄, x.Exact e.operator → x.explored ⊆ B → ∃ n y, e.explore t x = .ok (n, y)

theorem exists_foldlM {B : Set Term} {ks : List Contraction}
    (hks : ∀ k ∈ ks, e.ExploresWithin B k.after)
    (hB : ∀ k ∈ ks, {u | e.operator.Reaches k.after u} ⊆ B) (hx : x.Exact e.operator)
    (hxB : x.explored ⊆ B) (m : Nat) : ∃ n y, ks.foldlM e.visit (m, x) = .ok (n, y) := by
  induction ks generalizing x m with
  | nil => exact ⟨m, x, rfl⟩
  | cons k ks ih =>
    obtain ⟨n, y, hy⟩ := hks k List.mem_cons_self hx hxB
    obtain ⟨hadds, -⟩ := e.exploresExactly k.after hx hy
    have hyB : y.explored ⊆ B := hadds.subset hxB (by simpa using hB k List.mem_cons_self)
    obtain ⟨n', z, hz⟩ := ih (fun k' hk' => hks k' (List.mem_cons_of_mem k hk'))
      (fun k' hk' => hB k' (List.mem_cons_of_mem k hk')) hadds.exact hyB (clampWord (m + n))
    exact ⟨n', z, bind_eq_ok_iff.2 ⟨_, map_eq_ok_iff.2 ⟨_, hy, rfl⟩, hz⟩⟩

/-- There is room for a new term in a set that holds it and fits. -/
theorem size_lt_of_subset {B : Set Term} (hB : B.encard ≤ maxExplored) (hxB : x.explored ⊆ B)
    (ht : t ∈ B) (hnew : t ∉ x.explored) : x.paths.size < maxExplored := by
  have hinsert : (insert t x.explored).encard ≤ maxExplored :=
    (Set.encard_le_encard (Set.insert_subset ht hxB)).trans hB
  rw [Set.encard_insert_of_notMem hnew, Exploration.encard_explored] at hinsert
  exact_mod_cast hinsert

/-- **A term is explored if everything below it fits**, together with what is explored already. -/
theorem exploresWithin {B : Set Term} (hB : B.encard ≤ maxExplored)
    (ht : e.operator.Evaluates t) (hbelow : {u | e.operator.Reaches t u} ⊆ B) :
    e.ExploresWithin B t := by
  induction hm : t.measure using Nat.strongRecOn generalizing t with
  | ind m ih =>
    intro x hx hxB
    by_cases hknown : t ∈ x.explored
    · obtain ⟨n, _, hn⟩ := e.explore_of_known hknown
      exact ⟨n, x, hn⟩
    have hroom := size_lt_of_subset hB hxB (hbelow (.refl t)) hknown
    obtain ⟨ks, hks, _⟩ := Operator.contractAll_of_evaluates ht
    have hstep : ∀ k ∈ ks, {u | e.operator.Reaches k.after u} ⊆ B := fun k hk u hu =>
      hbelow (hu.head (Operator.contracts_of_mem_contractAll hks hk))
    have hsmall : ∀ k ∈ ks, e.ExploresWithin B k.after := by
      intro k hk
      have hmeasure := contractAll_measure hks k hk
      exact ih k.after.measure (by omega)
        ((Operator.contracts_of_mem_contractAll hks hk).evaluates_iff.1 ht) (hstep k hk) rfl
    exact (exists_explore_iff hknown hroom hks).2 (exists_foldlM hsmall hstep hx hxB 0)

/-! ## The report -/

/-- An exploration from scratch finds the one terminal term. -/
theorem confluence_of_explore (h : e.explore t .empty = .ok (n, y)) :
    ∃ u, e.confluence t = .ok ⟨t, u, n, y.paths.size⟩ ∧ e.operator.Reaches t u ∧
      u.leafSteps.sum = 0 := by
  obtain ⟨hadds, -⟩ := e.exploresExactly t (.empty e.operator) h
  have ht : e.operator.Evaluates t := hadds.evaluates t (List.mem_singleton_self t)
  obtain ⟨trace, htrace⟩ := exists_normalize_of_evaluates
    (e := ⟨e.operator, t.leafSteps.sum, e.strategy⟩) ht (Nat.le_refl _)
  obtain ⟨-, -, hend⟩ := evaluates_of_normalize htrace
  have hmem : ∀ u, u ∈ y.terminals ↔ u ∈ [trace.final] := by
    intro u
    rw [hadds.exact.terminals, hadds.mem_iff, List.mem_singleton, ← hend u]
    simp
  have hterminals : y.terminals = [trace.final] := List.perm_singleton.1
    ((List.perm_ext_iff_of_nodup hadds.exact.nodup (List.nodup_singleton _)).2 hmem)
  refine ⟨trace.final, ?_, (hend _).2 rfl⟩
  simp only [confluence, h, hterminals]

theorem confluence_of_error {err : Error} (h : e.explore t .empty = .error err) :
    e.confluence t = .error err := by
  simp only [confluence, h]

/-- A report is that of an exploration from scratch. -/
theorem explore_of_confluence {report : ConfluenceReport} (h : e.confluence t = .ok report) :
    ∃ n y, e.explore t .empty = .ok (n, y) ∧ report.term = t ∧ report.paths = n ∧
      report.states = y.paths.size ∧ e.operator.Reaches t report.normalForm ∧
      report.normalForm.leafSteps.sum = 0 := by
  cases hexplore : e.explore t .empty with
  | error err => rw [confluence_of_error hexplore] at h; cases h
  | ok p =>
    obtain ⟨u, hu, hreach, hzero⟩ := confluence_of_explore hexplore
    rw [hu] at h
    cases h
    exact ⟨p.1, p.2, rfl, rfl, rfl, rfl, hreach, hzero⟩

/-- The check fails as the exploration from scratch does. -/
theorem explore_of_confluence_error {err : Error} (h : e.confluence t = .error err) :
    e.explore t .empty = .error err := by
  cases hexplore : e.explore t .empty with
  | error err' => rw [confluence_of_error hexplore] at h; cases h; rfl
  | ok p =>
    obtain ⟨u, hu, _⟩ := confluence_of_explore hexplore
    rw [hu] at h
    cases h

/-- **A reduction graph that fits is reported on.** -/
theorem exists_confluence (ht : e.operator.Evaluates t)
    (hfit : (t.leafSteps.map (· + 1)).prod ≤ maxExplored) :
    ∃ report, e.confluence t = .ok report := by
  have hencard : {u | e.operator.Reaches t u}.encard ≤ maxExplored := by
    rw [Operator.encard_reaches ht]
    exact_mod_cast hfit
  obtain ⟨n, y, h⟩ := exploresWithin hencard ht Set.Subset.rfl (.empty e.operator) (by simp)
  obtain ⟨u, hu, _⟩ := confluence_of_explore h
  exact ⟨_, hu⟩

end Engine

end PrimeLanguage
