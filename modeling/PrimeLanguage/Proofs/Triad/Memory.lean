import PrimeLanguage.Proofs.Triad.Canonical
import PrimeLanguage.Proofs.Typing.Annotation

/-!
# The memory of a canonicalizer

A canonicalizer carries its memory from one call to the next.  The answers do not show it: a call
answers what a pure function of the weights does, and the memory is determined by the targets that
the calls were for.

* `Canonicalizer.Query`, `Canonicalizer.Answer` — the calls and what they return;
* `Canonicalizer.ask`, `Canonicalizer.askAll` — one call, and calls one after the other;
* `Query.answer`, `Query.targets` — the pure function, and the targets a call leaves in the memory;
  `Term.mem_fusedSums_iff` says which these are for a term.

`Faithful.ask` is about one call, `Faithful.askAll` by induction about any number of them.

Principal result: `memory_invisible`.
-/

namespace PrimeLanguage

/-! ## The targets of a term -/

namespace Term

variable {n : Nat} {o e l r : Term} {os : List Term} {c : Connective}

theorem mem_fusedSumsAll_iff : n ∈ fusedSumsAll os ↔ ∃ o ∈ os, n ∈ o.fusedSums := by
  induction os with
  | nil => simp [fusedSumsAll]
  | cons o os ih => rw [fusedSumsAll, List.mem_append, ih, List.exists_mem_cons_iff, or_comm]

theorem mem_fusedSums_chain :
    n ∈ (Term.chain o os e).fusedSums ↔ (∃ o' ∈ o :: os, n ∈ o'.fusedSums) ∨ n ∈ e.fusedSums := by
  rw [fusedSums, List.mem_append, List.mem_append, mem_fusedSumsAll_iff, List.exists_mem_cons_iff,
    or_comm (a := ∃ o' ∈ os, n ∈ o'.fusedSums)]

theorem mem_fusedSums_fusion {f : Fusion} :
    n ∈ (Term.fusion f).fusedSums ↔ ∃ s, f.fused? = some s ∧ s.val = n := by
  rw [fusedSums, Option.mem_toList, Option.map_eq_some_iff]

/-- The sums that canonicalization comes to are those of the well-formed fusions that stand anywhere
in the term. -/
theorem mem_fusedSums_iff (t : Term) :
    n ∈ t.fusedSums ↔
      ∃ f : Fusion, (Term.fusion f).Within t ∧ ∃ s, f.fused? = some s ∧ s.val = n := by
  constructor
  · intro h
    induction t using Term.induction with
    | noun | adj => cases h
    | fusion f => exact ⟨f, .here, mem_fusedSums_fusion.1 h⟩
    | chain o os e iho ihos ihe =>
      rcases mem_fusedSums_chain.1 h with ⟨o', ho', hsum⟩ | hsum
      · rcases List.mem_cons.1 ho' with rfl | hmem
        · obtain ⟨f, hf, hs⟩ := iho hsum
          exact ⟨f, .operator ho' hf, hs⟩
        · obtain ⟨f, hf, hs⟩ := ihos o' hmem hsum
          exact ⟨f, .operator ho' hf, hs⟩
      · obtain ⟨f, hf, hs⟩ := ihe hsum
        exact ⟨f, .position hf, hs⟩
    | sentence e ih =>
      obtain ⟨f, hf, hs⟩ := ih h
      exact ⟨f, .body hf, hs⟩
    | join c l r ihl ihr =>
      rcases List.mem_append.1 h with h | h
      · obtain ⟨f, hf, hs⟩ := ihl h
        exact ⟨f, .left hf, hs⟩
      · obtain ⟨f, hf, hs⟩ := ihr h
        exact ⟨f, .right hf, hs⟩
  · rintro ⟨f, hf, hs⟩
    induction hf with
    | here => exact mem_fusedSums_fusion.2 hs
    | operator ho _ ih => exact mem_fusedSums_chain.2 (Or.inl ⟨_, ho, ih⟩)
    | position _ ih => exact mem_fusedSums_chain.2 (Or.inr ih)
    | body _ ih => exact ih
    | left _ ih => exact List.mem_append_left _ ih
    | right _ ih => exact List.mem_append_right _ ih

end Term

namespace Canonicalizer

/-! ## Calls -/

/-- A call of a canonicalizer. -/
inductive Query where
  | triads (target : Nat)
  | canonical (target : Nat)
  | canonicalize (t : Term)

/-- What a call that succeeds returns. -/
inductive Answer where
  | triads (ts : List Triad)
  | canonical (t : Option Triad)
  | canonicalize (t : Term)

/-- Makes a call.  One that fails returns no canonicalizer, so the same one is used on. -/
def ask (c : Canonicalizer) (q : Query) : Except InvalidPrime Answer × Canonicalizer :=
  let call : Except InvalidPrime (Answer × Canonicalizer) :=
    match q with
    | .triads n => (c.triads n).map (Prod.map .triads id)
    | .canonical n => (c.canonical n).map (Prod.map .canonical id)
    | .canonicalize t => (c.canonicalize t).map (Prod.map .canonicalize id)
  match call with
  | .ok (a, c') => (.ok a, c')
  | .error err => (.error err, c)

/-- Makes calls one after the other. -/
def askAll (c : Canonicalizer) : List Query → List (Except InvalidPrime Answer) × Canonicalizer
  | [] => ([], c)
  | q :: qs =>
    let (a, c) := c.ask q
    let (as, c) := askAll c qs
    (a :: as, c)

namespace Query

/-- What a call answers under the given weights. -/
def answer (w : Weights) : Query → Except InvalidPrime Answer
  | .triads n => (Prime.ofNat n).map fun p => .triads (Triad.enumerate p.val)
  | .canonical n => (Prime.ofNat n).map fun p =>
    .canonical (selectBest (Triad.score w) Triad.withinTolerance (Triad.enumerate p.val))
  | .canonicalize t => .ok (.canonicalize (t.mapFusions (Fusion.canonical w)))

/-- The targets that a call leaves in the memory: its argument, unless that is refused, or the sums
of the well-formed fusions of a term. -/
def targets : Query → List Nat
  | .triads n | .canonical n => ((Prime.ofNat n).toOption.map Prime.val).toList
  | .canonicalize t => t.fusedSums

end Query

variable {c : Canonicalizer} {w : Weights}

theorem triads_of_refused {n : Nat} {err : InvalidPrime} (h : Prime.ofNat n = .error err) :
    c.triads n = .error err := by
  rw [triads, h]

theorem ask_triads_of_refused {n : Nat} {err : InvalidPrime} (h : Prime.ofNat n = .error err) :
    c.ask (.triads n) = (.error err, c) := by
  simp only [ask, triads_of_refused h, Except.map]

theorem ask_canonical_of_refused {n : Nat} {err : InvalidPrime} (h : Prime.ofNat n = .error err) :
    c.ask (.canonical n) = (.error err, c) := by
  simp only [ask, canonical, triads_of_refused h, Except.map]

/-- **A call of a faithful canonicalizer** answers what the pure function does, and leaves the
targets of the call in the memory. -/
theorem Faithful.ask (h : c.Faithful w) (q : Query) :
    (c.ask q).1 = q.answer w ∧ Learns w c q.targets (c.ask q).2 := by
  cases q with
  | triads n =>
    rw [Query.answer, Query.targets]
    cases hn : Prime.ofNat n with
    | error err =>
      rw [ask_triads_of_refused hn]
      exact ⟨rfl, h.learns_nil⟩
    | ok p =>
      obtain rfl := Prime.val_of_ofNat hn
      obtain ⟨c', hcall, hlearns⟩ := h.triads p
      simp only [Canonicalizer.ask, hcall, Except.map]
      exact ⟨rfl, hlearns⟩
  | canonical n =>
    rw [Query.answer, Query.targets]
    cases hn : Prime.ofNat n with
    | error err =>
      rw [ask_canonical_of_refused hn]
      exact ⟨rfl, h.learns_nil⟩
    | ok p =>
      obtain rfl := Prime.val_of_ofNat hn
      obtain ⟨c', hcall, hlearns⟩ := h.canonical p
      simp only [Canonicalizer.ask, hcall, Except.map]
      exact ⟨rfl, hlearns⟩
  | canonicalize t =>
    obtain ⟨c', hcall, hlearns⟩ := canonicalize_learns h t
    simp only [Canonicalizer.ask, hcall, Except.map]
    exact ⟨rfl, hlearns⟩

/-- Calls one after the other, by induction. -/
theorem Faithful.askAll (h : c.Faithful w) (qs : List Query) :
    (c.askAll qs).1 = qs.map (Query.answer w) ∧
      Learns w c (qs.flatMap Query.targets) (c.askAll qs).2 := by
  induction qs generalizing c with
  | nil => exact ⟨rfl, h.learns_nil⟩
  | cons q qs ih =>
    obtain ⟨hanswer, hlearns⟩ := h.ask q
    obtain ⟨hanswers, hlearnsAll⟩ := ih hlearns.faithful
    exact ⟨congrArg₂ List.cons hanswer hanswers, hlearns.trans hlearnsAll⟩

/-- The memory counts what it holds. -/
theorem cachedTargets_eq {ns : List Nat} (h : ∀ n, n ∈ c.memo ↔ n ∈ ns) :
    c.cachedTargets = ns.toFinset.card := by
  have hkeys : ns.toFinset = c.memo.keys.toFinset := by
    ext n
    rw [List.mem_toFinset, List.mem_toFinset, Std.HashMap.mem_keys, h]
  rw [hkeys, List.toFinset_card_of_nodup c.memo.nodup_keys, Std.HashMap.length_keys, cachedTargets]

/-- **The memory of a canonicalizer is invisible.**  Whatever calls are made one after the other,
each is answered as by a new canonicalizer with the same weights.  Afterwards the memory holds all
triads of each target of these calls and nothing else, and counts the different targets.  A call for
a number that is no prime fails and leaves the canonicalizer as it was; no other call fails. -/
theorem memory_invisible (w : Weights) (qs : List Query) :
    ∃ answers c, (ofWeights w).askAll qs = (answers, c) ∧
      answers = qs.map (fun q => ((ofWeights w).ask q).1) ∧
      (∀ n ts, c.memo[n]? = some ts ↔ n ∈ qs.flatMap Query.targets ∧ ts = Triad.enumerate n) ∧
      c.cachedTargets = (qs.flatMap Query.targets).toFinset.card ∧
      (∀ n, (∀ p : Prime, p.val ≠ n) →
        c.ask (.triads n) = (.error ⟨n, .notPrime⟩, c) ∧
        c.ask (.canonical n) = (.error ⟨n, .notPrime⟩, c)) ∧
      ∀ q err, (c.ask q).1 = .error err →
        ∃ n, (q = .triads n ∨ q = .canonical n) ∧ ∀ p : Prime, p.val ≠ n := by
  have hnew := faithful_ofWeights w
  obtain ⟨hanswers, hfaithful, hmem⟩ := hnew.askAll qs
  have hholds : ∀ n, n ∈ ((ofWeights w).askAll qs).2.memo ↔ n ∈ qs.flatMap Query.targets := by
    intro n
    rw [hmem, or_iff_right (by simp [ofWeights])]
  refine ⟨_, _, rfl, ?_, fun n ts => ?_, cachedTargets_eq hholds, fun n hn => ?_, fun q err h => ?_⟩
  · rw [hanswers]
    exact List.map_congr_left fun q _ => (hnew.ask q).1.symm
  · rw [← hholds, Std.HashMap.mem_iff_isSome_getElem?, Option.isSome_iff_exists]
    constructor
    · intro h
      exact ⟨⟨ts, h⟩, hfaithful.memo_eq n ts h⟩
    · rintro ⟨⟨ts', h⟩, rfl⟩
      rw [h, hfaithful.memo_eq n ts' h]
  · have hrefused : Prime.ofNat n = .error ⟨n, .notPrime⟩ := by
      cases h : Prime.ofNat n with
      | error err => rw [Prime.error_of_ofNat h]
      | ok p => exact absurd (Prime.val_of_ofNat h) (hn p)
    exact ⟨ask_triads_of_refused hrefused, ask_canonical_of_refused hrefused⟩
  · have hno : ∀ {n : Nat}, Prime.ofNat n = .error err → ∀ p : Prime, p.val ≠ n := by
      rintro n h p rfl
      rw [Prime.ofNat_val] at h
      cases h
    rw [(hfaithful.ask q).1] at h
    cases q with
    | triads n => exact ⟨n, Or.inl rfl, hno (map_eq_error_iff.1 h)⟩
    | canonical n => exact ⟨n, Or.inr rfl, hno (map_eq_error_iff.1 h)⟩
    | canonicalize t => cases h

open OverlappingRedexes in
/-- A target asked for twice, one that is refused, and a term with a fusion. -/
theorem memory_invisible_wide :
    let qs : List Query := [.triads 19, .canonical 21, .canonicalize overWide23, .canonical 19]
    ∃ answers c, (ofWeights .standard).askAll qs = (answers, c) ∧
      answers = qs.map (fun q => ((ofWeights .standard).ask q).1) ∧
      c.memo[23]? = some (Triad.enumerate 23) ∧ c.cachedTargets = 2 ∧
      c.ask (.triads 21) = (.error ⟨21, .notPrime⟩, c) := by
  intro qs
  obtain ⟨answers, c, hcalls, hanswers, hmemo, hcount, hrefused, _⟩ := memory_invisible .standard qs
  have hno : ∀ p : Prime, p.val ≠ 21 := fun p hp => absurd (hp ▸ p.accepted) (by decide)
  exact ⟨answers, c, hcalls, hanswers, (hmemo 23 _).2 ⟨by decide, rfl⟩, hcount.trans (by decide),
    (hrefused 21 hno).1⟩

end Canonicalizer

end PrimeLanguage
