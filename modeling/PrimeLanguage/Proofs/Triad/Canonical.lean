import PrimeLanguage.Operator.Builtin
import PrimeLanguage.Reduction.Confluence
import PrimeLanguage.Triad.Canonical
import PrimeLanguage.Proofs.Triad.Enumeration
import PrimeLanguage.Proofs.Triad.Replacement

/-!
# Canonical forms

Canonicalization replaces every well-formed fusion by one that is chosen by its sum alone.

* `Fusion.canonical` — the fusion that stands for a fusion under given weights;
* `Canonicalizer.Reached` — the canonicalizers with given weights: new ones, and what calls make of
  them; `Canonicalizer.Faithful` is what they have in common, that they remember no triads but those
  of the enumeration, and `Canonicalizer.Learns` is how a call changes what is remembered;
* `Fusion.Represents`, `Fusion.Interchangeable` — a fusion in canonical form for another one, and
  two fusions with one canonical form.

`Canonicalizer.canonicalize_learns` says that canonicalization is a replacement of fusions, never
fails, and remembers the sums of the fusions in the term (`Term.fusedSums`).  Principal results:
`canonicalize_preserves` — typing, meaning and reduction do not change; `canonicalize_complete` —
canonical forms are equal exactly when the terms are the same up to interchangeable fusions.
-/

namespace PrimeLanguage

/-! ## Selection by score -/

section Selection

variable {α σ : Type} {score : α → σ} {within : σ → σ → Bool}

theorem foldl_keepBest_mem (ts : List α) (t : α) :
    ts.foldl (keepBest score within) t ∈ t :: ts := by
  induction ts generalizing t with
  | nil => exact List.mem_singleton_self t
  | cons t' ts ih =>
    rw [List.foldl_cons]
    unfold keepBest
    split
    · exact (List.mem_cons.1 (ih t)).elim (fun h => List.mem_cons.2 (Or.inl h))
        fun h => List.mem_cons_of_mem t (List.mem_cons_of_mem t' h)
    · exact List.mem_cons_of_mem t (ih t')

/-- **Whatever the scores are, one of the candidates is selected**, if there is any. -/
theorem exists_selectBest {ts : List α} (h : ts ≠ []) :
    ∃ t ∈ ts, selectBest score within ts = some t := by
  cases ts with
  | nil => exact absurd rfl h
  | cons t ts => exact ⟨_, foldl_keepBest_mem ts t, rfl⟩

end Selection

/-! ## Triads and fusions -/

namespace Triad

variable {n : Nat} {t : Triad}

/-- The fusion of the components, if they make one. -/
def fusion? (t : Triad) : Option Fusion := (Fusion.ofNats t.p.val t.q.val t.r.val).toOption

/-- A triad of a number is a fusion. -/
theorem IsFor.ofNats (h : t.IsFor n) :
    ∃ f : Fusion, Fusion.ofNats t.p.val t.q.val t.r.val = .ok f ∧
      f.p = t.p ∧ f.q = t.q ∧ f.r = t.r := by
  have hp := t.p.isOdd_iff.1 h.odd
  have hq : t.q.isOdd = true := t.q.isOdd_iff.2 (Nat.le_trans hp (Nat.le_of_lt h.p_lt_q))
  have hr : t.r.isOdd = true :=
    t.r.isOdd_iff.2 (Nat.le_trans (t.q.isOdd_iff.1 hq) (Nat.le_of_lt h.q_lt_r))
  have hpr := Nat.lt_trans h.p_lt_q h.q_lt_r
  exact ⟨_, Fusion.ofNats_val ⟨t.p, t.q, t.r, ⟨h.odd, hq, hr⟩, Prime.ne_of_val_lt h.p_lt_q,
    Prime.ne_of_val_lt h.q_lt_r, Prime.ne_of_val_lt hpr⟩, rfl, rfl, rfl⟩

end Triad

namespace Fusion

variable {w : Weights} {f g : Fusion} {s : Prime}

/-- The components of a fusion, in ascending order, are a triad of its sum. -/
theorem exists_isFor (f : Fusion) :
    ∃ t : Triad, t.IsFor (f.p.val + f.q.val + f.r.val) := by
  obtain ⟨hp, hq, hr⟩ := f.odd
  obtain ⟨hpq, hqr, hpr⟩ := f.distinct
  have hsum : ∀ {a b c : Prime}, a.val + b.val + c.val = f.p.val + f.q.val + f.r.val →
      (Triad.mk a b c).sum = f.p.val + f.q.val + f.r.val := id
  rcases Nat.lt_or_gt_of_ne fun h => hpq (Prime.ext h) with hpq | hqp <;>
    rcases Nat.lt_or_gt_of_ne fun h => hqr (Prime.ext h) with hqr | hrq
  · exact ⟨⟨f.p, f.q, f.r⟩, hp, hpq, hqr, rfl⟩
  · rcases Nat.lt_or_gt_of_ne fun h => hpr (Prime.ext h) with hpr | hrp
    · exact ⟨⟨f.p, f.r, f.q⟩, hp, hpr, hrq, hsum (by omega)⟩
    · exact ⟨⟨f.r, f.p, f.q⟩, hr, hrp, hpq, hsum (by omega)⟩
  · rcases Nat.lt_or_gt_of_ne fun h => hpr (Prime.ext h) with hpr | hrp
    · exact ⟨⟨f.q, f.p, f.r⟩, hq, hqp, hpr, hsum (by omega)⟩
    · exact ⟨⟨f.q, f.r, f.p⟩, hq, hqr, hrp, hsum (by omega)⟩
  · exact ⟨⟨f.r, f.q, f.p⟩, hr, hrq, hqp, hsum (by omega)⟩

/-- The triad that is selected for the sum of a fusion; there is none for a fusion that is not well
formed. -/
def canonicalTriad? (w : Weights) (f : Fusion) : Option Triad :=
  f.fused?.bind fun s =>
    selectBest (Triad.score w) Triad.withinTolerance (Triad.enumerate s.val)

/-- The fusion that stands for a fusion under the given weights. -/
def canonical (w : Weights) (f : Fusion) : Fusion :=
  ((f.canonicalTriad? w).bind Triad.fusion?).getD f

theorem canonical_of_not_fused (h : f.fused? = none) : f.canonical w = f := by
  simp [canonical, canonicalTriad?, h]

/-- **The selection always finds a triad for a well-formed fusion**, and the triad makes the fusion
that stands for it. -/
theorem canonical_of_fused (w : Weights) (h : f.fused? = some s) :
    ∃ t : Triad, f.canonicalTriad? w = some t ∧ t.IsFor s.val ∧
      t.toTerm = .ok (.fusion (f.canonical w)) ∧
      (f.canonical w).p = t.p ∧ (f.canonical w).q = t.q ∧ (f.canonical w).r = t.r := by
  obtain ⟨t₀, ht₀⟩ := f.exists_isFor
  rw [← fused?_eq_some.1 h] at ht₀
  have hne : Triad.enumerate s.val ≠ [] := List.ne_nil_of_mem (Triad.mem_enumerate_iff.2 ht₀)
  obtain ⟨t, hmem, hsel⟩ : ∃ t ∈ Triad.enumerate s.val,
      selectBest (Triad.score w) Triad.withinTolerance (Triad.enumerate s.val) = some t :=
    exists_selectBest hne
  have ht := Triad.mem_enumerate_iff.1 hmem
  obtain ⟨g, hg, hcomponents⟩ := ht.ofNats
  have htriad : f.canonicalTriad? w = some t := by
    rw [canonicalTriad?, h]
    exact hsel
  have hcanonical : f.canonical w = g := by
    simp [canonical, htriad, Triad.fusion?, hg, Except.toOption]
  rw [hcanonical]
  refine ⟨t, htriad, ht, ?_, hcomponents⟩
  rw [Triad.toTerm, Term.fuse, hg]
  rfl

/-- Which fusion stands for a well-formed one depends on its sum only. -/
theorem canonical_eq_of_fused (hf : f.fused? = some s) (hg : g.fused? = some s) :
    f.canonical w = g.canonical w := by
  obtain ⟨t, htriad, ht, hf', _⟩ := canonical_of_fused w hf
  obtain ⟨t', htriad', _, hg', _⟩ := canonical_of_fused w hg
  rw [canonicalTriad?, hf] at htriad
  rw [canonicalTriad?, hg, htriad] at htriad'
  cases htriad'
  exact Term.fusion.inj (Except.ok.inj (hf'.symm.trans hg'))

/-- The fusion that stands for another one has the same sum. -/
theorem sum_canonical (w : Weights) (f : Fusion) :
    (f.canonical w).p.val + (f.canonical w).q.val + (f.canonical w).r.val =
      f.p.val + f.q.val + f.r.val := by
  cases h : f.fused? with
  | none => rw [canonical_of_not_fused h]
  | some s =>
    obtain ⟨t, _, ht, _, hp, hq, hr⟩ := canonical_of_fused w h
    rw [hp, hq, hr, ← fused?_eq_some.1 h]
    exact ht.sum_eq

/-- **The canonical form stands for the same prime.** -/
theorem keepsFused_canonical (w : Weights) : KeepsFused (canonical w) := by
  intro f
  refine Option.ext fun s => ?_
  rw [fused?_eq_some, fused?_eq_some, sum_canonical]

/-- `g` stands for `f` in canonical form: its components are in ascending order if it is well
formed, and it has the sum of `f`; an ill-formed fusion only stands for itself. -/
structure Represents (f g : Fusion) : Prop where
  ascending : g.isWellFormed = true → g.p.val < g.q.val ∧ g.q.val < g.r.val
  sum_eq : g.p.val + g.q.val + g.r.val = f.p.val + f.q.val + f.r.val
  eq_of_illFormed : g.isWellFormed = false → g = f

/-- Fusions that are the same, or well formed and with equal sums. -/
def Interchangeable (f g : Fusion) : Prop :=
  f = g ∨ f.isWellFormed = true ∧ g.isWellFormed = true ∧
    f.p.val + f.q.val + f.r.val = g.p.val + g.q.val + g.r.val

theorem isWellFormed_iff : f.isWellFormed = true ↔ ∃ s, f.fused? = some s :=
  Option.isSome_iff_exists

theorem represents_canonical (w : Weights) (f : Fusion) : f.Represents (f.canonical w) := by
  refine ⟨fun h => ?_, sum_canonical w f, fun h => ?_⟩
  · obtain ⟨s, hs⟩ := isWellFormed_iff.1 h
    rw [keepsFused_canonical w f] at hs
    obtain ⟨t, _, ht, _, hp, hq, hr⟩ := canonical_of_fused w hs
    rw [hp, hq, hr]
    exact ⟨ht.p_lt_q, ht.q_lt_r⟩
  · rw [isWellFormed, keepsFused_canonical w f] at h
    exact canonical_of_not_fused (Option.not_isSome_iff_eq_none.1 (Bool.eq_false_iff.1 h))

/-- **Fusions have one canonical form exactly when they are interchangeable.** -/
theorem canonical_eq_iff : f.canonical w = g.canonical w ↔ f.Interchangeable g := by
  constructor
  · intro h
    have hfused : f.fused? = g.fused? := by
      rw [← keepsFused_canonical w f, ← keepsFused_canonical w g, h]
    cases hf : f.fused? with
    | none =>
      rw [canonical_of_not_fused hf, canonical_of_not_fused (hfused ▸ hf)] at h
      exact Or.inl h
    | some s =>
      have hg := hfused ▸ hf
      refine Or.inr ⟨isWellFormed_iff.2 ⟨s, hf⟩, isWellFormed_iff.2 ⟨s, hg⟩, ?_⟩
      rw [← fused?_eq_some.1 hf, fused?_eq_some.1 hg]
  · rintro (rfl | ⟨hf, hg, hsum⟩)
    · rfl
    · obtain ⟨s, hf⟩ := isWellFormed_iff.1 hf
      have hg : g.fused? = some s := fused?_eq_some.2 (by rw [fused?_eq_some.1 hf, hsum])
      exact canonical_eq_of_fused hf hg

theorem canonical_canonical (w : Weights) (f : Fusion) :
    (f.canonical w).canonical w = f.canonical w := by
  have hfused := keepsFused_canonical w f
  cases hf : f.fused? with
  | none => rw [canonical_of_not_fused (hfused.trans hf)]
  | some s => exact canonical_eq_of_fused (hfused.trans hf) hf

end Fusion

namespace Term

mutual

/-- The sums of the well-formed fusions of a term, those in operators included, in the order in
which canonicalization comes to them. -/
def fusedSums : Term → List Nat
  | .noun _ | .adj _ => []
  | .chain o os e => fusedSumsAll os ++ o.fusedSums ++ e.fusedSums
  | .fusion f => (f.fused?.map Prime.val).toList
  | .sentence e => e.fusedSums
  | .join _ l r => l.fusedSums ++ r.fusedSums

/-- The sums of the well-formed fusions of operators. -/
def fusedSumsAll : List Term → List Nat
  | [] => []
  | o :: os => fusedSumsAll os ++ o.fusedSums

end

end Term

/-! ## Canonicalizers -/

namespace Canonicalizer

variable {c : Canonicalizer} {w : Weights}

/-- The canonicalizers with the given weights: a new one, and one that was used. -/
inductive Reached (w : Weights) : Canonicalizer → Prop where
  | new : Reached w (ofWeights w)
  | triads {c c' : Canonicalizer} {n : Nat} {ts : List Triad} (h : Reached w c)
    (hcall : c.triads n = .ok (ts, c')) : Reached w c'
  | canonical {c c' : Canonicalizer} {n : Nat} {t : Option Triad} (h : Reached w c)
    (hcall : c.canonical n = .ok (t, c')) : Reached w c'
  | canonicalize {c c' : Canonicalizer} {t u : Term} (h : Reached w c)
    (hcall : c.canonicalize t = .ok (u, c')) : Reached w c'

/-- The canonicalizer has the given weights and remembers no triads but those of the enumeration. -/
structure Faithful (c : Canonicalizer) (w : Weights) : Prop where
  weights_eq : c.weights = w
  memo_eq : ∀ n ts, c.memo[n]? = some ts → ts = Triad.enumerate n

theorem faithful_ofWeights (w : Weights) : (ofWeights w).Faithful w :=
  ⟨rfl, fun n ts h => by simp [ofWeights] at h⟩

/-- A faithful canonicalizer is used and remembers the targets `ns` besides what it remembered. -/
structure Learns (w : Weights) (c : Canonicalizer) (ns : List Nat) (c' : Canonicalizer) : Prop where
  faithful : c'.Faithful w
  mem_iff : ∀ n, n ∈ c'.memo ↔ n ∈ c.memo ∨ n ∈ ns

theorem Faithful.learns_nil (h : c.Faithful w) : Learns w c [] c :=
  ⟨h, fun n => by simp⟩

theorem Learns.trans {c₁ c₂ : Canonicalizer} {ns ms : List Nat} (h₁ : Learns w c ns c₁)
    (h₂ : Learns w c₁ ms c₂) : Learns w c (ns ++ ms) c₂ :=
  ⟨h₂.faithful, fun n => by rw [h₂.mem_iff, h₁.mem_iff, List.mem_append, or_assoc]⟩

theorem Faithful.insert (h : c.Faithful w) (n : Nat) :
    Learns w c [n] { c with memo := c.memo.insert n (Triad.enumerate n) } := by
  refine ⟨⟨h.weights_eq, fun m ts hm => ?_⟩, fun m => ?_⟩
  · rw [Std.HashMap.getElem?_insert] at hm
    split at hm
    · next hbeq =>
      cases hm
      rw [eq_of_beq hbeq]
    · exact h.memo_eq m ts hm
  · rw [Std.HashMap.mem_insert, beq_iff_eq, List.mem_singleton, or_comm, eq_comm]

/-- The triads of a prime are those of the enumeration, remembered or not. -/
theorem Faithful.triads (h : c.Faithful w) (p : Prime) :
    ∃ c', c.triads p.val = .ok (Triad.enumerate p.val, c') ∧ Learns w c [p.val] c' := by
  rw [Canonicalizer.triads, Prime.ofNat_val]
  cases hm : c.memo[p.val]? with
  | none => exact ⟨_, rfl, h.insert p.val⟩
  | some ts =>
    refine ⟨c, by rw [h.memo_eq p.val ts hm], h, fun n => ?_⟩
    have hmem : p.val ∈ c.memo := Std.HashMap.mem_iff_isSome_getElem?.2 (by rw [hm]; rfl)
    rw [List.mem_singleton]
    exact ⟨Or.inl, fun hn => hn.elim id fun heq => heq ▸ hmem⟩

/-- The canonical triad of a prime is selected from all of them. -/
theorem Faithful.canonical (h : c.Faithful w) (p : Prime) :
    ∃ c', c.canonical p.val =
        .ok (selectBest (Triad.score w) Triad.withinTolerance (Triad.enumerate p.val), c') ∧
      Learns w c [p.val] c' := by
  obtain ⟨c', hc', hlearns⟩ := h.triads p
  refine ⟨c', ?_, hlearns⟩
  simp only [Canonicalizer.canonical, hc', hlearns.faithful.weights_eq]

theorem Faithful.of_triads {c' : Canonicalizer} {n : Nat} {ts : List Triad} (h : c.Faithful w)
    (hcall : c.triads n = .ok (ts, c')) : c'.Faithful w := by
  cases hn : Prime.ofNat n with
  | error err =>
    rw [Canonicalizer.triads, hn] at hcall
    cases hcall
  | ok p =>
    obtain rfl := Prime.val_of_ofNat hn
    obtain ⟨c'', hc'', hlearns⟩ := h.triads p
    rw [hc''] at hcall
    cases hcall
    exact hlearns.faithful

theorem Faithful.canonicalFusion (h : c.Faithful w) (f : Fusion) :
    ∃ c', c.canonicalFusion f = .ok (.fusion (f.canonical w), c') ∧
      Learns w c (Term.fusion f).fusedSums c' := by
  rw [Term.fusedSums]
  cases hf : f.fused? with
  | none =>
    refine ⟨c, ?_, h.learns_nil⟩
    rw [Canonicalizer.canonicalFusion, hf, Fusion.canonical_of_not_fused hf]
  | some s =>
    obtain ⟨t, htriad, _, hterm, _⟩ := Fusion.canonical_of_fused w hf
    obtain ⟨c', hc', hlearns⟩ := h.canonical s
    refine ⟨c', ?_, hlearns⟩
    rw [Fusion.canonicalTriad?, hf] at htriad
    have hsel : selectBest (Triad.score w) Triad.withinTolerance (Triad.enumerate s.val) = some t :=
      htriad
    simp only [Canonicalizer.canonicalFusion, hf, hc', hsel, hterm]
    rfl

theorem canonicalizeAll_learns {ts : List Term}
    (ih : ∀ t ∈ ts, ∀ c : Canonicalizer, c.Faithful w → ∃ c',
      c.canonicalize t = .ok (t.mapFusions (Fusion.canonical w), c') ∧ Learns w c t.fusedSums c')
    (h : c.Faithful w) :
    ∃ c', c.canonicalizeAll ts = .ok (Term.mapFusionsAll (Fusion.canonical w) ts, c') ∧
      Learns w c (Term.fusedSumsAll ts) c' := by
  induction ts with
  | nil => exact ⟨c, rfl, h.learns_nil⟩
  | cons t ts ihs =>
    obtain ⟨iht, ihts⟩ := List.forall_mem_cons.1 ih
    obtain ⟨c₁, hts, h₁⟩ := ihs ihts
    obtain ⟨c₂, ht, h₂⟩ := iht c₁ h₁.faithful
    refine ⟨c₂, ?_, h₁.trans h₂⟩
    rw [canonicalizeAll, hts]
    simp only [bind, Except.bind, ht]
    rfl

/-- **Canonicalization never fails, replaces fusions by their canonical forms and remembers their
sums**, whatever the canonicalizer was used for before. -/
theorem canonicalize_learns (h : c.Faithful w) (t : Term) :
    ∃ c', c.canonicalize t = .ok (t.mapFusions (Fusion.canonical w), c') ∧
      Learns w c t.fusedSums c' := by
  induction t using Term.induction generalizing c with
  | noun | adj => exact ⟨c, rfl, h.learns_nil⟩
  | chain o os e iho ihos ihe =>
    obtain ⟨c₁, hos, h₁⟩ := canonicalizeAll_learns (fun t ht c hc => ihos t ht hc) h
    obtain ⟨c₂, ho, h₂⟩ := iho h₁.faithful
    obtain ⟨c₃, he, h₃⟩ := ihe h₂.faithful
    refine ⟨c₃, ?_, (h₁.trans h₂).trans h₃⟩
    rw [canonicalize, hos]
    simp only [bind, Except.bind, ho, he]
    rfl
  | fusion f => exact h.canonicalFusion f
  | sentence e ih =>
    obtain ⟨c₁, he, h₁⟩ := ih h
    refine ⟨c₁, ?_, h₁⟩
    rw [canonicalize, he]
    rfl
  | join k l r ihl ihr =>
    obtain ⟨c₁, hl, h₁⟩ := ihl h
    obtain ⟨c₂, hr, h₂⟩ := ihr h₁.faithful
    refine ⟨c₂, ?_, h₁.trans h₂⟩
    rw [canonicalize, hl]
    simp only [bind, Except.bind, hr]
    rfl

theorem canonicalize_eq (h : c.Faithful w) (t : Term) :
    ∃ c', c.canonicalize t = .ok (t.mapFusions (Fusion.canonical w), c') ∧ c'.Faithful w :=
  let ⟨c', hcall, hlearns⟩ := canonicalize_learns h t
  ⟨c', hcall, hlearns.faithful⟩

/-- **No use makes a canonicalizer remember anything else.** -/
theorem Reached.faithful (h : Reached w c) : c.Faithful w := by
  induction h with
  | new => exact faithful_ofWeights w
  | triads _ hcall ih => exact ih.of_triads hcall
  | @canonical c c' n t _ hcall ih =>
    rw [Canonicalizer.canonical] at hcall
    cases htriads : c.triads n with
    | error err =>
      rw [htriads] at hcall
      cases hcall
    | ok r =>
      rw [htriads] at hcall
      cases hcall
      exact ih.of_triads htriads
  | canonicalize _ hcall ih =>
    obtain ⟨c', hc', hfaithful⟩ := canonicalize_eq ih _
    rw [hc'] at hcall
    cases hcall
    exact hfaithful

end Canonicalizer

/-! ## Main results -/

/-- **Canonicalization preserves meaning.**  It never fails, and neither shape, size and measure nor
the inferred type and the meaning change; a normalization takes the same rules at the same places to
the same terminal term.  Where typing, meaning or normalization fail, they fail with the same cause.
None of it depends on the scores. -/
theorem canonicalize_preserves (w : Weights) (c : Canonicalizer) (hc : Canonicalizer.Reached w c)
    (t : Term) :
    ∃ u c', c.canonicalize t = .ok (u, c') ∧
      u.shape = t.shape ∧ u.size = t.size ∧ u.measure = t.measure ∧
      Corresponds Eq (infer .empty u) (infer .empty t) ∧
      (∀ operator, Corresponds Eq (u.meaning operator) (t.meaning operator)) ∧
      ∀ e : Engine,
        Corresponds
          (fun x y => x.final = y.final ∧ x.steps.map Step.outline = y.steps.map Step.outline)
          (e.normalize u) (e.normalize t) := by
  obtain ⟨c', hc', _⟩ := Canonicalizer.canonicalize_eq hc.faithful t
  have hkeeps := Fusion.keepsFused_canonical w
  exact ⟨_, c', hc', Term.shape_mapFusions t, Term.weight_mapFusions 1 t,
    Term.weight_mapFusions 2 t, infer_mapFusions hkeeps t,
    fun operator => meaning_mapFusions hkeeps operator t,
    fun e => Engine.normalize_mapFusions hkeeps e t⟩

namespace OverlappingRedexes

/-- What `fusion23` fuses to. -/
def p23 : Prime := .ofAccepted 23 (by decide)

/-- Another fusion to 23, with its components out of order. -/
def wide23 : Fusion := ⟨p13, p3, p7, by decide, by decide⟩

/-- An adjective over the other fusion to 23. -/
def overWide23 : Term := sentenceOver [p2] (.fusion wide23)

/-- The same over `fusion23`. -/
def over23 : Term := sentenceOver [p2] fusion23

/-- The same over `fusion19`. -/
def over19 : Term := sentenceOver [p2] fusion19

end OverlappingRedexes

open OverlappingRedexes in
/-- An adjective over a fusion whose components are out of order. -/
theorem canonicalize_preserves_wide :
    Canonicalizer.Reached .standard (.ofWeights .standard) ∧
    ∃ u c', (Canonicalizer.ofWeights .standard).canonicalize overWide23 = .ok (u, c') ∧
      u.shape = "noun sentence" ∧ u.size = 2 ∧
      infer .empty u = .ok (.sentence .atomic) ∧
      ∃ x, (Engine.mk .identity 2 .leftmostFirst).normalize u = .ok x ∧
        x.final = .sentence (.noun p23) ∧
        x.steps.map Step.outline = [(.fuse, [.body, .noun]), (.apply, [.body])] := by
  obtain ⟨u, c', hu, hshape, hsize, _, htype, _, hnorm⟩ :=
    canonicalize_preserves .standard (.ofWeights .standard) .new overWide23
  have hok : infer .empty overWide23 = .ok (.sentence .atomic) :=
    infer_empty_iff.2 (.sentence (.chain (by simp) (.fusion (p := p23) rfl)))
  rw [hok] at htype
  obtain ⟨ty, hty, rfl⟩ := htype.exists_ok
  obtain ⟨x, hx, hfinal, hsteps⟩ := (hnorm (Engine.mk .identity 2 .leftmostFirst)).exists_ok
  exact ⟨.new, u, c', hu, hshape, hsize, hty, x, hx, hfinal, hsteps⟩

/-- **Canonical forms are complete invariants.**  Two canonicalizers with the same weights, whatever
they were used for, never fail; a canonical form represents the term at every fusion; two terms have
one canonical form exactly when they are the same up to interchangeable fusions; and a canonical
form is its own. -/
theorem canonicalize_complete (w : Weights) (c c' : Canonicalizer)
    (hc : Canonicalizer.Reached w c) (hc' : Canonicalizer.Reached w c') (t u : Term) :
    ∃ x y c₁ c₂, c.canonicalize t = .ok (x, c₁) ∧ c'.canonicalize u = .ok (y, c₂) ∧
      Term.Related Fusion.Represents t x ∧
      (x = y ↔ Term.Related Fusion.Interchangeable t u) ∧
      ∃ c₃, c₁.canonicalize x = .ok (x, c₃) := by
  obtain ⟨c₁, h₁, hfaithful₁⟩ := Canonicalizer.canonicalize_eq hc.faithful t
  obtain ⟨c₂, h₂, _⟩ := Canonicalizer.canonicalize_eq hc'.faithful u
  obtain ⟨c₃, h₃, _⟩ :=
    Canonicalizer.canonicalize_eq hfaithful₁ (t.mapFusions (Fusion.canonical w))
  rw [Term.mapFusions_idem (Fusion.canonical_canonical w)] at h₃
  exact ⟨_, _, c₁, c₂, h₁, h₂, Term.related_mapFusions (Fusion.represents_canonical w) t,
    Term.mapFusions_eq_iff (fun _ _ => Fusion.canonical_eq_iff) t u, c₃, h₃⟩

open OverlappingRedexes in
/-- Two fusions to 23 have one canonical form, for a canonicalizer that was used before too; a
fusion to 19 has another one. -/
theorem canonicalize_complete_wide :
    ∃ c, Canonicalizer.Reached .standard c ∧
      (∃ x c₁ c₂, c.canonicalize overWide23 = .ok (x, c₁) ∧
        (Canonicalizer.ofWeights .standard).canonicalize over23 = .ok (x, c₂)) ∧
      ∃ x y c₁ c₂, c.canonicalize overWide23 = .ok (x, c₁) ∧
        (Canonicalizer.ofWeights .standard).canonicalize over19 = .ok (y, c₂) ∧ x ≠ y := by
  obtain ⟨_, _, c, _, hused, _⟩ :=
    canonicalize_complete .standard _ _ .new .new overWide23 overWide23
  have hc : Canonicalizer.Reached .standard c := .canonicalize .new hused
  refine ⟨c, hc, ?_, ?_⟩
  · obtain ⟨x, y, c₁, c₂, hx, hy, _, heq, _⟩ :=
      canonicalize_complete .standard c _ hc .new overWide23 over23
    have hrel : Term.Related Fusion.Interchangeable overWide23 over23 :=
      .sentence (.chain (.adj p2) .nil (.fusion (Or.inr ⟨by decide, by decide, rfl⟩)))
    obtain rfl := heq.2 hrel
    exact ⟨x, c₁, c₂, hx, hy⟩
  · obtain ⟨x, y, c₁, c₂, hx, hy, _, heq, _⟩ :=
      canonicalize_complete .standard c _ hc .new overWide23 over19
    refine ⟨x, y, c₁, c₂, hx, hy, fun hxy => ?_⟩
    cases heq.1 hxy with
    | sentence hbody =>
      cases hbody with
      | chain _ _ hnoun =>
        cases hnoun with
        | fusion h =>
          rcases h with hsame | ⟨_, _, hsum⟩
          · exact absurd hsame (by decide)
          · exact absurd hsum (by decide)

end PrimeLanguage
