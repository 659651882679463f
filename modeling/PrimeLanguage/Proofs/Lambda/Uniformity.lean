import PrimeLanguage.Proofs.Lambda.Adequacy
import PrimeLanguage.Proofs.Lambda.AlphaEquality
import PrimeLanguage.Proofs.Reduction.Confluence

/-!
# What the meaning of a term depends on

The bound names of a meaning are numbered by a supply that is handed from one part of the term to
the next, so that a part has other names where it stands later.  Nothing else depends on the supply,
and nothing but the constants depends on the primes of the term.

* `SameResult` — two results that both fail, with the same error, or both succeed, with related
  values;
* `Expr.binders`, `Term.adjectives` — the parameters of an expression, and the number of adjectives
  in a term; `Expr.NamedBy` says that a supply has counted the former off;
* `Term.blank`, `Expr.blank` — a term or an expression without its primes.

By induction on the term: `sameResult_meaningFrom` for the supply, `namedBy_meaningFrom` for the
names, `meaningFrom_blank` for the primes.

Principal result: `meaning_uniform`.
-/

namespace PrimeLanguage

open OverlappingRedexes (p19 fusion19)

variable {operator : String} {t : Term} {os : List Term} {e e' f l r : Expr}
  {s s' s₁ : NameSupply} {m n : Nat}

/-- The name of the parameter that a supply makes for an adjective. -/
def parameterName (n : Nat) : String := NameSupply.numbered ['x'] n

/-- An adjective takes the next number for its parameter. -/
theorem adjectiveMeaning_eq (operator : String) (p : Prime) (s : NameSupply) :
    adjectiveMeaning operator p s =
      (.lam (parameterName s.next) (.prim operator (.const p) (.var (parameterName s.next))),
        ⟨s.next + 1⟩) := by
  have hstem : NameSupply.stem "x" = ['x'] := by decide
  obtain ⟨k, hk, hpick, _, hpassed⟩ := NameSupply.pick_eq ['x'] s.next []
  have hnext : k = s.next := by
    by_contra hne
    exact List.not_mem_nil (hpassed s.next (Nat.le_refl _) (by omega))
  simp only [adjectiveMeaning, NameSupply.fresh, hstem, hpick, hnext, parameterName]

/-! ## The supply does not matter -/

/-- Both results fail with the same error, or both succeed with related values. -/
inductive SameResult {α β : Type} (R : α → β → Prop) : Except Error α → Except Error β → Prop where
  | ok {a : α} {b : β} (h : R a b) : SameResult R (.ok a) (.ok b)
  | error (err : Error) : SameResult R (.error err) (.error err)

theorem SameResult.bind {α β γ δ : Type} {R : α → β → Prop} {S : γ → δ → Prop}
    {x : Except Error α} {y : Except Error β} {g : α → Except Error γ} {g' : β → Except Error δ}
    (h : SameResult R x y) (hg : ∀ a b, R a b → SameResult S (g a) (g' b)) :
    SameResult S (x >>= g) (y >>= g') := by
  cases h with
  | ok h => exact hg _ _ h
  | error err => exact .error err

/-- The expressions are equal up to bound names, whatever supplies go with them. -/
def UpToNames (x y : Expr × NameSupply) : Prop := x.1.alphaEq y.1 = true

theorem alphaEq_adjectiveMeaning (operator : String) (p : Prime) (s s' : NameSupply) :
    UpToNames (adjectiveMeaning operator p s) (adjectiveMeaning operator p s') := by
  rw [UpToNames, adjectiveMeaning_eq, adjectiveMeaning_eq, Expr.alphaEq_iff]
  simp only [Expr.nameless_lam, Expr.nameless_prim, Expr.nameless_const, Expr.nameless_var,
    Nameless.close, if_true]

theorem sameResult_applyMeanings (operator : String) (os : List Term) (h : e.alphaEq e' = true)
    (s s' : NameSupply) :
    SameResult UpToNames (applyMeanings operator os e s) (applyMeanings operator os e' s') := by
  induction os generalizing e e' s s' with
  | nil => exact .ok h
  | cons o os ih =>
    cases o with
    | adj p =>
      have hf := alphaEq_adjectiveMeaning operator p s s'
      exact ih (Expr.alphaEq_congruence.app hf h) _ _
    | noun | chain | fusion | sentence | join => exact .error _

/-- **The supply shows in the bound names only.** -/
theorem sameResult_meaningFrom (operator : String) (t : Term) (s s' : NameSupply) :
    SameResult UpToNames (t.meaningFrom operator s) (t.meaningFrom operator s') := by
  induction t using Term.induction generalizing s s' with
  | noun p => exact .ok (Expr.alphaEq_equivalence.refl _)
  | adj p => exact .ok (alphaEq_adjectiveMeaning operator p s s')
  | chain o os e _ _ ih =>
    rw [Term.meaningFrom, Term.meaningFrom]
    split
    · exact (ih s s').bind fun x y h => sameResult_applyMeanings operator (o :: os) h x.2 y.2
    · exact .error _
  | fusion f =>
    rw [Term.meaningFrom, Term.meaningFrom]
    cases f.fused? with
    | none => exact .error _
    | some p => exact .ok (Expr.alphaEq_equivalence.refl _)
  | sentence e ih => exact ih s s'
  | join c l r ihl ihr =>
    refine (ihl s s').bind fun x y hl => (ihr x.2 y.2).bind fun x' y' hr => ?_
    exact .ok (Expr.alphaEq_congruence.join c hl hr)

/-! ## Binders -/

/-- The parameters of the abstractions in an expression, from left to right. -/
def Expr.binders : Expr → List String
  | .var _ | .const _ => []
  | .lam x b => x :: b.binders
  | .app l r | .join _ l r | .prim _ l r => l.binders ++ r.binders

mutual

/-- The number of adjectives in a term. -/
def Term.adjectives : Term → Nat
  | .noun _ | .fusion _ => 0
  | .adj _ => 1
  | .chain o os e => e.adjectives + (o.adjectives + adjectivesAll os)
  | .sentence e => e.adjectives
  | .join _ l r => l.adjectives + r.adjectives

/-- The number of adjectives in a list of terms. -/
def adjectivesAll : List Term → Nat
  | [] => 0
  | t :: ts => t.adjectives + adjectivesAll ts

end

/-- The names that a supply makes for the parameters of `n` adjectives. -/
def parameterNames (s : NameSupply) (n : Nat) : List String :=
  (List.range' s.next n).map parameterName

theorem nodup_parameterNames (s : NameSupply) (n : Nat) : (parameterNames s n).Nodup :=
  List.Nodup.map (NameSupply.numbered_injective ['x']) List.nodup_range'

theorem parameterNames_append (h : s₁.next = s.next + m) :
    parameterNames s m ++ parameterNames s₁ n = parameterNames s (m + n) := by
  rw [parameterNames, parameterNames, parameterNames, ← List.map_append, h, List.range'_append_1]

/-- A closed expression with `n` binders, whose names are those that the supply `s` makes on its way
to `s'`. -/
structure Expr.NamedBy (s s' : NameSupply) (n : Nat) (e : Expr) : Prop where
  closed : e.free = []
  binders : e.binders.Perm (parameterNames s n)
  next : s'.next = s.next + n

namespace Expr.NamedBy

theorem const (p : Prime) (s : NameSupply) : NamedBy s s 0 (.const p) := ⟨rfl, .refl _, rfl⟩

theorem adjective (operator : String) (p : Prime) (s : NameSupply) :
    NamedBy s (adjectiveMeaning operator p s).2 1 (adjectiveMeaning operator p s).1 := by
  rw [adjectiveMeaning_eq]
  refine ⟨?_, .refl _, rfl⟩
  simp [Expr.free]

/-- The names of one part go on after those of the other. -/
theorem binders_append (hl : NamedBy s s₁ m l) (hr : NamedBy s₁ s' n r) :
    (l.binders ++ r.binders).Perm (parameterNames s (m + n)) := by
  rw [← parameterNames_append hl.next]
  exact hl.binders.append hr.binders

theorem join (c : Connective) (hl : NamedBy s s₁ m l) (hr : NamedBy s₁ s' n r) :
    NamedBy s s' (m + n) (.join c l r) := by
  refine ⟨?_, hl.binders_append hr, ?_⟩
  · rw [Expr.free, hl.closed, hr.closed, List.append_nil]
  · rw [hr.next, hl.next, Nat.add_assoc]

/-- The function of an application is named after its argument. -/
theorem app (he : NamedBy s s₁ m e) (hf : NamedBy s₁ s' n f) :
    NamedBy s s' (m + n) (.app f e) := by
  refine ⟨?_, List.perm_append_comm.trans (he.binders_append hf), ?_⟩
  · rw [Expr.free, he.closed, hf.closed, List.append_nil]
  · rw [hf.next, he.next, Nat.add_assoc]

end Expr.NamedBy

theorem namedBy_applyMeanings (he : e.NamedBy s s₁ m)
    (h : applyMeanings operator os e s₁ = .ok (e', s')) :
    e'.NamedBy s s' (m + adjectivesAll os) := by
  induction os generalizing e s₁ m with
  | nil => cases h; exact he
  | cons o os ih =>
    cases o with
    | adj p =>
      have hnamed := ih (he.app (.adjective operator p s₁)) h
      rwa [Nat.add_assoc] at hnamed
    | noun | chain | fusion | sentence | join => cases h

/-- **A meaning is closed, and has one binder for each adjective**, named by the supply. -/
theorem namedBy_meaningFrom (h : t.meaningFrom operator s = .ok (e, s')) :
    e.NamedBy s s' t.adjectives := by
  induction t using Term.induction generalizing s e s' with
  | noun p => cases h; exact .const p s
  | adj p => cases h; exact .adjective operator p s
  | chain o os t _ _ ih =>
    obtain ⟨e₁, s₁, he, happ⟩ := Operator.meaningFrom_chain_eq_ok h
    exact namedBy_applyMeanings (ih he) happ
  | fusion f =>
    rw [Term.meaningFrom] at h
    cases hf : f.fused? with
    | none => rw [hf] at h; cases h
    | some p => rw [hf] at h; cases h; exact .const p s
  | sentence t ih => exact ih h
  | join c l r ihl ihr =>
    obtain ⟨⟨e₁, s₁⟩, hl, h⟩ := bind_eq_ok_iff.1 h
    obtain ⟨⟨e₂, s₂⟩, hr, h⟩ := bind_eq_ok_iff.1 h
    cases h
    exact (ihl hl).join c (ihr hr)

/-! ## Primes -/

mutual

/-- The term without its primes: one noun, one adjective and one fusion in the place of all. -/
def Term.blank : Term → Term
  | .noun _ => .noun p19
  | .adj _ => .adj p19
  | .chain o os e => .chain o.blank (blankAll os) e.blank
  | .fusion _ => fusion19
  | .sentence e => .sentence e.blank
  | .join c l r => .join c l.blank r.blank

/-- The terms of a list without their primes. -/
def blankAll : List Term → List Term
  | [] => []
  | t :: ts => t.blank :: blankAll ts

end

/-- The expression without its primes: one constant in the place of all. -/
def Expr.blank : Expr → Expr
  | .var x => .var x
  | .const _ => .const p19
  | .lam x b => .lam x b.blank
  | .app f a => .app f.blank a.blank
  | .join c l r => .join c l.blank r.blank
  | .prim o l r => .prim o l.blank r.blank

theorem isNounShaped_blank (t : Term) : t.blank.isNounShaped = t.isNounShaped := by
  cases t <;> rfl

theorem blank_adjectiveMeaning (operator : String) (p : Prime) (s : NameSupply) :
    adjectiveMeaning operator p19 s =
      ((adjectiveMeaning operator p s).1.blank, (adjectiveMeaning operator p s).2) := by
  rw [adjectiveMeaning_eq, adjectiveMeaning_eq]
  rfl

theorem applyMeanings_blank (h : applyMeanings operator os e s = .ok (e', s')) :
    applyMeanings operator (blankAll os) e.blank s = .ok (e'.blank, s') := by
  induction os generalizing e s with
  | nil => cases h; rfl
  | cons o os ih =>
    cases o with
    | adj p =>
      rw [blankAll, Term.blank, applyMeanings, blank_adjectiveMeaning operator p s]
      exact ih h
    | noun | chain | fusion | sentence | join => cases h

theorem meaningFrom_fusion19 (operator : String) (s : NameSupply) :
    fusion19.meaningFrom operator s = .ok (.const p19, s) := by
  rfl

/-- **The primes of a term show in the constants only**: they can be taken away before or after. -/
theorem meaningFrom_blank (h : t.meaningFrom operator s = .ok (e, s')) :
    t.blank.meaningFrom operator s = .ok (e.blank, s') := by
  induction t using Term.induction generalizing s e s' with
  | noun p => cases h; rfl
  | adj p =>
    cases h
    exact congrArg Except.ok (blank_adjectiveMeaning operator p s)
  | chain o os t _ _ ih =>
    rw [Term.meaningFrom] at h
    split at h
    · rename_i hshape
      obtain ⟨⟨e₁, s₁⟩, he, happ⟩ := bind_eq_ok_iff.1 h
      rw [Term.blank, Term.meaningFrom, isNounShaped_blank, if_pos hshape]
      exact bind_eq_ok_iff.2 ⟨_, ih he, applyMeanings_blank happ⟩
    · cases h
  | fusion f =>
    rw [Term.meaningFrom] at h
    cases hf : f.fused? with
    | none => rw [hf] at h; cases h
    | some p =>
      rw [hf] at h
      cases h
      exact meaningFrom_fusion19 operator s
  | sentence t ih => exact ih h
  | join c l r ihl ihr =>
    obtain ⟨⟨e₁, s₁⟩, hl, h⟩ := bind_eq_ok_iff.1 h
    obtain ⟨⟨e₂, s₂⟩, hr, h⟩ := bind_eq_ok_iff.1 h
    cases h
    exact bind_eq_ok_iff.2 ⟨_, ihl hl, bind_eq_ok_iff.2 ⟨_, ihr hr, rfl⟩⟩

/-- **The meaning of a term depends on its shape alone**, up to bound names and constants.  From any
two supplies it fails with the same error or succeeds with expressions that are equal up to bound
names.  If it succeeds, the expression is closed and has one abstraction for each adjective of the
term, all with different parameters.  Terms that are the same but for their primes have meanings
that are the same but for their constants, if both have one. -/
theorem meaning_uniform (operator : String) (t : Term) (s : NameSupply) :
    (∀ s', SameResult UpToNames (t.meaningFrom operator s) (t.meaningFrom operator s')) ∧
    (∀ e s', t.meaningFrom operator s = .ok (e, s') →
      e.free = [] ∧ e.binders.length = t.adjectives ∧ e.binders.Nodup) ∧
    ∀ (u : Term) e e' s₁ s₂, t.blank = u.blank → t.meaningFrom operator s = .ok (e, s₁) →
      u.meaningFrom operator s = .ok (e', s₂) → e.blank = e'.blank := by
  refine ⟨sameResult_meaningFrom operator t s, fun e s' h => ?_, fun u e e' s₁ s₂ hu h h' => ?_⟩
  · have hnamed := namedBy_meaningFrom h
    refine ⟨hnamed.closed, ?_, hnamed.binders.nodup_iff.2 (nodup_parameterNames _ _)⟩
    rw [hnamed.binders.length_eq, parameterNames, List.length_map, List.length_range']
  · have hblank := meaningFrom_blank h
    rw [hu, meaningFrom_blank h'] at hblank
    exact (congrArg Prod.fst (Except.ok.inj hblank)).symm

open OverlappingRedexes in
/-- An implication between two sentences, the first one over a fusion. -/
def implicationOver (p q : Prime) (fusion : Term) (r v : Prime) : Term :=
  .join .imp (sentenceOver [p, q] fusion) (sentenceOver [r] (.noun v))

open OverlappingRedexes in
/-- Sentences of one shape with different primes, and the names from another supply. -/
theorem meaning_uniform_implications :
    ∃ e e' s₁ s₂,
      (implicationOver p2 p3 fusion19 p5 p7).blank = (implicationOver p7 p5 fusion23 p2 p3).blank ∧
      (implicationOver p2 p3 fusion19 p5 p7).meaningFrom "identity" ⟨4⟩ = .ok (e, s₁) ∧
      (implicationOver p7 p5 fusion23 p2 p3).meaningFrom "identity" ⟨4⟩ = .ok (e', s₂) ∧
      e.blank = e'.blank ∧ e.binders = ["x5", "x4", "x6"] ∧ e.binders.Nodup ∧
      SameResult UpToNames ((implicationOver p2 p3 fusion19 p5 p7).meaningFrom "identity" ⟨4⟩)
        ((implicationOver p2 p3 fusion19 p5 p7).meaningFrom "identity" ⟨0⟩) := by
  obtain ⟨hsupply, hclosed, hblank⟩ :=
    meaning_uniform "identity" (implicationOver p2 p3 fusion19 p5 p7) ⟨4⟩
  have hnames : ((implicationOver p2 p3 fusion19 p5 p7).meaningFrom "identity" ⟨4⟩).map
      (fun r => r.1.binders) = .ok ["x5", "x4", "x6"] :=
    toOption_eq_some_iff.1 (by decide +kernel)
  have hnames' : ((implicationOver p7 p5 fusion23 p2 p3).meaningFrom "identity" ⟨4⟩).map
      (fun r => r.1.binders) = .ok ["x5", "x4", "x6"] :=
    toOption_eq_some_iff.1 (by decide +kernel)
  obtain ⟨⟨e, s₁⟩, he, hbinders⟩ := map_eq_ok_iff.1 hnames
  obtain ⟨⟨e', s₂⟩, he', _⟩ := map_eq_ok_iff.1 hnames'
  have hsame := hblank (implicationOver p7 p5 fusion23 p2 p3) e e' s₁ s₂ rfl he he'
  exact ⟨e, e', s₁, s₂, rfl, he, he', hsame, hbinders, (hclosed e s₁ he).2.2, hsupply ⟨0⟩⟩

end PrimeLanguage
