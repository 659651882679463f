import PrimeLanguage.Typing.Infer
import PrimeLanguage.Proofs.Results

/-!
# Typing derivations

The types that inference finds without annotations, as derivations.

* `HasType` — the typing rules; operators of a chain are adjectives, since nothing else has the type
  of one;
* `infer_chain_eq_ok_iff`, `inferOperators_eq_ok_iff`, `infer_sentence_eq_ok_iff`,
  `infer_join_eq_ok_iff` — when inference succeeds, in any context.

Principal result: `infer_empty_iff`.
-/

namespace PrimeLanguage

/-! ## Expectations -/

theorem Ty.kind_eq_noun_iff {ty : Ty} : ty.kind = .noun ↔ ∃ i, ty = .noun i := by
  cases ty <;> simp [Ty.kind]

theorem Ty.kind_eq_adj_iff {ty : Ty} : ty.kind = .adj ↔ ∃ p, ty = .adj p := by
  cases ty <;> simp [Ty.kind]

theorem Ty.expect_eq_ok_iff {kind : Kind} {t : Term} {ty : Ty} {u : Unit} :
    ty.expect kind t = .ok u ↔ ty.kind = kind := by
  unfold Ty.expect
  split <;> simp [*]

theorem Ty.expectSentence_eq_ok_iff {t : Term} {ty : Ty} {s : SentenceTy} :
    ty.expectSentence t = .ok s ↔ ty = .sentence s := by
  cases ty <;> simp [Ty.expectSentence]

@[simp] theorem Context.confirm_empty (t : Term) (ty : Ty) :
    Context.empty.confirm t ty = .ok ty := by
  simp [Context.confirm, Context.lookup?, Context.empty]

/-! ## When inference succeeds -/

section Infer

variable {Γ : Context} {o e l r : Term} {os : List Term} {c : Connective} {ty : Ty}

theorem inferOperators_eq_ok_iff {u : Unit} :
    inferOperators Γ os = .ok u ↔ ∀ o ∈ os, ∃ p, infer Γ o = .ok (.adj p) := by
  induction os with
  | nil => simp [inferOperators]
  | cons o os ih =>
    simp only [inferOperators, bind_eq_ok_iff, ih, Ty.expect_eq_ok_iff, Ty.kind_eq_adj_iff,
      List.forall_mem_cons]
    constructor
    · rintro ⟨_, hos, ty, ho, p, rfl⟩; exact ⟨⟨p, ho⟩, hos⟩
    · rintro ⟨⟨p, ho⟩, hos⟩; exact ⟨(), hos, .adj p, ho, p, rfl⟩

theorem infer_chain_eq_ok_iff :
    infer Γ (.chain o os e) = .ok ty ↔
      (∀ o' ∈ o :: os, ∃ p, infer Γ o' = .ok (.adj p)) ∧
      (∃ i, infer Γ e = .ok (.noun i)) ∧
      Γ.confirm (.chain o os e) (.noun none) = .ok ty := by
  simp only [infer, bind_eq_ok_iff, inferOperators_eq_ok_iff, Ty.expect_eq_ok_iff,
    Ty.kind_eq_adj_iff, Ty.kind_eq_noun_iff, List.forall_mem_cons]
  constructor
  · rintro ⟨_, hos, _, ho, _, ⟨p, rfl⟩, _, he, _, ⟨i, rfl⟩, h⟩
    exact ⟨⟨⟨p, ho⟩, hos⟩, ⟨i, he⟩, h⟩
  · rintro ⟨⟨⟨p, ho⟩, hos⟩, ⟨i, he⟩, h⟩
    exact ⟨(), hos, .adj p, ho, (), ⟨p, rfl⟩, .noun i, he, (), ⟨i, rfl⟩, h⟩

theorem infer_sentence_eq_ok_iff :
    infer Γ (.sentence e) = .ok ty ↔
      (∃ i, infer Γ e = .ok (.noun i)) ∧
      Γ.confirm (.sentence e) (.sentence .atomic) = .ok ty := by
  simp only [infer, bind_eq_ok_iff, Ty.expect_eq_ok_iff, Ty.kind_eq_noun_iff]
  constructor
  · rintro ⟨_, he, _, ⟨i, rfl⟩, h⟩; exact ⟨⟨i, he⟩, h⟩
  · rintro ⟨⟨i, he⟩, h⟩; exact ⟨.noun i, he, (), ⟨i, rfl⟩, h⟩

theorem infer_join_eq_ok_iff :
    infer Γ (.join c l r) = .ok ty ↔
      ∃ s s', infer Γ l = .ok (.sentence s) ∧ infer Γ r = .ok (.sentence s') ∧
        Γ.confirm (.join c l r) (.sentence (.join c s s')) = .ok ty := by
  simp only [infer, bind_eq_ok_iff, Ty.expectSentence_eq_ok_iff]
  constructor
  · rintro ⟨_, hl, s, rfl, _, hr, s', rfl, h⟩; exact ⟨s, s', hl, hr, h⟩
  · rintro ⟨s, s', hl, hr, h⟩; exact ⟨_, hl, s, rfl, _, hr, s', rfl, h⟩

theorem infer_fusion_eq_ok_iff {f : Fusion} :
    infer Γ (.fusion f) = .ok ty ↔
      ∃ p, f.fused? = some p ∧ Γ.confirm (.fusion f) (.noun (some p)) = .ok ty := by
  simp only [infer]
  cases f.fused? <;> simp

end Infer

/-! ## Derivations -/

/-- The type of a term without annotations. -/
inductive HasType : Term → Ty → Prop where
  | noun (p : Prime) : HasType (.noun p) (.noun (some p))
  | adj (p : Prime) : HasType (.adj p) (.adj p)
  | fusion {f : Fusion} {p : Prime} (h : f.fused? = some p) :
    HasType (.fusion f) (.noun (some p))
  | chain {o e : Term} {os : List Term} {i : Option Prime} (hos : ∀ o' ∈ o :: os, ∃ p, o' = .adj p)
    (he : HasType e (.noun i)) : HasType (.chain o os e) (.noun none)
  | sentence {e : Term} {i : Option Prime} (he : HasType e (.noun i)) :
    HasType (.sentence e) (.sentence .atomic)
  | join {c : Connective} {l r : Term} {s s' : SentenceTy} (hl : HasType l (.sentence s))
    (hr : HasType r (.sentence s')) : HasType (.join c l r) (.sentence (.join c s s'))

/-- Only adjectives have the type of one. -/
theorem HasType.eq_adj {t : Term} {p : Prime} (h : HasType t (.adj p)) : t = .adj p := by
  cases h
  rfl

/-- **Inference without annotations finds the derivable types.** -/
theorem infer_empty_iff {t : Term} {ty : Ty} : infer .empty t = .ok ty ↔ HasType t ty := by
  constructor
  · intro h
    induction t using Term.induction generalizing ty with
    | noun p => rw [infer, Context.confirm_empty] at h; cases h; exact .noun p
    | adj p => rw [infer, Context.confirm_empty] at h; cases h; exact .adj p
    | fusion f =>
      obtain ⟨p, hf, h⟩ := infer_fusion_eq_ok_iff.1 h
      rw [Context.confirm_empty] at h
      cases h
      exact .fusion hf
    | chain o os e iho ihos ihe =>
      obtain ⟨hos, ⟨i, he⟩, h⟩ := infer_chain_eq_ok_iff.1 h
      rw [Context.confirm_empty] at h
      cases h
      refine .chain (fun o' ho' => ?_) (ihe he)
      obtain ⟨p, hp⟩ := hos o' ho'
      rcases List.mem_cons.1 ho' with rfl | hmem
      · exact ⟨p, (iho hp).eq_adj⟩
      · exact ⟨p, (ihos o' hmem hp).eq_adj⟩
    | sentence e ih =>
      obtain ⟨⟨i, he⟩, h⟩ := infer_sentence_eq_ok_iff.1 h
      rw [Context.confirm_empty] at h
      cases h
      exact .sentence (ih he)
    | join c l r ihl ihr =>
      obtain ⟨s, s', hl, hr, h⟩ := infer_join_eq_ok_iff.1 h
      rw [Context.confirm_empty] at h
      cases h
      exact .join (ihl hl) (ihr hr)
  · intro h
    induction h with
    | noun p | adj p => rw [infer, Context.confirm_empty]
    | fusion hf => exact infer_fusion_eq_ok_iff.2 ⟨_, hf, Context.confirm_empty _ _⟩
    | chain hos _ ihe =>
      refine infer_chain_eq_ok_iff.2 ⟨fun o' ho' => ?_, ⟨_, ihe⟩, Context.confirm_empty _ _⟩
      obtain ⟨p, rfl⟩ := hos o' ho'
      exact ⟨p, by rw [infer, Context.confirm_empty]⟩
    | sentence _ ih => exact infer_sentence_eq_ok_iff.2 ⟨⟨_, ih⟩, Context.confirm_empty _ _⟩
    | join _ _ ihl ihr =>
      exact infer_join_eq_ok_iff.2 ⟨_, _, ihl, ihr, Context.confirm_empty _ _⟩

end PrimeLanguage
