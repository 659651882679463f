import PrimeLanguage.Proofs.Reduction.Confluence
import PrimeLanguage.Proofs.Term.Signature
import PrimeLanguage.Proofs.Typing.Derivation

/-!
# Annotations only filter

Inference consults the context at every node, and the type it passes on is the inferred one, not
the annotation.  So an annotation decides whether inference succeeds and never what it finds.

* `Term.Within` — a term stands somewhere in another, operators of chains included;
* `Context.Admits` — every annotation of a term within `t` admits the type of that term without
  annotations; `admits_chain_iff`, `admits_sentence_iff`, `admits_join_iff` take a term apart.

Every form of term infers the same way, from its parts and then against its annotation
(`infer_node_iff`); the induction over the term is `infer_eq_ok_iff`.

Principal result: `annotations_filter`.
-/

namespace PrimeLanguage

/-- `s` is `t`, or stands somewhere in an operator, the noun position or a part of `t`. -/
inductive Term.Within (s : Term) : Term → Prop where
  | here : Within s s
  | operator {o' o e : Term} {os : List Term} (ho : o' ∈ o :: os) (h : Within s o') :
    Within s (.chain o os e)
  | position {o e : Term} {os : List Term} (h : Within s e) : Within s (.chain o os e)
  | body {e : Term} (h : Within s e) : Within s (.sentence e)
  | left {c : Connective} {l r : Term} (h : Within s l) : Within s (.join c l r)
  | right {c : Connective} {l r : Term} (h : Within s r) : Within s (.join c l r)

/-! ## Terms with a type -/

/-- Every term within a term with a type has a type. -/
theorem HasType.of_within {s t : Term} {ty : Ty} (h : HasType t ty) (hs : s.Within t) :
    ∃ ty', HasType s ty' := by
  induction hs generalizing ty with
  | here => exact ⟨ty, h⟩
  | operator ho _ ih =>
    cases h with
    | chain hos he =>
      obtain ⟨p, rfl⟩ := hos _ ho
      exact ih (.adj p)
  | position _ ih => cases h with | chain _ he => exact ih he
  | body _ ih => cases h with | sentence he => exact ih he
  | left _ ih => cases h with | join hl _ => exact ih hl
  | right _ ih => cases h with | join _ hr => exact ih hr

namespace Context

variable {Γ Δ : Context} {t o e l r : Term} {os : List Term} {c : Connective} {ty ty' : Ty}

/-! ## What the annotations of a context admit -/

/-- An annotation of `t` itself admits the type of `t` without annotations. -/
def AdmitsAt (Γ : Context) (t : Term) : Prop :=
  ∀ annotated, Γ.lookup? t = some annotated →
    ∃ ty, infer .empty t = .ok ty ∧ annotated.admits ty = true

/-- Every annotation of a term within `t` admits the type of that term without annotations. -/
def Admits (Γ : Context) (t : Term) : Prop := ∀ s : Term, s.Within t → Γ.AdmitsAt s

theorem Admits.here (h : Γ.Admits t) : Γ.AdmitsAt t := h t .here

theorem admits_chain_iff :
    Γ.Admits (.chain o os e) ↔
      (∀ o' ∈ o :: os, Γ.Admits o') ∧ Γ.Admits e ∧ Γ.AdmitsAt (.chain o os e) := by
  constructor
  · intro h
    exact ⟨fun o' ho' s hs => h s (.operator ho' hs), fun s hs => h s (.position hs), h.here⟩
  · rintro ⟨hos, he, hat⟩ s hs
    cases hs with
    | here => exact hat
    | operator ho' hs => exact hos _ ho' s hs
    | position hs => exact he s hs

theorem admits_sentence_iff :
    Γ.Admits (.sentence e) ↔ Γ.Admits e ∧ Γ.AdmitsAt (.sentence e) := by
  constructor
  · intro h
    exact ⟨fun s hs => h s (.body hs), h.here⟩
  · rintro ⟨he, hat⟩ s hs
    cases hs with
    | here => exact hat
    | body hs => exact he s hs

theorem admits_join_iff :
    Γ.Admits (.join c l r) ↔ Γ.Admits l ∧ Γ.Admits r ∧ Γ.AdmitsAt (.join c l r) := by
  constructor
  · intro h
    exact ⟨fun s hs => h s (.left hs), fun s hs => h s (.right hs), h.here⟩
  · rintro ⟨hl, hr, hat⟩ s hs
    cases hs with
    | here => exact hat
    | left hs => exact hl s hs
    | right hs => exact hr s hs

/-- Of an atom only the annotation of the atom itself counts. -/
theorem admits_atom_iff (ht : ∀ s : Term, s.Within t → s = t) :
    Γ.Admits t ↔ True ∧ Γ.AdmitsAt t := by
  rw [true_and]
  constructor
  · exact Admits.here
  · intro hat s hs
    rw [ht s hs]
    exact hat

/-! ## Inference under a context -/

/-- The check at a node passes on the type of the node or nothing. -/
theorem confirm_eq_ok_iff (h : infer .empty t = .ok ty) :
    Γ.confirm t ty = .ok ty' ↔ ty = ty' ∧ Γ.AdmitsAt t := by
  unfold confirm AdmitsAt
  rw [h]
  cases Γ.lookup? t with
  | none => simp
  | some annotated => by_cases hadm : annotated.admits ty = true <;> simp [hadm]

/-- **One node.**  The type of a node comes from its parts and is checked against the annotation of
the node.  If annotations only filter in the parts, they only filter at the node. -/
theorem infer_node_iff {α : Type} (parts : Context → α → Prop) (own : α → Ty) {inner : Prop}
    (hinfer : ∀ Δ ty, infer Δ t = .ok ty ↔ ∃ a, parts Δ a ∧ Δ.confirm t (own a) = .ok ty)
    (hparts : ∀ a, parts Γ a ↔ parts .empty a ∧ inner)
    (hadmits : Γ.Admits t ↔ inner ∧ Γ.AdmitsAt t) :
    infer Γ t = .ok ty ↔ infer .empty t = .ok ty ∧ Γ.Admits t := by
  rw [hadmits]
  constructor
  · intro h
    obtain ⟨a, ha, hconfirm⟩ := (hinfer Γ ty).1 h
    obtain ⟨hempty, hinner⟩ := (hparts a).1 ha
    have hown : infer .empty t = .ok (own a) :=
      (hinfer .empty (own a)).2 ⟨a, hempty, confirm_empty _ _⟩
    obtain ⟨rfl, hat⟩ := (confirm_eq_ok_iff hown).1 hconfirm
    exact ⟨hown, hinner, hat⟩
  · rintro ⟨h, hinner, hat⟩
    obtain ⟨a, hempty, hconfirm⟩ := (hinfer .empty ty).1 h
    rw [confirm_empty, Except.ok.injEq] at hconfirm
    subst hconfirm
    exact (hinfer Γ (own a)).2
      ⟨a, (hparts a).2 ⟨hempty, hinner⟩, (confirm_eq_ok_iff h).2 ⟨rfl, hat⟩⟩

/-- **Inference under a context** finds the type that the term has without annotations, and finds
it exactly when the annotations admit it at every node. -/
theorem infer_eq_ok_iff : infer Γ t = .ok ty ↔ infer .empty t = .ok ty ∧ Γ.Admits t := by
  induction t using Term.induction generalizing ty with
  | noun p =>
    refine infer_node_iff (fun _ (_ : Unit) => True) (fun _ => .noun (some p)) (by simp [infer])
      (by simp) (admits_atom_iff fun s hs => ?_)
    cases hs
    rfl
  | adj p =>
    refine infer_node_iff (fun _ (_ : Unit) => True) (fun _ => .adj p) (by simp [infer])
      (by simp) (admits_atom_iff fun s hs => ?_)
    cases hs
    rfl
  | fusion f =>
    refine infer_node_iff (fun _ p => f.fused? = some p) (fun p => .noun (some p))
      (fun _ _ => infer_fusion_eq_ok_iff) (by simp) (admits_atom_iff fun s hs => ?_)
    cases hs
    rfl
  | chain o os e iho ihos ihe =>
    have ihops : ∀ o' ∈ o :: os, ∀ p, infer Γ o' = .ok (.adj p) ↔
        infer .empty o' = .ok (.adj p) ∧ Γ.Admits o' :=
      fun o' ho' p => (List.mem_cons.1 ho').elim (fun heq => heq ▸ iho) fun hmem => ihos o' hmem
    refine infer_node_iff
      (fun Δ i => (∀ o' ∈ o :: os, ∃ p, infer Δ o' = .ok (.adj p)) ∧ infer Δ e = .ok (.noun i))
      (fun _ => .noun none) (fun Δ ty => ?_) (fun i => ?_) (admits_chain_iff.trans and_assoc.symm)
    · rw [infer_chain_eq_ok_iff]
      constructor
      · rintro ⟨hos, ⟨i, he⟩, hconfirm⟩
        exact ⟨i, ⟨hos, he⟩, hconfirm⟩
      · rintro ⟨i, ⟨hos, he⟩, hconfirm⟩
        exact ⟨hos, ⟨i, he⟩, hconfirm⟩
    · constructor
      · rintro ⟨hos, he⟩
        refine ⟨⟨fun o' ho' => ?_, (ihe.1 he).1⟩, fun o' ho' => ?_, (ihe.1 he).2⟩
        · obtain ⟨p, hp⟩ := hos o' ho'
          exact ⟨p, ((ihops o' ho' p).1 hp).1⟩
        · obtain ⟨p, hp⟩ := hos o' ho'
          exact ((ihops o' ho' p).1 hp).2
      · rintro ⟨⟨hos, he⟩, hadmos, hadme⟩
        refine ⟨fun o' ho' => ?_, ihe.2 ⟨he, hadme⟩⟩
        obtain ⟨p, hp⟩ := hos o' ho'
        exact ⟨p, (ihops o' ho' p).2 ⟨hp, hadmos o' ho'⟩⟩
  | sentence e ih =>
    refine infer_node_iff (fun Δ i => infer Δ e = .ok (.noun i)) (fun _ => .sentence .atomic)
      (fun Δ ty => ?_) (fun i => ih) admits_sentence_iff
    rw [infer_sentence_eq_ok_iff, exists_and_right]
  | join c l r ihl ihr =>
    refine infer_node_iff
      (fun Δ (tys : SentenceTy × SentenceTy) =>
        infer Δ l = .ok (.sentence tys.1) ∧ infer Δ r = .ok (.sentence tys.2))
      (fun tys => .sentence (.join c tys.1 tys.2)) (fun Δ ty => ?_) (fun tys => ?_)
      (admits_join_iff.trans and_assoc.symm)
    · simp only [infer_join_eq_ok_iff, Prod.exists, and_assoc]
    · rw [ihl, ihr]
      exact and_and_and_comm

/-- Fewer annotations of the terms within `t` refuse less. -/
theorem Admits.of_lookup? (h : Γ.Admits t)
    (hsub : ∀ s : Term, s.Within t → ∀ annotated, Δ.lookup? s = some annotated →
      Γ.lookup? s = some annotated) : Δ.Admits t :=
  fun s hs annotated hann => h s hs annotated (hsub s hs annotated hann)

/-- Terms annotated with their own types are admitted. -/
theorem admits_binds (annotations : List (Term × Ty))
    (hown : ∀ a ∈ annotations, infer .empty a.1 = .ok a.2) :
    (empty.binds annotations).Admits t := by
  intro s _ annotated hann
  rw [lookup?_binds, List.lookup_eq_some_iff] at hann
  obtain ⟨before, after, hsplit, _⟩ := hann
  have hmem : (s, annotated) ∈ annotations := by
    rw [← List.mem_reverse, hsplit]
    exact List.mem_append_right _ (List.mem_cons_self ..)
  exact ⟨annotated, hown _ hmem, annotated.admits_refl⟩

end Context

/-- **Annotations only filter.**  Inference under a context finds a type exactly when that is the
type without annotations and every annotation of a term within `t` admits the type of that term
without annotations.  So two contexts never disagree on a type, a context with fewer annotations
accepts what one with more accepts, and every term within a term with a type has a type, with which
it may be annotated. -/
theorem annotations_filter (t : Term) :
    (∀ Γ ty, infer Γ t = .ok ty ↔ infer .empty t = .ok ty ∧
      ∀ s : Term, s.Within t → ∀ annotated, Γ.lookup? s = some annotated →
        ∃ ty', infer .empty s = .ok ty' ∧ annotated.admits ty' = true) ∧
    (∀ Γ Δ ty ty', infer Γ t = .ok ty → infer Δ t = .ok ty' → ty = ty') ∧
    (∀ Γ Δ : Context, (∀ s : Term, s.Within t → ∀ annotated, Δ.lookup? s = some annotated →
      Γ.lookup? s = some annotated) → ∀ ty, infer Γ t = .ok ty → infer Δ t = .ok ty) ∧
    ∀ ty, infer .empty t = .ok ty →
      (∀ s : Term, s.Within t → ∃ ty', infer .empty s = .ok ty') ∧
      ∀ annotations : List (Term × Ty),
        (∀ a ∈ annotations, a.1.Within t ∧ infer .empty a.1 = .ok a.2) →
          infer (Context.empty.binds annotations) t = .ok ty := by
  refine ⟨fun Γ ty => Context.infer_eq_ok_iff, ?_, ?_, fun ty h => ⟨fun s hs => ?_, ?_⟩⟩
  · intro Γ Δ ty ty' h h'
    have heq := (Context.infer_eq_ok_iff.1 h).1.symm.trans (Context.infer_eq_ok_iff.1 h').1
    exact Except.ok.inj heq
  · intro Γ Δ hsub ty h
    obtain ⟨hempty, hadm⟩ := Context.infer_eq_ok_iff.1 h
    exact Context.infer_eq_ok_iff.2 ⟨hempty, hadm.of_lookup? hsub⟩
  · obtain ⟨ty', hty'⟩ := (infer_empty_iff.1 h).of_within hs
    exact ⟨ty', infer_empty_iff.2 hty'⟩
  · intro annotations hown
    exact Context.infer_eq_ok_iff.2 ⟨h, Context.admits_binds annotations fun a ha => (hown a ha).2⟩

open OverlappingRedexes in
/-- A pair whose chain and noun are annotated with their own types, and one of these annotations
alone. -/
theorem annotations_filter_pair :
    let chain : Term := .chain (.adj p2) [] (.noun p7)
    let own : List (Term × Ty) := [(chain, .noun none), (.noun p7, .noun (some p7))]
    infer (Context.empty.binds own) pair = .ok (.sentence (.join .seq .atomic .atomic)) ∧
    infer (Context.empty.bind chain (.noun none)) pair =
      .ok (.sentence (.join .seq .atomic .atomic)) := by
  intro chain own
  have hpair : infer .empty pair = .ok (.sentence (.join .seq .atomic .atomic)) := by rfl
  have hchain : chain.Within pair := .right (.body .here)
  obtain ⟨_, _, hfewer, hown⟩ := annotations_filter pair
  have hboth : infer (Context.empty.binds own) pair =
      .ok (.sentence (.join .seq .atomic .atomic)) := by
    refine (hown _ hpair).2 own fun a ha => ?_
    rcases List.mem_pair.1 ha with rfl | rfl
    · exact ⟨hchain, by rfl⟩
    · exact ⟨.right (.body (.position .here)), by rfl⟩
  refine ⟨hboth, hfewer _ _ (fun s _ annotated hann => ?_) _ hboth⟩
  rw [Context.lookup?_bind] at hann
  split at hann
  · next heq =>
    cases hann
    subst heq
    rw [Context.lookup?_binds]
    rfl
  · simp [Context.lookup?, Context.empty] at hann

end PrimeLanguage
