import Mathlib.Data.Finset.Card
import Mathlib.Data.Finset.Dedup
import Mathlib.Data.List.Induction
import PrimeLanguage.Typing.Context
import PrimeLanguage.Term.Equality
import PrimeLanguage.Reduction.Engine
import PrimeLanguage.Proofs.Term.RoundTrip

/-!
# Terms are identified by their printed form

Two terms with the same printed form are the same, however deep their groups nest: a reader for
both depths reads both back from one text (`Term.signature_injective`).  Where terms are compared
or kept by their printed form, they are compared and kept as terms:

* `Engine.equivalent_eq_ok_iff` — the comparison of terminal terms is equality;
* `Context.lookup?_binds`, `Context.size_binds` — a context is a finite map on terms.
-/

namespace PrimeLanguage

/-- The printed form determines the term. -/
theorem Term.signature_injective {t u : Term} (h : t.signature = u.signature) : t = u := by
  -- whatever `maxNesting` is, some reader goes deep enough for both
  have htext : t.text = u.text := String.ofList_injective h
  have ht := (fits_atomText_text t).2 (max t.groupDepth u.groupDepth) (Nat.le_max_left ..) 0 [] rfl
  have hu := (fits_atomText_text u).2 (max t.groupDepth u.groupDepth) (Nat.le_max_right ..) 0 [] rfl
  rw [htext, hu] at ht
  exact (congrArg Prod.fst (Except.ok.inj ht)).symm

theorem Term.signature_inj {t u : Term} : t.signature = u.signature ↔ t = u :=
  ⟨Term.signature_injective, congrArg Term.signature⟩

/-! ## Comparing terminal terms -/

namespace Engine

theorem sameTerminal_eq (t u : Term) : sameTerminal t u = decide (t = u) := by
  have htext : (t.signature == u.signature) = decide (t = u) := by
    rw [beq_eq_decide, decide_eq_decide]
    exact Term.signature_inj
  unfold sameTerminal
  cases t with
  | noun p =>
    cases u with
    | noun q => simp [Term.noun?]
    | adj | chain | fusion | sentence | join => exact htext
  | adj | chain | fusion | sentence | join => exact htext

theorem equivalent_eq_ok_iff {e : Engine} {t u : Term} {b : Bool} :
    e.equivalent t u = .ok b ↔
      ∃ t' u', e.evaluate t = .ok t' ∧ e.evaluate u = .ok u' ∧ b = decide (t' = u') := by
  unfold equivalent
  constructor
  · intro h
    obtain ⟨t', ht, h⟩ := bind_eq_ok_iff.1 h
    obtain ⟨u', hu, h⟩ := bind_eq_ok_iff.1 h
    rw [sameTerminal_eq] at h
    exact ⟨t', u', ht, hu, (Except.ok.inj h).symm⟩
  · rintro ⟨t', u', ht, hu, rfl⟩
    rw [ht, hu, ← sameTerminal_eq]
    rfl

end Engine

/-! ## Typing contexts -/

namespace Context

variable (Γ : Context) (t u : Term) (ty : Ty)

theorem lookup?_bind : (Γ.bind t ty).lookup? u = if t = u then some ty else Γ.lookup? u := by
  simp only [lookup?, bind, Std.TreeMap.getElem?_insert, Std.LawfulEqCmp.compare_eq_iff_eq,
    Term.signature_inj]

theorem size_bind :
    (Γ.bind t ty).size = if (Γ.lookup? t).isSome then Γ.size else Γ.size + 1 := by
  have hcontains : Γ.bindings.contains t.signature = (Γ.lookup? t).isSome :=
    Std.TreeMap.contains_eq_isSome_getElem?
  rw [← hcontains]
  exact Std.TreeMap.size_insert

/-- The annotations, one after the other. -/
def binds (annotations : List (Term × Ty)) : Context :=
  annotations.foldl (fun Γ (t, ty) => Γ.bind t ty) Γ

theorem binds_concat (annotations : List (Term × Ty)) :
    Γ.binds (annotations ++ [(t, ty)]) = (Γ.binds annotations).bind t ty := by
  simp [binds]

/-- The annotation of a term is the last one made for it. -/
theorem lookup?_binds (annotations : List (Term × Ty)) :
    (empty.binds annotations).lookup? t = annotations.reverse.lookup t := by
  induction annotations using List.reverseRecOn with
  | nil => simp [binds, empty, lookup?]
  | append_singleton annotations annotation ih =>
    obtain ⟨u, ty⟩ := annotation
    rw [binds_concat, lookup?_bind, List.reverse_concat, List.lookup_cons, ih]
    by_cases h : u = t
    · rw [if_pos h, beq_iff_eq.2 h.symm]
    · rw [if_neg h, beq_eq_false_iff_ne.2 (Ne.symm h)]

/-- There are as many annotations as terms with one. -/
theorem size_binds (annotations : List (Term × Ty)) :
    (empty.binds annotations).size = (annotations.map Prod.fst).toFinset.card := by
  induction annotations using List.reverseRecOn with
  | nil => rfl
  | append_singleton annotations annotation ih =>
    obtain ⟨u, ty⟩ := annotation
    have hbound : (annotations.reverse.lookup u).isSome = true ↔
        u ∈ (annotations.map Prod.fst).toFinset := by
      simp only [List.lookup_isSome_iff, List.mem_reverse, beq_iff_eq, List.mem_toFinset,
        List.mem_map]
      exact exists_congr fun _ => and_congr_right fun _ => eq_comm
    have hterms : ((annotations ++ [(u, ty)]).map Prod.fst).toFinset =
        insert u (annotations.map Prod.fst).toFinset := by
      ext t
      simp
    rw [binds_concat, size_bind, ih, lookup?_binds, hterms, Finset.card_insert_eq_ite]
    simp only [hbound]

end Context

/-- **Terms are identified by their printed form.**  Terms with the same printed form are the same.
So the comparison of two terms says whether their terminal terms are the same, and after any
annotations of an empty context a term has the annotation made last for that term, and there are as
many annotations as different terms with one. -/
theorem signature_identifies :
    (∀ t u : Term, t.signature = u.signature → t = u) ∧
    (∀ (e : Engine) (t u : Term) (b : Bool), e.equivalent t u = .ok b ↔
      ∃ t' u', e.evaluate t = .ok t' ∧ e.evaluate u = .ok u' ∧ b = decide (t' = u')) ∧
    ∀ annotations : List (Term × Ty),
      (∀ t, (Context.empty.binds annotations).lookup? t = annotations.reverse.lookup t) ∧
      (Context.empty.binds annotations).size = (annotations.map Prod.fst).toFinset.card :=
  ⟨fun _ _ => Term.signature_injective, fun _ _ _ _ => Engine.equivalent_eq_ok_iff,
    fun annotations => ⟨fun t => Context.lookup?_binds t annotations,
      Context.size_binds annotations⟩⟩

/-- Also terms that no text is read as are identified. -/
theorem signature_identifies_deep :
    let t : Term := (maxNesting + 1).repeat Term.sentence (.noun .three)
    let u : Term := .sentence (maxNesting.repeat Term.sentence (.noun .three))
    t.signature = u.signature ∧ t = u :=
  ⟨rfl, signature_identifies.1 _ _ rfl⟩

end PrimeLanguage
