import PrimeLanguage.Reduction.Step

/-!
# Positions in a term

A way through a term is a list of edges, from the root on.  An edge goes into the noun position of a
chain, the body of a sentence or a part of a join; none goes into an operator of a chain.

* `Term.child?`, `Term.setChild` — what stands at the end of one edge, and the term with something
  else there;
* `Term.subterm?`, `Term.replaceAt` — the same at the end of a way;
* `Contraction.inside` — the contraction of a part, as a contraction of the whole.

A replacement is seen at the end of its way (`subterm?_replaceAt`) and nowhere beside it
(`subterm?_replaceAt_of_not_prefix`).
-/

namespace PrimeLanguage

namespace Term

variable {t u v : Term} {p q : Position} {ps qs : List Position}

/-! ## One edge -/

/-- What stands at the end of an edge. -/
def child? : Term → Position → Option Term
  | .chain _ _ e, .noun => some e
  | .sentence e, .body => some e
  | .join _ l _, .left => some l
  | .join _ _ r, .right => some r
  | _, _ => none

/-- The term with `v` at the end of an edge; an edge that it does not have changes nothing. -/
def setChild (t : Term) (p : Position) (v : Term) : Term :=
  match t, p with
  | .chain o os _, .noun => .chain o os v
  | .sentence _, .body => .sentence v
  | .join c _ r, .left => .join c v r
  | .join c l _, .right => .join c l v
  | t, _ => t

theorem child?_setChild (h : t.child? p = some u) : (t.setChild p v).child? p = some v := by
  fun_cases child? t p with
  | case1 | case2 | case3 | case4 => rfl
  | case5 => simp_all [child?]

theorem child?_setChild_of_ne (h : p ≠ q) : (t.setChild p v).child? q = t.child? q := by
  fun_cases setChild t p v with
  | case1 | case2 | case3 | case4 => cases q <;> simp_all [child?]
  | case5 => rfl

/-! ## Ways -/

/-- What stands at the end of a way, if the way stays inside the term. -/
def subterm? (t : Term) : List Position → Option Term
  | [] => some t
  | p :: ps => (t.child? p).bind (·.subterm? ps)

/-- The term with `v` for what stands at the end of a way; a way that leaves the term changes
nothing. -/
def replaceAt (t : Term) (ps : List Position) (v : Term) : Term :=
  match ps with
  | [] => v
  | p :: ps =>
    match t.child? p with
    | some e => t.setChild p (e.replaceAt ps v)
    | none => t

theorem subterm?_cons_eq_some_iff :
    t.subterm? (p :: ps) = some u ↔ ∃ e, t.child? p = some e ∧ e.subterm? ps = some u :=
  Option.bind_eq_some_iff

theorem replaceAt_cons (h : t.child? p = some u) (ps : List Position) (v : Term) :
    t.replaceAt (p :: ps) v = t.setChild p (u.replaceAt ps v) := by
  rw [replaceAt, h]

theorem subterm?_append (t : Term) (ps qs : List Position) :
    t.subterm? (ps ++ qs) = (t.subterm? ps).bind (·.subterm? qs) := by
  induction ps generalizing t with
  | nil => rfl
  | cons p ps ih =>
    rw [List.cons_append, subterm?, subterm?]
    cases t.child? p with
    | none => rfl
    | some e => exact ih e

/-- A replacement at the end of a longer way is one inside what the shorter way leads to. -/
theorem replaceAt_append (h : t.subterm? ps = some u) (qs : List Position) (v : Term) :
    t.replaceAt (ps ++ qs) v = t.replaceAt ps (u.replaceAt qs v) := by
  induction ps generalizing t with
  | nil => cases h; rfl
  | cons p ps ih =>
    obtain ⟨e, he, hsub⟩ := subterm?_cons_eq_some_iff.1 h
    rw [List.cons_append, replaceAt_cons he, replaceAt_cons he, ih hsub]

/-- **A replacement stands where it was put.** -/
theorem subterm?_replaceAt (h : t.subterm? ps = some u) (v : Term) :
    (t.replaceAt ps v).subterm? ps = some v := by
  induction ps generalizing t with
  | nil => rfl
  | cons p ps ih =>
    obtain ⟨e, he, hsub⟩ := subterm?_cons_eq_some_iff.1 h
    rw [replaceAt_cons he]
    exact subterm?_cons_eq_some_iff.2 ⟨_, child?_setChild he, ih hsub⟩

/-- **A replacement changes nothing beside it**: ways that part from its own lead to what they led
to before. -/
theorem subterm?_replaceAt_of_not_prefix (h : ¬ ps <+: qs) (h' : ¬ qs <+: ps) (v : Term) :
    (t.replaceAt ps v).subterm? qs = t.subterm? qs := by
  induction ps generalizing t qs with
  | nil => exact absurd List.nil_prefix h
  | cons p ps ih =>
    cases qs with
    | nil => exact absurd List.nil_prefix h'
    | cons q qs =>
      cases he : t.child? p with
      | none => rw [replaceAt, he]
      | some e =>
        rw [replaceAt_cons he, subterm?, subterm?]
        by_cases hpq : p = q
        · subst hpq
          rw [child?_setChild he, he]
          exact ih (fun hps => h (List.cons_prefix_cons.2 ⟨rfl, hps⟩))
            (fun hqs => h' (List.cons_prefix_cons.2 ⟨rfl, hqs⟩))
        · rw [child?_setChild_of_ne hpq]

end Term

/-! ## Contractions of a part -/

/-- The contraction of what stands at the end of a way, as a contraction of the whole term. -/
def Contraction.inside (t : Term) (ps : List Position) (k : Contraction) : Contraction :=
  ⟨t.replaceAt ps k.after, ps ++ k.path, k.details⟩

end PrimeLanguage
