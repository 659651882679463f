import PrimeLanguage.Term.Basic

/-!
# Structural equality of terms

Terms have decidable equality and a hash, so they can be keys of a table.  `Term.same` compares
two terms by recursion, through the operator lists of chains; `same_eq_true_iff` says that it
decides equality.
-/

namespace PrimeLanguage

namespace Term

mutual

/-- Whether two terms are the same. -/
def same : Term → Term → Bool
  | .noun p, .noun q => p = q
  | .adj p, .adj q => p = q
  | .chain o os e, .chain o' os' e' => same o o' && sameAll os os' && same e e'
  | .fusion f, .fusion g => f = g
  | .sentence e, .sentence e' => same e e'
  | .join c l r, .join c' l' r' => c = c' && same l l' && same r r'
  | _, _ => false

/-- Whether two lists hold the same terms in the same order. -/
def sameAll : List Term → List Term → Bool
  | [], [] => true
  | t :: ts, u :: us => same t u && sameAll ts us
  | _, _ => false

end

theorem sameAll_eq_true_iff {ts : List Term} (h : ∀ t ∈ ts, ∀ u, same t u = true ↔ t = u)
    (us : List Term) : sameAll ts us = true ↔ ts = us := by
  induction ts generalizing us with
  | nil => cases us <;> simp [sameAll]
  | cons t ts ih =>
    cases us with
    | nil => simp [sameAll]
    | cons u us =>
      simp only [sameAll, Bool.and_eq_true, List.cons.injEq]
      rw [h t (by simp), ih (fun t ht => h t (by simp [ht]))]

theorem same_eq_true_iff (t u : Term) : same t u = true ↔ t = u := by
  induction t using Term.induction generalizing u with
  | noun p => cases u <;> simp [same]
  | adj p => cases u <;> simp [same]
  | chain o os e iho ihos ihe =>
    cases u <;> simp [same, iho, ihe, sameAll_eq_true_iff ihos, and_assoc]
  | fusion f => cases u <;> simp [same]
  | sentence e ih => cases u <;> simp [same, ih]
  | join c l r ihl ihr => cases u <;> simp [same, ihl, ihr, and_assoc]

instance : DecidableEq Term := fun t u => decidable_of_iff _ (same_eq_true_iff t u)

mutual

/-- A hash of the whole term. -/
def hashCode : Term → UInt64
  | .noun p => mixHash 11 (hash p)
  | .adj p => mixHash 13 (hash p)
  | .chain o os e => mixHash (hashCodeAll os) (mixHash o.hashCode e.hashCode)
  | .fusion f => mixHash (hash f.p) (mixHash (hash f.q) (hash f.r))
  | .sentence e => mixHash 17 e.hashCode
  | .join c l r => mixHash (hash c) (mixHash l.hashCode r.hashCode)

/-- A hash of a list of terms. -/
def hashCodeAll : List Term → UInt64
  | [] => 19
  | t :: ts => mixHash t.hashCode (hashCodeAll ts)

end

instance : Hashable Term := ⟨hashCode⟩

end Term

end PrimeLanguage
