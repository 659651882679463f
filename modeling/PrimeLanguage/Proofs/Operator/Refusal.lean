import PrimeLanguage.Operator.Builtin
import PrimeLanguage.Operator.Table
import PrimeLanguage.Proofs.Results

/-!
# Refusals of operators

An operator refuses a pair of primes when the pair lies in its domain and the operator still has no
result on it.

* `Operator.Refuses` — the errors with which an operator refuses;
* `Operator.NeverFails` — no pair of primes is refused;
* `Operator.FailsByDomain` — the contract of operators: `apply` fails with a domain error only.

`refuses_of_combine` says that combining an adjective and a noun fails by refusal only, and
`build_failsByDomain` that every built-in operator keeps the contract.
-/

namespace PrimeLanguage

/-- The error says that an operator is not defined on a pair of numbers. -/
def Error.IsDomain (err : Error) : Prop := ∃ name p q, err = .operatorDomain name p q

theorem Prime.at?_eq_some_iff {n : Nat} {r : Prime} : Prime.at? n = some r ↔ r.val = n := by
  unfold Prime.at? Prime.ofNat
  constructor
  · intro h
    split at h
    · cases h
      rfl
    · cases h
  · rintro rfl
    rw [dif_pos ⟨r.lt_wordLimit, r.accepted⟩]
    rfl

namespace Operator

/-- `err` is the answer of the operator on two primes in its domain. -/
def Refuses (op : Operator) (err : Error) : Prop :=
  ∃ p q : Prime, op.accepts p.val q.val = true ∧ op.apply p.val q.val = .error err

/-- The operator has a result on all primes in its domain. -/
def NeverFails (op : Operator) : Prop :=
  ∀ p q : Prime, op.accepts p.val q.val = true → ∃ r, op.apply p.val q.val = .ok r

/-- The contract of operators: where `apply` has no result it answers with a domain error. -/
def FailsByDomain (op : Operator) : Prop :=
  ∀ p q err, op.apply p q = .error err → err.IsDomain

variable {op : Operator} {err : Error}

theorem NeverFails.not_refuses (h : op.NeverFails) : ¬ op.Refuses err := by
  rintro ⟨p, q, hacc, happ⟩
  obtain ⟨r, hr⟩ := h p q hacc
  rw [hr] at happ
  cases happ

theorem FailsByDomain.isDomain (h : op.FailsByDomain) (herr : op.Refuses err) : err.IsDomain := by
  obtain ⟨p, q, _, happ⟩ := herr
  exact h p.val q.val err happ

/-- **Combining fails by refusal only**: the fallback outside the domain never fails. -/
theorem refuses_of_combine {adj noun : Prime} (h : op.combine adj noun = .error err) :
    op.Refuses err := by
  unfold combine at h
  split at h
  · rename_i hacc
    exact ⟨adj, noun, hacc, map_eq_error_iff.1 h⟩
  · split at h
    · rename_i hacc
      exact ⟨noun, adj, hacc, map_eq_error_iff.1 h⟩
    · cases h

/-! ## Operators given by a result -/

/-- The only error names the operator and the pair. -/
theorem error_of_ofResult {name : String} {accepts : Nat → Nat → Bool}
    {result : Nat → Nat → Option Prime} {p q : Nat}
    (h : (ofResult name accepts result).apply p q = .error err) :
    err = .operatorDomain name p q := by
  simp only [ofResult] at h
  split at h
  · split at h
    · cases h
    · cases h; rfl
  · cases h; rfl

theorem ofResult_failsByDomain (name : String) (accepts : Nat → Nat → Bool)
    (result : Nat → Nat → Option Prime) : (ofResult name accepts result).FailsByDomain := by
  intro p q err h
  exact ⟨name, p, q, error_of_ofResult h⟩

/-- An operator that takes any two numbers and refuses them. -/
def refusing : Operator := .ofResult "refusing" (fun _ _ => true) fun _ _ => none

theorem refusing_failsByDomain : refusing.FailsByDomain := ofResult_failsByDomain _ _ _

/-! ## Built-in operators -/

/-- **Every built-in operator keeps the contract.** -/
theorem build_failsByDomain (k : OperatorKind) (m : Modulus) : (k.build m).FailsByDomain := by
  cases k <;> exact ofResult_failsByDomain _ _ _

theorem at?_val (p : Prime) : Prime.at? p.val = some p := Prime.at?_eq_some_iff.2 rfl

theorem identity_apply (p q : Prime) : identity.apply p.val q.val = .ok q := by
  simp [identity, ofResult, p.accepted, q.accepted, at?_val]

theorem identity_neverFails : identity.NeverFails :=
  fun p q _ => ⟨q, identity_apply p q⟩

theorem identity_combine (p q : Prime) : identity.combine p q = .ok ⟨q, .forward⟩ := by
  have hacc : identity.accepts p.val q.val = true := by
    simp [identity, ofResult, p.accepted, q.accepted]
  rw [combine, if_pos hacc, identity_apply]
  rfl

end Operator

end PrimeLanguage
