import PrimeLanguage.Proofs.Operator.Values
import PrimeLanguage.Proofs.Reduction.Congruence
import PrimeLanguage.Proofs.Semantics.Agreement

/-!
# The order of an adjective and a noun

An operator on ascending primes takes an adjective and a noun in the one order that it accepts, so
they may change places.  Two equal primes have no such order, and there the fallback answers without
the operator.

* `Operator.OrderedOn` — what an operator on ascending primes makes of an adjective and a noun;
* `Engine.evaluate_application` — an adjective over a noun reduces to what they combine to;
* `Semantics.denote_of_bigStepNoun` — the denotation of a noun expression that evaluates.

The identity accepts both orders, and a noun under its adjectives stays what it is
(`evaluate_under_identity`).

Principal result: `application_symmetric`.
-/

namespace PrimeLanguage

/-! ## Adjectives and nouns -/

namespace Operator

variable {op : Operator} {a n : Prime}

/-- The answer to `a` and `n` is that of the operator to the smaller and the larger one, with the
orientation that says which of them came first.  Equal primes fall back, and the operator has no say
in it. -/
structure OrderedOn (op : Operator) (a n : Prime) : Prop where
  symmetric : (op.combine a n).map (·.result) = (op.combine n a).map (·.result)
  ordered : a ≠ n →
    (op.combine a n).map (·.result) = op.apply (min a.val n.val) (max a.val n.val)
  orientation : ∀ c, op.combine a n = .ok c →
    (c.orientation = .forward ↔ a < n) ∧ (c.orientation = .swapped ↔ n < a)
  same : a = n → ∀ apply, Operator.combine { op with apply } a n = .ok ⟨a, .fallback⟩

theorem accepts_iff_lt (hop : op.accepts = ascendingPrimes) :
    op.accepts a.val n.val = true ↔ a < n := by
  rw [hop, ascendingPrimes_iff]
  exact ⟨fun h => h.1, fun h => ⟨h, a.accepted, n.accepted⟩⟩

theorem combine_of_lt (hop : op.accepts = ascendingPrimes) (h : a < n) :
    op.combine a n = (op.apply a.val n.val).map (⟨·, .forward⟩) := by
  rw [combine, if_pos ((accepts_iff_lt hop).2 h)]

theorem combine_of_gt (hop : op.accepts = ascendingPrimes) (h : n < a) :
    op.combine a n = (op.apply n.val a.val).map (⟨·, .swapped⟩) := by
  have hnot : ¬ op.accepts a.val n.val = true := by
    rw [accepts_iff_lt hop]
    exact Nat.lt_asymm h
  rw [combine, if_neg hnot, if_pos ((accepts_iff_lt hop).2 h)]

/-- A prime that acts on itself stays itself. -/
theorem combine_self (hop : op.accepts = ascendingPrimes) (a : Prime) :
    op.combine a a = .ok ⟨a, .fallback⟩ := by
  have hnot : ¬ op.accepts a.val a.val = true := by
    rw [accepts_iff_lt hop]
    exact Nat.lt_irrefl a.val
  rw [combine, if_neg hnot, if_neg hnot, Prime.larger]
  split <;> rfl

theorem map_result_oriented (x : Except Error Prime) (o : Orientation) :
    (x.map (Combination.mk · o)).map (·.result) = x := by
  cases x <;> rfl

theorem orderedOn (hop : op.accepts = ascendingPrimes) (a n : Prime) : op.OrderedOn a n := by
  have hirrefl : ∀ p : Prime, ¬ p < p := fun p => Nat.lt_irrefl p.val
  -- one order is accepted, or none if the primes are equal
  rcases Nat.lt_trichotomy a.val n.val with hlt | heq | hgt
  · have hle : a.val ≤ n.val := Nat.le_of_lt hlt
    have hcombine := combine_of_lt hop hlt
    refine ⟨?_, fun _ => ?_, fun c hc => ?_, fun h => absurd hlt (h ▸ hirrefl a)⟩
    · rw [hcombine, combine_of_gt hop hlt, map_result_oriented, map_result_oriented]
    · rw [hcombine, map_result_oriented, Nat.min_eq_left hle, Nat.max_eq_right hle]
    · obtain ⟨r, _, rfl⟩ := map_eq_ok_iff.1 (hcombine.symm.trans hc)
      exact ⟨iff_of_true rfl hlt, iff_of_false nofun (Nat.lt_asymm hlt)⟩
  · obtain rfl : a = n := Prime.ext heq
    refine ⟨rfl, fun h => absurd rfl h, fun c hc => ?_, fun _ apply => ?_⟩
    · rw [combine_self hop] at hc
      cases hc
      exact ⟨iff_of_false nofun (hirrefl a), iff_of_false nofun (hirrefl a)⟩
    · have hacc : Operator.accepts { op with apply } = ascendingPrimes := hop
      exact combine_self hacc a
  · have hle : n.val ≤ a.val := Nat.le_of_lt hgt
    have hcombine := combine_of_gt hop hgt
    refine ⟨?_, fun _ => ?_, fun c hc => ?_, fun h => absurd hgt (h ▸ hirrefl a)⟩
    · rw [hcombine, combine_of_lt hop hgt, map_result_oriented, map_result_oriented]
    · rw [hcombine, map_result_oriented, Nat.min_eq_right hle, Nat.max_eq_left hle]
    · obtain ⟨r, _, rfl⟩ := map_eq_ok_iff.1 (hcombine.symm.trans hc)
      exact ⟨iff_of_false nofun (Nat.lt_asymm hgt), iff_of_true rfl hgt⟩

/-- Every built-in operator but the identity shares the domain. -/
theorem build_accepts {k : OperatorKind} (hk : k ≠ .identity) (m : Modulus) :
    (k.build m).accepts = ascendingPrimes := by
  cases k with
  | resonance | nextPrime | modular => rfl
  | identity => exact absurd rfl hk

end Operator

/-! ## One adjective over a noun -/

/-- The adjective `p` over the noun `q`. -/
def Term.application (p q : Prime) : Term := .chain (.adj p) [] (.noun q)

theorem Operator.bigStepNoun_application {op : Operator} {p q : Prime} {c : Combination}
    (hc : op.combine p q = .ok c) :
    op.bigStepNoun (.application p q) = .ok ⟨[⟨[], .apply p q c⟩], c.result⟩ := by
  simp only [Term.application, bigStepNoun, bigStepOperators, hc, bind, Except.bind]
  rfl

namespace Engine

variable {e : Engine}

/-- An error of the first step is the answer, whatever the bound is. -/
theorem evaluate_of_step_error {t : Term} {err : Error} (h : e.step t = .error err) :
    e.evaluate t = .error err := by
  rw [evaluate, normalize]
  cases e.maxSteps <;> simp only [run, h] <;> rfl

/-- **An adjective over a noun reduces to what they combine to**, if the engine may take a step. -/
theorem evaluate_application (hm : 1 ≤ e.maxSteps) (p q : Prime) :
    e.evaluate (.application p q) = (e.operator.combine p q).map (.noun ·.result) := by
  cases hc : e.operator.combine p q with
  | error err =>
    refine evaluate_of_step_error ?_
    simp only [step, Term.application, contract, contractExpr, applyFirst, hc]
    rfl
  | ok c =>
    exact evaluate_eq_noun_iff.2 ⟨[⟨[], .apply p q c⟩], Operator.bigStepNoun_application hc, hm⟩

end Engine

namespace Semantics

variable {s : Semantics} {t : Term}

/-- **A noun expression that evaluates denotes its noun**, after two steps for each application. -/
theorem denote_of_bigStepNoun {r : Reduct Prime} (h : s.engine.operator.bigStepNoun t = .ok r)
    (hn : 2 * Event.applications r.events ≤ s.evaluationSteps) :
    s.denote t = .ok ⟨.const r.result, 2 * Event.applications r.events, true⟩ := by
  have ht : t.isNounShaped = true := Operator.isNounShaped_of_bigStepNoun h
  obtain ⟨⟨x, s'⟩, hx⟩ :=
    (Operator.answers_noun ht s.engine.operator.name .start).exists_ok_right h
  have hvalue : s.evaluator.evaluate x =
      ⟨.const r.result, 2 * Event.applications r.events, true⟩ :=
    Evaluator.evaluate_of_yields (Operator.yields_noun hx h) hn
  rw [denote, meaning, meaning_eq_ok_iff.2 ⟨s', hx⟩, Except.map, hvalue]

theorem denote_application {p q : Prime} {c : Combination} (hn : 2 ≤ s.evaluationSteps)
    (hc : s.engine.operator.combine p q = .ok c) :
    s.denote (.application p q) = .ok ⟨.const c.result, 2, true⟩ :=
  denote_of_bigStepNoun (Operator.bigStepNoun_application hc) hn

/-- Either both orders fail alike, or both reduce to one noun and denote it. -/
theorem chain_symmetric (hop : s.engine.operator.accepts = ascendingPrimes)
    (hm : 1 ≤ s.engine.maxSteps) (hn : 2 ≤ s.evaluationSteps) (p q : Prime) :
    (∃ err, s.engine.evaluate (.application p q) = .error err ∧
      s.engine.evaluate (.application q p) = .error err ∧
      (s.engine.operator.FailsByDomain → err.IsDomain)) ∨
    ∃ r, (s.engine.evaluate (.application p q) = .ok (.noun r) ∧
        s.denote (.application p q) = .ok ⟨.const r, 2, true⟩) ∧
      s.engine.evaluate (.application q p) = .ok (.noun r) ∧
        s.denote (.application q p) = .ok ⟨.const r, 2, true⟩ := by
  have hsym := (Operator.orderedOn hop p q).symmetric
  rw [Engine.evaluate_application hm, Engine.evaluate_application hm]
  cases hpq : s.engine.operator.combine p q with
  | error err =>
    rw [hpq] at hsym
    have hqp : s.engine.operator.combine q p = .error err := map_eq_error_iff.1 hsym.symm
    refine .inl ⟨err, rfl, by rw [hqp]; rfl, fun hdom => ?_⟩
    exact hdom.isDomain (Operator.refuses_of_combine hpq)
  | ok c =>
    rw [hpq] at hsym
    obtain ⟨c', hqp, hresult⟩ := map_eq_ok_iff.1 hsym.symm
    refine .inr ⟨c.result, ⟨rfl, denote_application hn hpq⟩, ?_, ?_⟩
    · rw [hqp, Except.map, hresult]
    · rw [denote_application hn hqp, hresult]

/-! ## Chains under the identity operator -/

/-- **Under the identity adjectives change nothing.**  Whatever evaluates to a noun does so under
adjectives, with a step more for each of them, and denotes it. -/
theorem evaluate_under_identity {e : Engine} (he : e.operator = .identity)
    (hs : s.engine.operator = .identity) (ps : List Prime) {q : Prime}
    (h : e.evaluate t = .ok (.noun q)) (hm : e.maxSteps + ps.length ≤ s.engine.maxSteps) :
    s.engine.evaluate (.ofOperators (ps.map .adj) t) = .ok (.noun q) ∧
      (2 * (e.maxSteps + ps.length) ≤ s.evaluationSteps →
        s.denotedPrime (.ofOperators (ps.map .adj) t) = .ok (some q)) := by
  obtain ⟨evs, hbig, hlen⟩ := Engine.evaluate_eq_noun_iff.1 h
  obtain ⟨evs', hops, hlen', _⟩ := bigStepOperators_identity ps q
  rw [he, ← hs] at hbig
  rw [← hs] at hops
  obtain ⟨all, hall, hcount⟩ := Operator.bigStepNoun_ofOperators_of_ok hbig hops
  have hle : all.length ≤ e.maxSteps + ps.length := by
    simp only at hcount
    omega
  have happ : Event.applications all ≤ all.length := List.countP_le_length
  refine ⟨Engine.evaluate_eq_noun_iff.2 ⟨all, hall, Nat.le_trans hle hm⟩, fun hn => ?_⟩
  rw [denotedPrime, denote_of_bigStepNoun hall (by simp only; omega)]
  rfl

end Semantics

/-- **On ascending primes adjective and noun may change places.**  An operator that accepts exactly
the ascending primes combines both orders to one result, that of the smaller and the larger prime, or
fails with one error; a prime acts on itself without the operator.  So an adjective over a noun and
the two exchanged both fail to reduce with one error, a domain error if the operator keeps its
contract, or reduce to one noun and denote it.  All built-in operators but the identity are of this
kind.  Under the identity the noun wins instead: a chain of adjectives over whatever evaluates to a
noun evaluates to that noun. -/
theorem application_symmetric :
    (∀ op : Operator, op.accepts = ascendingPrimes → ∀ a n : Prime, op.OrderedOn a n) ∧
    (∀ (k : OperatorKind) (m : Modulus), k ≠ .identity →
      (k.build m).accepts = ascendingPrimes ∧ (k.build m).FailsByDomain) ∧
    (∀ s : Semantics, s.engine.operator.accepts = ascendingPrimes → 1 ≤ s.engine.maxSteps →
      2 ≤ s.evaluationSteps → ∀ p q : Prime,
        (∃ err, s.engine.evaluate (.application p q) = .error err ∧
          s.engine.evaluate (.application q p) = .error err ∧
          (s.engine.operator.FailsByDomain → err.IsDomain)) ∨
        ∃ r, (s.engine.evaluate (.application p q) = .ok (.noun r) ∧
            s.denote (.application p q) = .ok ⟨.const r, 2, true⟩) ∧
          s.engine.evaluate (.application q p) = .ok (.noun r) ∧
            s.denote (.application q p) = .ok ⟨.const r, 2, true⟩) ∧
    ∀ (e : Engine) (s : Semantics), e.operator = .identity → s.engine.operator = .identity →
      ∀ (ps : List Prime) (t : Term) (q : Prime), e.evaluate t = .ok (.noun q) →
        e.maxSteps + ps.length ≤ s.engine.maxSteps →
          s.engine.evaluate (.ofOperators (ps.map .adj) t) = .ok (.noun q) ∧
            (2 * (e.maxSteps + ps.length) ≤ s.evaluationSteps →
              s.denotedPrime (.ofOperators (ps.map .adj) t) = .ok (some q)) := by
  refine ⟨fun op hop a n => Operator.orderedOn hop a n, fun k m hk => ?_, ?_, ?_⟩
  · exact ⟨Operator.build_accepts hk m, Operator.build_failsByDomain k m⟩
  · intro s hop hm hn p q
    exact Semantics.chain_symmetric hop hm hn p q
  · intro e s he hs ps t q h hm
    exact Semantics.evaluate_under_identity he hs ps h hm

open OverlappingRedexes in
/-- Three and seven in both orders under an operator that has a result and under one that has none,
five on itself where the operator is not asked, and adjectives over a fusion under the identity. -/
theorem application_symmetric_eleven :
    let s (op : Operator) : Semantics := ⟨⟨op, 1, .leftmostFirst⟩, 2⟩
    let never : Operator := .ofResult "never" ascendingPrimes fun _ _ => none
    let under : Semantics := ⟨⟨.identity, 3, .rightmostFirst⟩, 6⟩
    (Operator.nextSum.combine p7 p3).map (·.result) = .ok p11 ∧
    never.combine p5 p5 = .ok ⟨p5, .fallback⟩ ∧
    ((s .nextSum).engine.evaluate (.application p7 p3) = .ok (.noun p11) ∧
      (s .nextSum).denote (.application p7 p3) = .ok ⟨.const p11, 2, true⟩) ∧
    (∃ err, (s never).engine.evaluate (.application p3 p7) = .error err ∧
      (s never).engine.evaluate (.application p7 p3) = .error err ∧ err.IsDomain) ∧
    under.engine.evaluate (.ofOperators [.adj p2, .adj p7] fusion19) = .ok (.noun p19) ∧
      under.denotedPrime (.ofOperators [.adj p2, .adj p7] fusion19) = .ok (some p19) := by
  intro s never under
  obtain ⟨hordered, hbuilt, hchain, hidentity⟩ := application_symmetric
  obtain ⟨hnext, _⟩ := hbuilt .nextPrime .standard (by decide)
  refine ⟨?_, ?_, ?_, ?_, ?_⟩
  · rw [← (hordered .nextSum hnext p3 p7).symmetric]
    cbv
  · exact (hordered never rfl p5 p5).same rfl never.apply
  · have heleven : (s .nextSum).engine.evaluate (.application p3 p7) = .ok (.noun p11) := by cbv
    rcases hchain (s .nextSum) hnext (by decide) (by decide) p3 p7 with
      ⟨err, herr, _⟩ | ⟨r, ⟨heval, _⟩, hswapped⟩
    · cases heleven.symm.trans herr
    · cases heleven.symm.trans heval
      exact hswapped
  · have hcontract : never.FailsByDomain := Operator.ofResult_failsByDomain _ _ _
    have hfails : (s never).engine.evaluate (.application p3 p7) =
        .error (.operatorDomain "never" 3 7) := by cbv
    rcases hchain (s never) rfl (by decide) (by decide) p3 p7 with
      ⟨err, hpq, hqp, hdom⟩ | ⟨r, ⟨heval, _⟩, _⟩
    · exact ⟨err, hpq, hqp, hdom hcontract⟩
    · cases hfails.symm.trans heval
  · have hfusion : (Engine.mk .identity 1 .leftmostFirst).evaluate fusion19 = .ok (.noun p19) := by
      cbv
    obtain ⟨heval, hdenote⟩ := hidentity ⟨.identity, 1, .leftmostFirst⟩ under rfl rfl [p2, p7]
      fusion19 p19 hfusion (by decide)
    exact ⟨heval, hdenote (by decide)⟩

end PrimeLanguage
