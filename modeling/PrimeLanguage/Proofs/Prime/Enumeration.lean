import Mathlib.Data.Set.Card
import PrimeLanguage.Proofs.Prime.Oracle
import PrimeLanguage.Proofs.Prime.Search

/-!
# The primes in order

A table of primes grows with the requests made of it, each of which goes on where the one before it
stopped.  The answers do not show it: they are those of a new table.

* `IsInitial` — an initial segment of the primes: ascending, and without gaps;
* `PrimeTable.firstAll` — requests one after the other.

`IsInitial.unique` says that an initial segment is determined by its length.  `IsInitial.extend` is
about one request, by induction on the primes that are added to the table; `IsInitial.firstAll` is
about any number of requests.

Principal result: `enumeration_independent`.
-/

namespace PrimeLanguage

/-- An initial segment of the primes in ascending order: no prime below one of them is missing. -/
structure IsInitial (ps : List Prime) : Prop where
  ascending : ps.Pairwise (· < ·)
  gapFree : ∀ p ∈ ps, ∀ q : Prime, q < p → q ∈ ps

/-- Requests one after the other: what each of them returns, and the table as it stands then. -/
def PrimeTable.firstAll (t : PrimeTable) : List Nat → List (List Prime × PrimeTable)
  | [] => []
  | k :: ks => t.first k :: (t.first k).2.firstAll ks

namespace IsInitial

variable {ps qs : List Prime} {t : PrimeTable} {k : Nat}

/-! ## Initial segments -/

theorem nil : IsInitial [] := ⟨.nil, fun _ h => absurd h List.not_mem_nil⟩

theorem nodup (h : IsInitial ps) : ps.Nodup :=
  h.ascending.imp fun hlt => Prime.ne_of_val_lt hlt

theorem of_isPrefix (h : IsInitial ps) (hqs : qs <+: ps) : IsInitial qs := by
  obtain ⟨rest, rfl⟩ := hqs
  obtain ⟨hascending, _, hlt⟩ := List.pairwise_append.1 h.ascending
  refine ⟨hascending, fun p hp q hq => ?_⟩
  rcases List.mem_append.1 (h.gapFree p (List.mem_append_left rest hp) q hq) with hmem | hmem
  · exact hmem
  · exact absurd hq (Nat.lt_asymm (hlt p hp q hmem))

/-- A segment goes on with the least prime that is not in it. -/
theorem concat (h : IsInitial ps) {p : Prime} (hp : ∀ q : Prime, q ∈ ps ↔ q.val < p.val) :
    IsInitial (ps ++ [p]) := by
  constructor
  · refine List.pairwise_append.2 ⟨h.ascending, List.pairwise_singleton _ p, ?_⟩
    intro q hq r hr
    rw [List.mem_singleton.1 hr]
    exact (hp q).1 hq
  · intro r hr q hlt
    rcases List.mem_append.1 hr with hmem | hmem
    · exact List.mem_append_left [p] (h.gapFree r hmem q hlt)
    · rw [List.mem_singleton.1 hmem] at hlt
      exact List.mem_append_left [p] ((hp q).2 hlt)

/-- Of two initial segments one is part of the other. -/
theorem subset_or_subset (hp : IsInitial ps) (hq : IsInitial qs) : ps ⊆ qs ∨ qs ⊆ ps := by
  by_cases hsub : ps ⊆ qs
  · exact Or.inl hsub
  · right
    obtain ⟨p, hmem, hnot⟩ := Set.not_subset.1 hsub
    intro q hqs
    rcases Nat.lt_trichotomy q.val p.val with hlt | heq | hlt
    · exact hp.gapFree p hmem q hlt
    · exact Prime.ext heq ▸ hmem
    · exact absurd (hq.gapFree q hqs p hlt) hnot

theorem eq_of_subset (hp : IsInitial ps) (hq : IsInitial qs) (hsub : ps ⊆ qs)
    (hlen : qs.length ≤ ps.length) : ps = qs := by
  have hperm : ps.Perm qs := (hp.nodup.subperm hsub).perm_of_length_le hlen
  exact hperm.eq_of_pairwise (fun _ _ _ _ h h' => absurd h' (Nat.lt_asymm h)) hp.ascending
    hq.ascending

/-- **An initial segment is determined by its length.** -/
theorem unique (hp : IsInitial ps) (hq : IsInitial qs) (hlen : ps.length = qs.length) :
    ps = qs := by
  rcases hp.subset_or_subset hq with hsub | hsub
  · exact hp.eq_of_subset hq hsub hlen.ge
  · exact (hq.eq_of_subset hp hsub hlen.le).symm

/-! ## One request -/

/-- The primes in a table are those below the word where the enumeration goes on. -/
theorem mem_iff_lt_resume (h : IsInitial t.primes.toList) (q : Prime) :
    q ∈ t.primes.toList ↔ q.val < t.resume := by
  unfold PrimeTable.resume
  rw [← Array.getLast?_toList]
  rcases List.eq_nil_or_concat t.primes.toList with hnil | ⟨front, last, hfront⟩
  · have htwo := q.two_le
    simp only [hnil, List.not_mem_nil, List.getLast?_nil, false_iff]
    omega
  · rw [List.concat_eq_append] at hfront
    rw [hfront] at h ⊢
    simp only [List.getLast?_append, List.getLast?_singleton, Option.some_or]
    constructor
    · intro hq
      rcases List.mem_append.1 hq with hmem | hmem
      · have hlt : q.val < last.val :=
          (List.pairwise_append.1 h.ascending).2.2 q hmem last (List.mem_singleton_self last)
        omega
      · rw [List.mem_singleton.1 hmem]
        exact Nat.lt_succ_self _
    · intro hlt
      have hlast : last ∈ front ++ [last] :=
        List.mem_append_right front (List.mem_singleton_self last)
      rcases Nat.lt_succ_iff_lt_or_eq.1 hlt with hbelow | heq
      · exact h.gapFree last hlast q hbelow
      · exact Prime.ext heq ▸ hlast

/-- The enumeration finds the least prime that is not in the table. -/
theorem mem_iff_lt_of_nextPrime (h : IsInitial t.primes.toList) {p : Prime}
    (hp : nextPrime t.resume = some p) (q : Prime) : q ∈ t.primes.toList ↔ q.val < p.val := by
  rw [h.mem_iff_lt_resume]
  constructor
  · intro hlt
    exact Nat.lt_of_lt_of_le hlt (nextPrime_ge hp)
  · intro hlt
    by_contra hge
    exact absurd (nextPrime_least hp q (Nat.le_of_not_lt hge)) (Nat.not_le_of_lt hlt)

/-- **A request extends the table** by the primes that come next. -/
theorem extend (h : IsInitial t.primes.toList) (k : Nat) :
    IsInitial (t.extend k).primes.toList ∧ t.primes.toList <+: (t.extend k).primes.toList := by
  fun_induction PrimeTable.extend k t with
  | case1 t hsize p hp ih =>
    rw [Array.toList_push] at ih
    obtain ⟨hinitial, hprefix⟩ := ih (h.concat (h.mem_iff_lt_of_nextPrime hp))
    exact ⟨hinitial, (List.prefix_append _ _).trans hprefix⟩
  | case2 t hsize hnone => exact ⟨h, List.prefix_rfl⟩
  | case3 t hsize => exact ⟨h, List.prefix_rfl⟩

/-- A table that cannot be extended holds every accepted word. -/
theorem encard_le_of_nextPrime (h : IsInitial t.primes.toList) (hnone : nextPrime t.resume = none) :
    (acceptedFrom 0).encard ≤ t.primes.size := by
  have hsub : acceptedFrom 0 ⊆ ((t.primes.toList.map Prime.val).toFinset : Set Nat) := by
    rintro r ⟨_, hword, hacc⟩
    have hlt : r < t.resume := by
      by_contra hge
      have hmem : r ∈ acceptedFrom t.resume := ⟨Nat.le_of_not_lt hge, hword, hacc⟩
      rw [nextPrime_eq_none_iff.1 hnone] at hmem
      exact hmem
    have hr : (⟨r, hword, hacc⟩ : Prime) ∈ t.primes.toList := (h.mem_iff_lt_resume _).2 hlt
    rw [Finset.mem_coe, List.mem_toFinset]
    exact List.mem_map_of_mem hr
  calc (acceptedFrom 0).encard
      ≤ ((t.primes.toList.map Prime.val).toFinset : Set Nat).encard := Set.encard_le_encard hsub
    _ = (t.primes.toList.map Prime.val).toFinset.card := Set.encard_coe_eq_coe_finsetCard _
    _ ≤ t.primes.size := by
      have hcard := List.toFinset_card_le (t.primes.toList.map Prime.val)
      rw [List.length_map, Array.length_toList] at hcard
      exact_mod_cast hcard

/-- A request for no more primes than there are is met. -/
theorem size_extend (h : IsInitial t.primes.toList) (hk : (k : ℕ∞) ≤ (acceptedFrom 0).encard) :
    k ≤ (t.extend k).primes.size := by
  fun_induction PrimeTable.extend k t with
  | case1 t hsize p hp ih =>
    rw [Array.toList_push] at ih
    exact ih (h.concat (h.mem_iff_lt_of_nextPrime hp))
  | case2 t hsize hnone => exact_mod_cast hk.trans (h.encard_le_of_nextPrime hnone)
  | case3 t hsize => exact Nat.le_of_not_lt hsize

/-- The answer to a request is the initial segment of the length asked for. -/
theorem first (h : IsInitial t.primes.toList) (hk : (k : ℕ∞) ≤ (acceptedFrom 0).encard) :
    IsInitial (t.first k).1 ∧ (t.first k).1.length = k := by
  refine ⟨(h.extend k).1.of_isPrefix (List.take_prefix k _), ?_⟩
  rw [PrimeTable.first, List.length_take, Array.length_toList]
  exact Nat.min_eq_left (h.size_extend hk)

/-- The history of a table does not show in its answer. -/
theorem first_eq (h : IsInitial t.primes.toList) (hk : (k : ℕ∞) ≤ (acceptedFrom 0).encard) :
    (t.first k).1 = firstPrimes k := by
  obtain ⟨hinitial, hlen⟩ := h.first hk
  obtain ⟨hinitial', hlen'⟩ := nil.first (t := .empty) hk
  exact hinitial.unique hinitial' (hlen.trans hlen'.symm)

/-! ## Any number of requests -/

/-- **Requests one after the other**, by induction: every answer is that of a new table, and every
table goes on from the one before it. -/
theorem firstAll (h : IsInitial t.primes.toList) {ks : List Nat}
    (hks : ∀ k ∈ ks, (k : ℕ∞) ≤ (acceptedFrom 0).encard) :
    List.Forall₂ (fun k (call : List Prime × PrimeTable) =>
      IsInitial call.1 ∧ call.1.length = k ∧ call.1 = firstPrimes k) ks (t.firstAll ks) ∧
    (∀ call ∈ t.firstAll ks, IsInitial call.2.primes.toList) ∧
    (t :: (t.firstAll ks).map Prod.snd).Pairwise
      (fun before after => before.primes.toList <+: after.primes.toList) := by
  induction ks generalizing t with
  | nil => exact ⟨.nil, nofun, List.pairwise_singleton _ _⟩
  | cons k ks ih =>
    obtain ⟨hk, hks⟩ := List.forall_mem_cons.1 hks
    obtain ⟨hnext, hprefix⟩ := h.extend k
    obtain ⟨hanswers, htables, hgrows⟩ := ih hnext hks
    obtain ⟨hinitial, hlen⟩ := h.first hk
    refine ⟨.cons ⟨hinitial, hlen, h.first_eq hk⟩ hanswers,
      List.forall_mem_cons.2 ⟨hnext, htables⟩, List.pairwise_cons.2 ⟨?_, hgrows⟩⟩
    intro u hu
    rcases List.mem_cons.1 hu with rfl | hmem
    · exact hprefix
    · exact hprefix.trans ((List.pairwise_cons.1 hgrows).1 u hmem)

end IsInitial

/-- The enumeration goes on at a word: the last word is not accepted. -/
theorem PrimeTable.resume_lt (t : PrimeTable) : t.resume < wordLimit := by
  unfold resume
  cases t.primes.back? with
  | none => decide
  | some p =>
    have hlast : p.val ≠ wordLimit - 1 := by
      intro h
      have hrefused : isPrime (wordLimit - 1) = false :=
        isPrime_eq_false_of_dvd (p := 3) (by decide) Nat.prime_three (by decide) (by decide)
          (by decide)
      rw [← h, p.accepted] at hrefused
      cases hrefused
    have hword := p.lt_wordLimit
    simp only
    omega

/-- **The enumeration of the primes does not depend on its history.**  Whatever numbers of primes are
asked for one after the other, none of them larger than the number of accepted words, each request is
answered by an initial segment of the primes of the length asked for, which is the answer of a new
table.  The tables in between are initial segments as well, the enumeration goes on at a word, and
none of them is lost: each is a prefix of those that follow. -/
theorem enumeration_independent (ks : List Nat)
    (hks : ∀ k ∈ ks, (k : ℕ∞) ≤ (acceptedFrom 0).encard) :
    let calls := PrimeTable.empty.firstAll ks
    List.Forall₂ (fun k (call : List Prime × PrimeTable) =>
      IsInitial call.1 ∧ call.1.length = k ∧ call.1 = firstPrimes k) ks calls ∧
    (∀ call ∈ calls, IsInitial call.2.primes.toList ∧ call.2.resume < wordLimit) ∧
    (PrimeTable.empty :: calls.map Prod.snd).Pairwise
      (fun before after => before.primes.toList <+: after.primes.toList) := by
  intro calls
  obtain ⟨hanswers, htables, hgrows⟩ := IsInitial.nil.firstAll (t := .empty) hks
  exact ⟨hanswers, fun call hcall => ⟨htables call hcall, call.2.resume_lt⟩, hgrows⟩

/-- There are ten accepted words at least. -/
theorem ten_le_encard : ((10 : Nat) : ℕ∞) ≤ (acceptedFrom 0).encard := by
  have hsub : (({2, 3, 5, 7, 11, 13, 17, 19, 23, 29} : Finset Nat) : Set Nat) ⊆ acceptedFrom 0 := by
    have hall : ∀ r ∈ ({2, 3, 5, 7, 11, 13, 17, 19, 23, 29} : Finset Nat),
        r < wordLimit ∧ isPrime r = true := by decide
    intro r hr
    exact ⟨Nat.zero_le r, hall r hr⟩
  have hcard := Set.encard_le_encard hsub
  rwa [Set.encard_coe_eq_coe_finsetCard] at hcard

/-- Three primes, ten, none and five: the last two requests find what they ask for in the table. -/
theorem enumeration_independent_four :
    (∀ k ∈ ([3, 10, 0, 5] : List Nat), (k : ℕ∞) ≤ (acceptedFrom 0).encard) ∧
    List.Forall₂ (fun k (call : List Prime × PrimeTable) =>
      IsInitial call.1 ∧ call.1.length = k ∧ call.1 = firstPrimes k) [3, 10, 0, 5]
      (PrimeTable.empty.firstAll [3, 10, 0, 5]) ∧
    (firstPrimes 5).map Prime.val = [2, 3, 5, 7, 11] := by
  have hks : ∀ k ∈ ([3, 10, 0, 5] : List Nat), (k : ℕ∞) ≤ (acceptedFrom 0).encard := by
    intro k hk
    have hten : k ≤ 10 := by
      simp only [List.mem_cons, List.not_mem_nil, or_false] at hk
      omega
    exact le_trans (by exact_mod_cast hten) ten_le_encard
  exact ⟨hks, (enumeration_independent _ hks).1, by cbv⟩

end PrimeLanguage
