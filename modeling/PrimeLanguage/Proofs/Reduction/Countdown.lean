import Mathlib.Algebra.BigOperators.Ring.List
import Mathlib.Algebra.Order.BigOperators.Group.List
import Mathlib.Algebra.Order.BigOperators.GroupWithZero.List
import Mathlib.Data.List.Forall2
import Mathlib.Data.Nat.Choose.Basic
import Mathlib.Data.Set.Card
import Mathlib.Order.Interval.Finset.Nat
import Mathlib.Tactic.Ring

/-!
# Counting down

Several counts are taken down to zero, by one at a time and at any of them.

* `decrements` — the counts after one step, for each step there is, from left to right;
* `Below` — the counts on the way, which are those that are nowhere larger;
* `interleavings` — in how many orders the steps can be taken.

`exists_decrement` says that the way down misses no counts below, `encard_below` and
`interleavings_eq_div` count what comes up and the orders, and `sum_interleavings` is the recursion
that a walk over all ways computes.
-/

namespace PrimeLanguage

namespace Countdown

open scoped Nat

/-! ## One step -/

/-- The counts with one taken off, at each place that has one, from left to right. -/
def decrements : List Nat → List (List Nat)
  | [] => []
  | 0 :: ks => (decrements ks).map (0 :: ·)
  | (k + 1) :: ks => (k :: ks) :: (decrements ks).map ((k + 1) :: ·)

@[simp] theorem decrements_nil : decrements [] = [] := rfl

@[simp] theorem decrements_zero_cons (ks : List Nat) :
    decrements (0 :: ks) = (decrements ks).map (0 :: ·) := rfl

@[simp] theorem decrements_succ_cons (k : Nat) (ks : List Nat) :
    decrements ((k + 1) :: ks) = (k :: ks) :: (decrements ks).map ((k + 1) :: ·) := rfl

theorem decrements_append (as bs : List Nat) :
    decrements (as ++ bs) =
      (decrements as).map (· ++ bs) ++ (decrements bs).map (as ++ ·) := by
  induction as with
  | nil => simp
  | cons k as ih => cases k <;> simp [ih, Function.comp_def]

variable {ks ws : List Nat}

theorem sum_of_mem_decrements (h : ws ∈ decrements ks) : ws.sum + 1 = ks.sum := by
  induction ks generalizing ws with
  | nil => cases h
  | cons k ks ih =>
    cases k with
    | zero =>
      obtain ⟨vs, hvs, rfl⟩ := List.mem_map.1 h
      simpa using ih hvs
    | succ k =>
      rcases List.mem_cons.1 h with rfl | h
      · simp only [List.sum_cons]; omega
      · obtain ⟨vs, hvs, rfl⟩ := List.mem_map.1 h
        have hsum := ih hvs
        simp only [List.sum_cons]
        omega

/-- There is a step as long as something is left. -/
theorem decrements_eq_nil_iff : decrements ks = [] ↔ ks.sum = 0 := by
  induction ks with
  | nil => simp
  | cons k ks ih => cases k <;> simp [ih]

/-- Different steps lead to different counts. -/
theorem nodup_decrements (ks : List Nat) : (decrements ks).Nodup := by
  induction ks with
  | nil => exact List.nodup_nil
  | cons k ks ih =>
    cases k with
    | zero => exact ih.map fun _ _ h => (List.cons.inj h).2
    | succ k =>
      refine List.nodup_cons.2 ⟨fun h => ?_, ih.map fun _ _ h => (List.cons.inj h).2⟩
      obtain ⟨vs, _, hvs⟩ := List.mem_map.1 h
      exact absurd (List.cons.inj hvs).1 (Nat.succ_ne_self k)

/-! ## The counts on the way down -/

/-- The counts that are nowhere larger. -/
def Below (ks : List Nat) : Set (List Nat) := {ws | List.Forall₂ (· ≤ ·) ws ks}

theorem mem_below_self (ks : List Nat) : ks ∈ Below ks :=
  List.forall₂_same.2 fun _ _ => Nat.le_refl _

theorem below_trans {us : List Nat} (h : us ∈ Below ws) (h' : ws ∈ Below ks) : us ∈ Below ks := by
  induction h' generalizing us with
  | nil => exact h
  | cons hle _ ih =>
    obtain _ | ⟨hle', htail⟩ := h
    exact .cons (Nat.le_trans hle' hle) (ih htail)

theorem cons_mem_below_cons {k j : Nat} : j :: ws ∈ Below (k :: ks) ↔ j ≤ k ∧ ws ∈ Below ks :=
  List.forall₂_cons

theorem below_of_mem_decrements (h : ws ∈ decrements ks) : ws ∈ Below ks := by
  induction ks generalizing ws with
  | nil => cases h
  | cons k ks ih =>
    cases k with
    | zero =>
      obtain ⟨vs, hvs, rfl⟩ := List.mem_map.1 h
      exact cons_mem_below_cons.2 ⟨Nat.le_refl 0, ih hvs⟩
    | succ k =>
      rcases List.mem_cons.1 h with rfl | h
      · exact cons_mem_below_cons.2 ⟨Nat.le_succ k, mem_below_self ks⟩
      · obtain ⟨vs, hvs, rfl⟩ := List.mem_map.1 h
        exact cons_mem_below_cons.2 ⟨Nat.le_refl _, ih hvs⟩

/-- **Whatever is below lies on a way down**: if it is not the start, some step keeps it below. -/
theorem exists_decrement (h : ws ∈ Below ks) (hne : ws ≠ ks) :
    ∃ vs ∈ decrements ks, ws ∈ Below vs := by
  induction h with
  | nil => exact absurd rfl hne
  | @cons j k ws ks hle htail ih =>
    by_cases hws : ws = ks
    · -- the rest is at the start, so the first count is not
      have hlt : j < k := Nat.lt_of_le_of_ne hle fun hjk => hne (by rw [hjk, hws])
      obtain ⟨k, rfl⟩ := Nat.exists_eq_add_one_of_ne_zero (Nat.ne_of_gt (Nat.zero_lt_of_lt hlt))
      exact ⟨k :: ks, List.mem_cons_self, cons_mem_below_cons.2 ⟨Nat.le_of_lt_succ hlt, htail⟩⟩
    · obtain ⟨vs, hvs, hbelow⟩ := ih hws
      refine ⟨k :: vs, ?_, cons_mem_below_cons.2 ⟨hle, hbelow⟩⟩
      cases k with
      | zero => exact List.mem_map_of_mem hvs
      | succ k => exact List.mem_cons_of_mem _ (List.mem_map_of_mem hvs)

theorem exists_below_sum_eq_zero (ks : List Nat) : ∃ ws ∈ Below ks, ws.sum = 0 := by
  induction ks with
  | nil => exact ⟨[], .nil, rfl⟩
  | cons k ks ih =>
    obtain ⟨ws, hws, hsum⟩ := ih
    exact ⟨0 :: ws, .cons (Nat.zero_le k) hws, by simpa using hsum⟩

/-- **How many counts come up**: one more than its size for each count, independently. -/
theorem encard_below (ks : List Nat) :
    (Below ks).encard = ((ks.map (· + 1)).prod : Nat) := by
  induction ks with
  | nil =>
    have hnil : Below [] = {[]} := Set.ext fun ws => List.forall₂_nil_right_iff
    rw [hnil, Set.encard_singleton]
    rfl
  | cons k ks ih =>
    have himage : Below (k :: ks) =
        (fun p : Nat × List Nat => p.1 :: p.2) '' (Set.Iic k ×ˢ Below ks) := by
      ext ws
      constructor
      · intro h
        obtain _ | ⟨hle, htail⟩ := h
        exact ⟨(_, _), ⟨hle, htail⟩, rfl⟩
      · rintro ⟨⟨j, vs⟩, ⟨hle, htail⟩, rfl⟩
        exact cons_mem_below_cons.2 ⟨hle, htail⟩
    have hinj : Function.Injective fun p : Nat × List Nat => p.1 :: p.2 :=
      fun p q h => Prod.ext (List.cons.inj h).1 (List.cons.inj h).2
    have hiic : (Set.Iic k).encard = (k + 1 : Nat) := by
      rw [← Finset.coe_Iic, Set.encard_coe_eq_coe_finsetCard, Nat.card_Iic]
    rw [himage, hinj.encard_image, Set.encard_prod, hiic, ih, List.map_cons, List.prod_cons,
      Nat.cast_mul]

/-- The counts below a concatenation are below its parts, one after the other. -/
theorem mem_below_append {as bs us : List Nat} :
    us ∈ Below (as ++ bs) ↔ ∃ vs ∈ Below as, ∃ ws ∈ Below bs, us = vs ++ ws := by
  constructor
  · intro h
    exact ⟨us.take as.length, List.forall₂_take_append us as bs h, us.drop as.length,
      List.forall₂_drop_append us as bs h, (List.take_append_drop as.length us).symm⟩
  · rintro ⟨vs, hvs, ws, hws, rfl⟩
    exact List.rel_append hvs hws

/-- A step is never undone. -/
theorem not_below_of_mem_decrements (h : ws ∈ decrements ks) : ks ∉ Below ws := fun hbelow => by
  have hsum := sum_of_mem_decrements h
  have hle := List.Forall₂.sum_le_sum hbelow
  omega

/-! ## The last count -/

/-- The last of the counts that are not zero; zero if all of them are. -/
def lastCount : List Nat → Nat
  | [] => 0
  | k :: ks => if ks.sum = 0 then k else lastCount ks

/-- With nothing left behind the first count there is one step, as long as it lasts. -/
theorem decrements_cons_of_sum_eq_zero (h : ks.sum = 0) (n : Nat) :
    decrements (n :: ks) = [] ∨ ∃ m, n = m + 1 ∧ decrements (n :: ks) = [m :: ks] := by
  have hnil := decrements_eq_nil_iff.2 h
  cases n with
  | zero => exact Or.inl (by rw [decrements_zero_cons, hnil]; rfl)
  | succ m => exact Or.inr ⟨m, rfl, by rw [decrements_succ_cons, hnil]; rfl⟩

/-- What stands behind the last count is zero. -/
theorem exists_split_last (h : ks.sum ≠ 0) :
    ∃ as k zs, ks = as ++ (k + 1) :: zs ∧ zs.sum = 0 ∧ lastCount ks = k + 1 := by
  induction ks with
  | nil => exact absurd rfl h
  | cons k ks ih =>
    by_cases hzero : ks.sum = 0
    · have hk : k ≠ 0 := fun hk => h (by rw [List.sum_cons, hk, hzero])
      obtain ⟨k, rfl⟩ := Nat.exists_eq_add_one_of_ne_zero hk
      exact ⟨[], k, ks, rfl, hzero, if_pos hzero⟩
    · obtain ⟨as, j, zs, rfl, hzs, hlast⟩ := ih hzero
      exact ⟨k :: as, j, zs, rfl, hzs, (if_neg hzero).trans hlast⟩

theorem lastCount_of_sum_eq_zero (h : ks.sum = 0) : lastCount ks = 0 := by
  cases ks with
  | nil => rfl
  | cons k ks =>
    rw [List.sum_cons, Nat.add_eq_zero_iff] at h
    exact (if_pos h.2).trans h.1

theorem prod_succ_of_sum_eq_zero (h : ks.sum = 0) : (ks.map (· + 1)).prod = 1 :=
  List.prod_eq_one fun n hn => by
    obtain ⟨k, hk, rfl⟩ := List.mem_map.1 hn
    rw [List.sum_eq_zero_iff.1 h k hk, Nat.zero_add]

/-! ## The orders of the steps -/

/-- In how many orders the counts can be taken down to zero: the places of the first count's steps
among all of them, and the orders of the rest. -/
def interleavings : List Nat → Nat
  | [] => 1
  | k :: ks => (k + ks.sum).choose k * interleavings ks

theorem interleavings_mul_prod_factorial (ks : List Nat) :
    interleavings ks * (ks.map (· !)).prod = ks.sum ! := by
  induction ks with
  | nil => rfl
  | cons k ks ih =>
    calc interleavings (k :: ks) * ((k :: ks).map (· !)).prod
        = (k + ks.sum).choose k * k ! * (interleavings ks * (ks.map (· !)).prod) := by
          simp only [interleavings, List.map_cons, List.prod_cons]; ring
      _ = (k + ks.sum).choose k * k ! * ks.sum ! := by rw [ih]
      _ = (k :: ks).sum ! := by
          rw [List.sum_cons, ← Nat.add_choose_mul_factorial_mul_factorial, Nat.choose_symm_add]

/-- **The orders are counted by the multinomial coefficient.** -/
theorem interleavings_eq_div (ks : List Nat) :
    interleavings ks = ks.sum ! / (ks.map (· !)).prod := by
  have hpos : 0 < (ks.map (· !)).prod := List.prod_pos fun n hn => by
    obtain ⟨k, _, rfl⟩ := List.mem_map.1 hn
    exact Nat.factorial_pos k
  exact (Nat.div_eq_of_eq_mul_left hpos (interleavings_mul_prod_factorial ks).symm).symm

theorem interleavings_of_sum_eq_zero (h : ks.sum = 0) : interleavings ks = 1 := by
  rw [interleavings_eq_div, h]
  have hone : (ks.map (· !)).prod = 1 := List.prod_eq_one fun n hn => by
    obtain ⟨k, hk, rfl⟩ := List.mem_map.1 hn
    rw [List.sum_eq_zero_iff.1 h k hk]
    rfl
  rw [hone]
  rfl

/-- The orders in which the rest goes on, for a first count that waits. -/
theorem sum_interleavings_waiting (k : Nat) (ks : List Nat)
    (ih : 0 < ks.sum → ((decrements ks).map interleavings).sum = interleavings ks) :
    (((decrements ks).map ((k + 1) :: ·)).map interleavings).sum =
      (k + ks.sum).choose (k + 1) * interleavings ks := by
  have hwait : ∀ ws ∈ decrements ks,
      interleavings ((k + 1) :: ws) = (k + ks.sum).choose (k + 1) * interleavings ws := by
    intro ws hws
    have hsum := sum_of_mem_decrements hws
    rw [interleavings, ← hsum, Nat.add_right_comm, Nat.add_assoc]
  rw [List.map_map, List.map_congr_left (f := interleavings ∘ _) hwait, List.sum_map_mul_left]
  rcases Nat.eq_zero_or_pos ks.sum with hzero | hpos
  · rw [hzero, Nat.add_zero, Nat.choose_succ_self, Nat.zero_mul, Nat.zero_mul]
  · rw [ih hpos]

/-- **An order is a first step and an order of what is left**, by Pascal's rule at each place. -/
theorem sum_interleavings (h : 0 < ks.sum) :
    ((decrements ks).map interleavings).sum = interleavings ks := by
  induction ks with
  | nil => cases h
  | cons k ks ih =>
    cases k with
    | zero =>
      rw [List.sum_cons, Nat.zero_add] at h
      simpa [interleavings, Function.comp_def] using ih h
    | succ k =>
      rw [decrements_succ_cons, List.map_cons, List.sum_cons, sum_interleavings_waiting k ks ih,
        interleavings, interleavings, ← Nat.add_mul, ← Nat.choose_succ_succ' (k + ks.sum) k,
        Nat.add_right_comm]

end Countdown

end PrimeLanguage
