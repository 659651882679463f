import PrimeLanguage.Triad.Basic

/-!
# Scoring triads

The score of a triad is a weighted sum of

* `balance` — `1 / (1 + v)` for the variance `v` of the components;
* `smallness` — `1 / ln (p·q·r)`;
* `harmony` — a bonus for each ratio of two components near 2, 3 or 4.

`selectBest` chooses from a list by score: a later entry replaces the best one so far only when its
score is not within the tolerance of it.
-/

namespace PrimeLanguage

/-- Weights of the parts of a score. -/
structure Weights where
  balance : Float
  smallness : Float
  harmony : Float

/-- The weights used unless others are chosen. -/
def Weights.standard : Weights := ⟨0.5, 0.3, 0.2⟩

/-- A prime as a floating-point number. -/
def Prime.toFloat (p : Prime) : Float := p.val.toUInt64.toFloat

namespace Triad

def balance (t : Triad) : Float :=
  let p := t.p.toFloat
  let q := t.q.toFloat
  let r := t.r.toFloat
  let mean := (p + q + r) / 3.0
  let variance :=
    ((p - mean) * (p - mean) + (q - mean) * (q - mean) + (r - mean) * (r - mean)) / 3.0
  1.0 / (1.0 + variance)

def smallness (t : Triad) : Float :=
  1.0 / (t.p.toFloat * t.q.toFloat * t.r.toFloat).log

/-- The bonus for one ratio. -/
def ratioBonus (ratio : Float) : Float :=
  let nearest := ratio.round
  if 2.0 ≤ nearest && nearest ≤ 4.0 then 1.0 / (1.0 + 10.0 * (ratio - nearest).abs) else 0.0

def harmony (t : Triad) : Float :=
  let p := t.p.toFloat
  let q := t.q.toFloat
  let r := t.r.toFloat
  (ratioBonus (q / p) + ratioBonus (r / q) + ratioBonus (r / p)) / 3.0

/-- The weighted score of a triad. -/
def score (w : Weights) (t : Triad) : Float :=
  w.balance * t.balance + w.smallness * t.smallness + w.harmony * t.harmony

/-- Whether a score is no better than `top`, up to the tolerance. -/
def withinTolerance (score top : Float) : Bool := decide (score ≤ top + 1e-12)

end Triad

/-- The better of the best entry so far and the next one. -/
def keepBest {α σ : Type} (score : α → σ) (within : σ → σ → Bool) (best next : α) : α :=
  if within (score next) (score best) then best else next

/-- The entry chosen by score; earlier entries win ties. -/
def selectBest {α σ : Type} (score : α → σ) (within : σ → σ → Bool) : List α → Option α
  | [] => none
  | t :: ts => some (ts.foldl (keepBest score within) t)

end PrimeLanguage
