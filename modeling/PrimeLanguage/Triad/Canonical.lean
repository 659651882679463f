import Std.Data.HashMap
import PrimeLanguage.Triad.Score

/-!
# Canonical triads

A canonicalizer has weights and remembers the triads of every target it was asked for; the memory
never changes an answer.

* `Canonicalizer.triads` — all triads of a prime target;
* `Canonicalizer.canonical` — the one selected by score, if there is any;
* `Canonicalizer.canonicalize` — a term with the canonical triad of its sum in place of every
  well-formed fusion.
-/

namespace PrimeLanguage

/-- Weights, and the triads enumerated so far by target. -/
structure Canonicalizer where
  weights : Weights
  memo : Std.HashMap Nat (List Triad)

namespace Canonicalizer

def ofWeights (w : Weights) : Canonicalizer := ⟨w, ∅⟩

/-- The number of remembered targets. -/
def cachedTargets (c : Canonicalizer) : Nat := c.memo.size

/-- All triads of a prime target. -/
def triads (c : Canonicalizer) (target : Nat) :
    Except InvalidPrime (List Triad × Canonicalizer) :=
  match Prime.ofNat target with
  | .error e => .error e
  | .ok _ =>
    match c.memo[target]? with
    | some ts => .ok (ts, c)
    | none =>
      let ts := Triad.enumerate target
      .ok (ts, { c with memo := c.memo.insert target ts })

/-- The canonical triad of a prime target. -/
def canonical (c : Canonicalizer) (target : Nat) :
    Except InvalidPrime (Option Triad × Canonicalizer) :=
  match c.triads target with
  | .error e => .error e
  | .ok (ts, c) => .ok (selectBest (Triad.score c.weights) Triad.withinTolerance ts, c)

/-- The canonical form of a fusion; an ill-formed one is its own. -/
def canonicalFusion (c : Canonicalizer) (f : Fusion) :
    Except InvalidPrime (Term × Canonicalizer) :=
  match f.fused? with
  | none => .ok (.fusion f, c)
  | some sum =>
    match c.canonical sum.val with
    | .error e => .error e
    | .ok (none, c) => .ok (.fusion f, c)
    | .ok (some t, c) => t.toTerm.map (·, c)

mutual

/-- The canonical form of a term. -/
def canonicalize : Term → Canonicalizer → Except InvalidPrime (Term × Canonicalizer)
  | .noun p, c => .ok (.noun p, c)
  | .adj p, c => .ok (.adj p, c)
  | .fusion f, c => c.canonicalFusion f
  | .chain o os e, c => do
    let (os, c) ← canonicalizeAll os c
    let (o, c) ← canonicalize o c
    let (e, c) ← canonicalize e c
    return (.chain o os e, c)
  | .sentence e, c => do
    let (e, c) ← canonicalize e c
    return (.sentence e, c)
  | .join k l r, c => do
    let (l, c) ← canonicalize l c
    let (r, c) ← canonicalize r c
    return (.join k l r, c)

/-- The canonical forms of operators, the last one to apply first. -/
def canonicalizeAll : List Term → Canonicalizer → Except InvalidPrime (List Term × Canonicalizer)
  | [], c => .ok ([], c)
  | o :: os, c => do
    let (os, c) ← canonicalizeAll os c
    let (o, c) ← canonicalize o c
    return (o :: os, c)

end

end Canonicalizer

end PrimeLanguage
