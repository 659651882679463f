import Std.Data.HashMap
import PrimeLanguage.Reduction.Engine
import PrimeLanguage.Term.Equality

/-!
# Exploring every reduction order

`Engine.explore` walks the reduction graph of a term depth first and counts its maximal paths.
Every term is explored once; the counts are kept in an `Exploration`.  At most `maxExplored` terms
are explored, and a count that is no word stays at the largest word.

`Engine.confluence` reports the terminal term that all paths share.  `overlappingRedexes` are
sentences with several redexes to try it on.
-/

namespace PrimeLanguage

/-- How many distinct terms are explored before the exploration gives up. -/
def maxExplored : Nat := 10000

/-- The number of maximal paths from each explored term, and the terminal terms found. -/
structure Exploration where
  paths : Std.HashMap Term Nat
  terminals : List Term

def Exploration.empty : Exploration := ⟨∅, []⟩

/-- Records a terminal term. -/
def Exploration.addTerminal (x : Exploration) (t : Term) : Exploration :=
  ⟨x.paths.insert t 1, if x.terminals.contains t then x.terminals else x.terminals ++ [t]⟩

/-- Records the number of paths from a term. -/
def Exploration.addPaths (x : Exploration) (t : Term) (n : Nat) : Exploration :=
  { x with paths := x.paths.insert t n }

namespace Engine

mutual

/-- The number of maximal paths from `t`, and what is known after exploring it. -/
def explore (e : Engine) (t : Term) (x : Exploration) : Except Error (Nat × Exploration) :=
  match x.paths[t]? with
  | some n => .ok (n, x)
  | none =>
    if maxExplored ≤ x.paths.size then .error (.nonTermination maxExplored t)
    else
      match h : contractAll e.operator t with
      | .error err => .error err
      | .ok [] => .ok (1, x.addTerminal t)
      | .ok (k :: ks) =>
        match exploreAll e t.measure (k :: ks)
            (fun k hk => Nat.lt_of_succ_le (Nat.le_of_eq (contractAll_measure h k hk))) 0 x with
        | .error err => .error err
        | .ok (total, x) => .ok (total, x.addPaths t total)
termination_by (2 * t.measure + 1, 0)

/-- Adds the number of maximal paths from every contraction to `total`. -/
def exploreAll (e : Engine) (bound : Nat) (ks : List Contraction)
    (small : ∀ k ∈ ks, k.after.measure < bound) (total : Nat) (x : Exploration) :
    Except Error (Nat × Exploration) :=
  match ks with
  | [] => .ok (total, x)
  | k :: ks =>
    have := small k (by simp)
    match explore e k.after x with
    | .error err => .error err
    | .ok (n, x) =>
      exploreAll e bound ks (fun k hk => small k (by simp [hk])) (clampWord (total + n)) x
termination_by (2 * bound, ks.length + 1)

end

end Engine

/-- What the exploration of a term found. -/
structure ConfluenceReport where
  term : Term
  normalForm : Term
  paths : Nat
  states : Nat
  deriving DecidableEq

/-- Explores a term and reports the terminal term that all its reductions share. -/
def Engine.confluence (e : Engine) (t : Term) : Except Error ConfluenceReport :=
  match e.explore t .empty with
  | .error err => .error err
  | .ok (paths, x) =>
    match x.terminals with
    | [] => .error (.nonTermination maxExplored t)
    | [n] => .ok ⟨t, n, paths, x.paths.size⟩
    | n :: n' :: _ => .error (.confluenceViolation t n n')

namespace OverlappingRedexes

def p2 : Prime := .ofAccepted 2 (by decide)
def p3 : Prime := .three
def p5 : Prime := .ofAccepted 5 (by decide)
def p7 : Prime := .ofAccepted 7 (by decide)
def p11 : Prime := .ofAccepted 11 (by decide)
def p13 : Prime := .ofAccepted 13 (by decide)

/-- Fuses to 19. -/
def fusion19 : Term := .fusion ⟨p3, p5, p11, by decide, by decide⟩

/-- Fuses to 23. -/
def fusion23 : Term := .fusion ⟨p5, p7, p11, by decide, by decide⟩

/-- A sentence over adjectives in written order. -/
def sentenceOver (adjectives : List Prime) (e : Term) : Term :=
  .sentence (.ofOperators (adjectives.reverse.map .adj) e)

end OverlappingRedexes

open OverlappingRedexes in
/-- Sentences whose redexes are independent of each other. -/
def overlappingRedexes : List Term :=
  [ .join .seq (.sentence fusion19) (sentenceOver [p2] (.noun p7)),
    .join .imp (sentenceOver [p3] fusion19) (.sentence fusion23),
    .join .seq (.join .seq (.sentence (.noun p2)) (.sentence fusion23))
      (.join .imp (sentenceOver [p5, p3] (.noun p7)) (.sentence fusion19)),
    .join .imp (.join .seq (sentenceOver [p2, p3, p5] (.noun p11)) (sentenceOver [p13] fusion23))
      (sentenceOver [p7] fusion19) ]

/-- Explores every term of `overlappingRedexes`. -/
def Engine.localConfluence (e : Engine) : Except Error (List ConfluenceReport) :=
  overlappingRedexes.mapM e.confluence

end PrimeLanguage
