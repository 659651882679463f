import PrimeLanguage.Term.Fusion

/-!
# Terms

| Form | Constructor | Role |
|------|-------------|------|
| `N(p)` | `noun` | a value |
| `A(p)` | `adj` | an operator that waits for a noun |
| `A(p)…A(q) e` | `chain` | operators over a noun position |
| `FUSE(p,q,r)` | `fusion` | stands for `N(p+q+r)` |
| `[e]` | `sentence` | a sentence over an expression |
| `(s ; t)`, `(s => t)` | `join` | two sentences under a connective |

A chain holds at least one operator, and its operators stand in the order in which they apply: the
one next to the noun position is first.  What stands in operator and noun positions is not
restricted here; typing does that.

* `Term.ofOperators` — a chain, or the bare noun position when there is no operator;
* `Term.weight` — the size of a term for a given weight of fusions; `size` counts a fusion once and
  `measure` twice, so that every reduction step shrinks the latter by one;
* `Term.induction` — induction with a hypothesis for every operator of a chain.
-/

namespace PrimeLanguage

/-- How two sentences are joined. -/
inductive Connective where
  | seq
  | imp
  deriving DecidableEq, Repr, Hashable

/-- An expression or sentence of the language. -/
inductive Term where
  | noun (p : Prime)
  | adj (p : Prime)
  | chain (first : Term) (rest : List Term) (noun : Term)
  | fusion (f : Fusion)
  | sentence (body : Term)
  | join (c : Connective) (left right : Term)

namespace Term

/-- Induction on terms; a chain brings a hypothesis for each operator. -/
@[elab_as_elim]
theorem induction {motive : Term → Prop}
    (noun : ∀ p, motive (.noun p))
    (adj : ∀ p, motive (.adj p))
    (chain : ∀ first rest e, motive first → (∀ o ∈ rest, motive o) → motive e →
      motive (.chain first rest e))
    (fusion : ∀ f, motive (.fusion f))
    (sentence : ∀ e, motive e → motive (.sentence e))
    (join : ∀ c l r, motive l → motive r → motive (.join c l r))
    (t : Term) : motive t :=
  Term.rec (motive_1 := motive) (motive_2 := fun ts => ∀ t ∈ ts, motive t)
    noun adj chain fusion sentence join
    (fun _ h => absurd h List.not_mem_nil)
    (fun _ _ hd tl _ h => (List.mem_cons.1 h).elim (fun e => e ▸ hd) (tl _))
    t

/-- `A…A e` for operators in the order in which they apply; `e` itself when there is none. -/
def ofOperators : List Term → Term → Term
  | [], e => e
  | o :: os, e => .chain o os e

/-- A noun for a number. -/
def nounOf (n : Nat) : Except InvalidPrime Term := (Prime.ofNat n).map .noun

/-- An adjective for a number. -/
def adjOf (n : Nat) : Except InvalidPrime Term := (Prime.ofNat n).map .adj

/-- A fusion of three numbers. -/
def fuse (p q r : Nat) : Except InvalidPrime Term := (Fusion.ofNats p q r).map .fusion

/-- Adjectives over a noun, for numbers in written order. -/
def chainOf (operators : List Nat) (n : Nat) : Except InvalidPrime Term := do
  let operators ← operators.mapM adjOf
  return ofOperators operators.reverse (← nounOf n)

/-- Nouns are the only normal forms. -/
def isNoun : Term → Bool
  | .noun _ => true
  | _ => false

def isChain : Term → Bool
  | .chain .. => true
  | _ => false

def isSentence : Term → Bool
  | .sentence _ | .join .. => true
  | _ => false

/-- The prime of a noun. -/
def noun? : Term → Option Prime
  | .noun p => some p
  | _ => none

/-- Whether some reduction rule applies somewhere.  A chain counts as reducible whatever stands in
its positions. -/
def isReducible : Term → Bool
  | .noun _ | .adj _ => false
  | .chain .. => true
  | .fusion f => f.isWellFormed
  | .sentence e => e.isReducible
  | .join _ l r => l.isReducible || r.isReducible

/-- The size of a term when a fusion weighs `w`: atoms weigh one, a chain adds one for each
operator to its noun position, sentences add up their parts. -/
def weight (w : Nat) : Term → Nat
  | .noun _ | .adj _ => 1
  | .chain _ rest e => rest.length + 1 + e.weight w
  | .fusion _ => w
  | .sentence e => e.weight w
  | .join _ l r => l.weight w + r.weight w

/-- Structural size; a fusion is an atom. -/
def size (t : Term) : Nat := t.weight 1

/-- The termination measure; a fusion counts twice, so that replacing it by a noun is progress. -/
def measure (t : Term) : Nat := t.weight 2

/-- The name of the outermost form. -/
def shape : Term → String
  | .noun _ => "noun"
  | .adj _ => "adjective"
  | .chain .. => "chain"
  | .fusion _ => "fusion"
  | .sentence _ => "noun sentence"
  | .join .seq .. => "sequence"
  | .join .imp .. => "implication"

theorem weight_pos {w : Nat} (hw : 0 < w) (t : Term) : 0 < t.weight w := by
  induction t using Term.induction with
  | noun | adj => simp [weight]
  | chain => simp only [weight]; omega
  | fusion => simpa [weight] using hw
  | sentence e ih => simpa [weight] using ih
  | join c l r ihl ihr => simp only [weight]; omega

theorem weight_ofOperators (w : Nat) (os : List Term) (e : Term) :
    (ofOperators os e).weight w = os.length + e.weight w := by
  cases os <;> simp [ofOperators, weight]

end Term

end PrimeLanguage
