import PrimeLanguage.Operator.Basic
import PrimeLanguage.Reduction.Rule

/-!
# Reduction steps

The state of a reduction is a term; a step contracts one redex, possibly under a chain or inside
sentences.

* `contractExpr` — the one redex of a fusion or chain: the innermost fusion, or the first operator
  over a noun;
* `contract` — the redex that a `Strategy` chooses inside sentences;
* `contractAll` — every redex, from left to right.

A `Contraction` keeps the whole term after the step, the path to the redex and what happened there.
`contractExpr_measure` and `contractAll_measure` state that a contraction takes exactly one off the
measure of the term.
-/

namespace PrimeLanguage

/-- Which part of a join is reduced first. -/
inductive Strategy where
  | leftmostFirst
  | rightmostFirst
  deriving DecidableEq, Repr

namespace Strategy

def name : Strategy → String
  | .leftmostFirst => "leftmost-first"
  | .rightmostFirst => "rightmost-first"

def ofName? (s : String) : Option Strategy :=
  [leftmostFirst, rightmostFirst].find? (·.name == s)

end Strategy

/-- One edge on the way from the root of a term to a redex. -/
inductive Position where
  | noun
  | body
  | left
  | right
  deriving DecidableEq, Repr

def Position.name : Position → String
  | .noun => "Noun"
  | .body => "Body"
  | .left => "Left"
  | .right => "Right"

/-- What happened at a redex. -/
inductive StepDetails where
  | fuse (f : Fusion) (sum : Prime)
  | apply (operator operand : Prime) (combination : Combination)
  deriving DecidableEq

def StepDetails.rule : StepDetails → Rule
  | .fuse .. => .fuse
  | .apply .. => .apply

/-- A contracted redex: the term after the step, the path to the redex, and what happened. -/
structure Contraction where
  after : Term
  path : List Position
  details : StepDetails
  deriving DecidableEq

namespace Contraction

/-- The same contraction in the noun position of a chain. -/
def inChain (o : Term) (os : List Term) (k : Contraction) : Contraction :=
  ⟨.chain o os k.after, .noun :: k.path, k.details⟩

/-- The same contraction in the body of a sentence. -/
def inBody (k : Contraction) : Contraction :=
  ⟨.sentence k.after, .body :: k.path, k.details⟩

/-- The same contraction in the left part of a join. -/
def inLeft (c : Connective) (r : Term) (k : Contraction) : Contraction :=
  ⟨.join c k.after r, .left :: k.path, k.details⟩

/-- The same contraction in the right part of a join. -/
def inRight (c : Connective) (l : Term) (k : Contraction) : Contraction :=
  ⟨.join c l k.after, .right :: k.path, k.details⟩

end Contraction

/-- The error for a term of the wrong shape. -/
def shapeMismatch (expected : Kind) (t : Term) : Error :=
  .typeMismatch (.kind expected) (.kind (Kind.ofShape t)) t

/-- Lets the first operator of a chain act on the noun it stands next to. -/
def applyFirst (op : Operator) (o : Term) (os : List Term) (q : Prime) :
    Except Error Contraction :=
  match o with
  | .adj p => (op.combine p q).map fun c => ⟨.ofOperators os (.noun c.result), [], .apply p q c⟩
  | _ => .error (shapeMismatch .adj o)

/-- Contracts the redex of a fusion or chain; nothing else is noun-typed and reducible. -/
def contractExpr (op : Operator) : Term → Except Error Contraction
  | .fusion f =>
    match f.fused? with
    | some s => .ok ⟨.noun s, [], .fuse f s⟩
    | none => .error (.illFormedFusion f)
  | .chain o os (.noun q) => applyFirst op o os q
  | .chain o os e => (contractExpr op e).map (·.inChain o os)
  | t => .error (shapeMismatch .noun t)

/-- Contracts the redex that the strategy chooses, if there is one. -/
def contract (op : Operator) (strategy : Strategy) : Term → Except Error (Option Contraction)
  | .noun _ | .adj _ => .ok none
  | .sentence e => do return (← contract op strategy e).map (·.inBody)
  | .join c l r =>
    match strategy with
    | .leftmostFirst => do
      match ← contract op strategy l with
      | some k => return some (k.inLeft c r)
      | none => return (← contract op strategy r).map (·.inRight c l)
    | .rightmostFirst => do
      match ← contract op strategy r with
      | some k => return some (k.inRight c l)
      | none => return (← contract op strategy l).map (·.inLeft c r)
  | .chain o os e => (contractExpr op (.chain o os e)).map some
  | .fusion f => (contractExpr op (.fusion f)).map some

/-- Contracts every redex, from left to right. -/
def contractAll (op : Operator) : Term → Except Error (List Contraction)
  | .noun _ | .adj _ => .ok []
  | .sentence e => do return (← contractAll op e).map (·.inBody)
  | .join c l r => do
    let left ← contractAll op l
    let right ← contractAll op r
    return left.map (·.inLeft c r) ++ right.map (·.inRight c l)
  | .chain o os e => (contractExpr op (.chain o os e)).map ([·])
  | .fusion f => (contractExpr op (.fusion f)).map ([·])

theorem applyFirst_measure {op : Operator} {o : Term} {os : List Term} {q : Prime}
    {k : Contraction} (h : applyFirst op o os q = .ok k) :
    k.after.measure + 1 = (Term.chain o os (.noun q)).measure := by
  cases o <;> simp only [applyFirst, reduceCtorEq] at h
  next p =>
    cases hc : op.combine p q <;> simp only [hc, Except.map, reduceCtorEq, Except.ok.injEq] at h
    simp [← h, Term.measure, Term.weight_ofOperators, Term.weight]

theorem contractExpr_measure {op : Operator} {t : Term} {k : Contraction}
    (h : contractExpr op t = .ok k) : k.after.measure + 1 = t.measure := by
  fun_induction contractExpr op t generalizing k with
  | case1 f s hs => cases h; rfl
  | case2 f hf => simp at h
  | case3 o os q => exact applyFirst_measure h
  | case4 o os e _ ih =>
    cases hk : contractExpr op e with
    | error e => simp [hk, Except.map] at h
    | ok k' =>
      simp only [hk, Except.map, Except.ok.injEq] at h
      have := ih hk
      simp only [← h, Contraction.inChain, Term.measure, Term.weight] at this ⊢
      omega
  | case5 => simp at h

theorem contractAll_measure {op : Operator} {t : Term} {ks : List Contraction}
    (h : contractAll op t = .ok ks) : ∀ k ∈ ks, k.after.measure + 1 = t.measure := by
  induction t using Term.induction generalizing ks with
  | noun | adj => cases h; simp
  | chain o os e =>
    simp only [contractAll] at h
    cases hk : contractExpr op (.chain o os e) with
    | error e => simp [hk, Except.map] at h
    | ok k =>
      simp only [hk, Except.map, Except.ok.injEq] at h
      simp [← h, contractExpr_measure hk]
  | fusion f =>
    simp only [contractAll] at h
    cases hk : contractExpr op (.fusion f) with
    | error e => simp [hk, Except.map] at h
    | ok k =>
      simp only [hk, Except.map, Except.ok.injEq] at h
      simp [← h, contractExpr_measure hk]
  | sentence e ih =>
    simp only [contractAll] at h
    cases he : contractAll op e with
    | error e => simp [he, bind, Except.bind] at h
    | ok ks' =>
      simp only [he, bind, Except.bind, pure, Except.pure, Except.ok.injEq] at h
      subst h
      simpa [Contraction.inBody, Term.measure, Term.weight] using ih he
  | join c l r ihl ihr =>
    simp only [contractAll] at h
    cases hl : contractAll op l with
    | error e => simp [hl, bind, Except.bind] at h
    | ok ls =>
      cases hr : contractAll op r with
      | error e => simp [hl, hr, bind, Except.bind] at h
      | ok rs =>
        simp only [hl, hr, bind, Except.bind, pure, Except.pure, Except.ok.injEq] at h
        subst h
        intro k hk
        simp only [List.mem_append, List.mem_map] at hk
        rcases hk with ⟨k', hk', rfl⟩ | ⟨k', hk', rfl⟩
        · have := ihl hl k' hk'
          simp only [Contraction.inLeft, Term.measure, Term.weight] at this ⊢; omega
        · have := ihr hr k' hk'
          simp only [Contraction.inRight, Term.measure, Term.weight] at this ⊢; omega

end PrimeLanguage
