import PrimeLanguage.Typing.Context
import PrimeLanguage.Error

/-!
# Type inference

| Term | Type |
|------|------|
| `N(p)` | `N[p]` |
| `A(p)` | `A[p]` |
| a well-formed `FUSE(p,q,r)` | `N[p+q+r]` |
| adjectives over a noun-typed position | `N` |
| `[e]` with `e` noun-typed | `S` |
| two sentences under a connective | the types of the parts under it |

Every node is checked against its annotation after its own type is known.  Operators are visited in
written order, before the noun position.

`infer Γ t` is the type of `t`; `check` wraps it into a `Judgment`.
-/

namespace PrimeLanguage

/-- The type of `t`, if its annotation admits it. -/
def Context.confirm (Γ : Context) (t : Term) (ty : Ty) : Except Error Ty :=
  match Γ.lookup? t with
  | some annotated =>
    if annotated.admits ty then .ok ty else .error (.typeMismatch (.ty annotated) (.ty ty) t)
  | none => .ok ty

/-- Refuses a type of another kind for `t`. -/
def Ty.expect (kind : Kind) (t : Term) (ty : Ty) : Except Error Unit :=
  if ty.kind = kind then .ok ()
  else .error (.typeMismatch (.kind kind) (.kind ty.kind) t)

/-- The composition of the sentence `t`, whose type is `ty`. -/
def Ty.expectSentence (t : Term) (ty : Ty) : Except Error SentenceTy :=
  match ty with
  | .sentence s => .ok s
  | _ => .error (.typeMismatch (.kind .sentence) (.kind ty.kind) t)

mutual

/-- The type of a term. -/
def infer (Γ : Context) : Term → Except Error Ty
  | .noun p => Γ.confirm (.noun p) (.noun (some p))
  | .adj p => Γ.confirm (.adj p) (.adj p)
  | .chain o os e => do
    inferOperators Γ os
    (← infer Γ o).expect .adj o
    (← infer Γ e).expect .noun e
    Γ.confirm (.chain o os e) (.noun none)
  | .fusion f =>
    match f.fused? with
    | some s => Γ.confirm (.fusion f) (.noun (some s))
    | none => .error (.illFormedFusion f)
  | .sentence e => do
    (← infer Γ e).expect .noun e
    Γ.confirm (.sentence e) (.sentence .atomic)
  | .join c l r => do
    let left ← (← infer Γ l).expectSentence l
    let right ← (← infer Γ r).expectSentence r
    Γ.confirm (.join c l r) (.sentence (.join c left right))

/-- Checks that operators are adjectives, the last one to apply first. -/
def inferOperators (Γ : Context) : List Term → Except Error Unit
  | [] => .ok ()
  | o :: os => do
    inferOperators Γ os
    (← infer Γ o).expect .adj o

end

/-- `Γ ⊢ e : T`. -/
structure Judgment where
  context : Context
  term : Term
  ty : Ty

/-- Derives the judgment for a term. -/
def check (Γ : Context) (t : Term) : Except Error Judgment :=
  (infer Γ t).map fun ty => ⟨Γ, t, ty⟩

def Judgment.text (j : Judgment) : String := s!"{j.context} ⊢ {j.term} : {j.ty}"

end PrimeLanguage
