import PrimeLanguage.Term.Basic

/-!
# Types

* `Ty.noun (some p)` — a noun known to be `p`; `Ty.noun none` — a noun whose prime depends on the
  operator;
* `Ty.adj p` — an adjective;
* `Ty.sentence s` — a sentence; `SentenceTy` keeps how it is composed.

`Kind` is the coarse classification.  `Ty.admits` says when an annotation is satisfied:
`admits_iff` states that only the unindexed noun type admits anything besides itself.
-/

namespace PrimeLanguage

/-- The coarse classification of types. -/
inductive Kind where
  | noun
  | adj
  | sentence
  deriving DecidableEq, Repr

def Kind.text : Kind → String
  | .noun => "noun"
  | .adj => "adjective"
  | .sentence => "sentence"

instance : ToString Kind := ⟨Kind.text⟩

/-- The kind that the outermost form of a term claims, whatever its parts are. -/
def Kind.ofShape (t : Term) : Kind :=
  match t with
  | .adj _ => .adj
  | .sentence _ | .join .. => .sentence
  | .noun _ | .chain .. | .fusion _ => .noun

/-- How a sentence is composed. -/
inductive SentenceTy where
  | atomic
  | join (c : Connective) (left right : SentenceTy)
  deriving DecidableEq, Repr

/-- The type of an expression or sentence. -/
inductive Ty where
  | noun (index : Option Prime)
  | adj (p : Prime)
  | sentence (s : SentenceTy)
  deriving DecidableEq

def SentenceTy.text : SentenceTy → String
  | .atomic => "S"
  | .join .seq l r => s!"({l.text} × {r.text})"
  | .join .imp l r => s!"({l.text} → {r.text})"

namespace Ty

def kind : Ty → Kind
  | .noun _ => .noun
  | .adj _ => .adj
  | .sentence _ => .sentence

/-- Whether a term of type `other` satisfies an annotation of type `t`. -/
def admits (t other : Ty) : Bool :=
  match t, other with
  | .noun none, .noun _ => true
  | _, _ => t = other

theorem admits_iff {t other : Ty} :
    t.admits other = true ↔ t = other ∨ (t = .noun none ∧ other.kind = .noun) := by
  cases t with
  | noun i => cases i <;> cases other <;> simp [admits, kind]
  | adj => cases other <;> simp [admits]
  | sentence => cases other <;> simp [admits]

theorem admits_refl (t : Ty) : t.admits t = true := admits_iff.2 (.inl rfl)

def text : Ty → String
  | .noun (some p) => s!"N[{p}]"
  | .noun none => "N"
  | .adj p => s!"A[{p}]"
  | .sentence s => s.text

instance : ToString Ty := ⟨text⟩

end Ty

/-- What a type error names: a kind, or a whole type. -/
inductive TyLabel where
  | kind (k : Kind)
  | ty (t : Ty)
  deriving DecidableEq

instance : ToString TyLabel :=
  ⟨fun
    | .kind k => k.text
    | .ty t => t.text⟩

end PrimeLanguage
