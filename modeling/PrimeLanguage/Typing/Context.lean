import Std.Data.TreeMap
import PrimeLanguage.Typing.Basic
import PrimeLanguage.Term.Print

/-!
# Typing contexts

A context annotates terms with types.  Annotations are kept under the printed form of the term, in
the order of strings; a later annotation of a term replaces an earlier one.
-/

namespace PrimeLanguage

/-- Annotations of terms with types. -/
structure Context where
  bindings : Std.TreeMap String Ty

namespace Context

def empty : Context := ⟨∅⟩

/-- Annotates `t`, replacing an earlier annotation. -/
def bind (Γ : Context) (t : Term) (ty : Ty) : Context := ⟨Γ.bindings.insert t.signature ty⟩

/-- The annotation of `t`. -/
def lookup? (Γ : Context) (t : Term) : Option Ty := Γ.bindings[t.signature]?

/-- The number of annotations. -/
def size (Γ : Context) : Nat := Γ.bindings.size

def isEmpty (Γ : Context) : Bool := Γ.bindings.isEmpty

def text (Γ : Context) : String :=
  if Γ.isEmpty then "∅"
  else ", ".intercalate (Γ.bindings.toList.map fun (sig, ty) => s!"{sig} : {ty}")

instance : ToString Context := ⟨text⟩

end Context

end PrimeLanguage
