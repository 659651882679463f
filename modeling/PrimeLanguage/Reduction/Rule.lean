import PrimeLanguage.Prime.Basic

/-!
# Reduction rules

`fuse` replaces a well-formed fusion by the noun of its sum; `apply` lets the innermost operator of
a chain act on the noun it stands next to.
-/

namespace PrimeLanguage

/-- A reduction rule. -/
inductive Rule where
  | fuse
  | apply
  deriving DecidableEq, Repr

def Rule.name : Rule → String
  | .fuse => "FUSE"
  | .apply => "APPLY"

instance : ToString Rule := ⟨Rule.name⟩

end PrimeLanguage
