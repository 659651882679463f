import PrimeLanguage.Term.Basic

/-!
# The printed form of terms

`Term.print t rest` is the text of `t` followed by `rest`.  A chain is written by juxtaposition,
its last operator first and its noun position at the end; chains in operator or noun position stand
in round brackets, so that the printed form determines the term.

`Term.signature` is the printed form as a string; terms are identified by it in messages and
typing contexts.
-/

namespace PrimeLanguage

/-- The text of a fusion, followed by `rest`. -/
def Fusion.print (f : Fusion) (rest : List Char) : List Char :=
  "FUSE(".toList ++ f.p.digits ++ ',' :: (f.q.digits ++ ',' :: (f.r.digits ++ ')' :: rest))

def Connective.symbol : Connective → List Char
  | .seq => " ; ".toList
  | .imp => " => ".toList

/-- What `write` writes, in round brackets if asked for, followed by `rest`. -/
def enclosed (brackets : Bool) (write : List Char → List Char) (rest : List Char) : List Char :=
  if brackets then '(' :: write (')' :: rest) else write rest

namespace Term

mutual

/-- The text of a term, followed by `rest`. -/
def print : Term → (rest : List Char) → List Char
  | .noun p, rest => 'N' :: '(' :: (p.digits ++ ')' :: rest)
  | .adj p, rest => 'A' :: '(' :: (p.digits ++ ')' :: rest)
  | .chain o os e, rest =>
    printOperators os (enclosed o.isChain o.print (enclosed e.isChain e.print rest))
  | .fusion f, rest => f.print rest
  | .sentence e, rest => '[' :: e.print (']' :: rest)
  | .join c l r, rest => '(' :: l.print (c.symbol ++ r.print (')' :: rest))

/-- The text of operators in the order in which they apply: the last one is written first. -/
def printOperators : List Term → (rest : List Char) → List Char
  | [], rest => rest
  | o :: os, rest => printOperators os (enclosed o.isChain o.print rest)

end

/-- The printed form. -/
def signature (t : Term) : String := String.ofList (t.print [])

instance : ToString Term := ⟨signature⟩

end Term

end PrimeLanguage
