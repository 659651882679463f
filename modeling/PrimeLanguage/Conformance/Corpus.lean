import PrimeLanguage.Term.Parse
import PrimeLanguage.Typing.Basic
import PrimeLanguage.Operator.Builtin

/-!
# The conformance corpus

Samples in printed form, with what is expected of them:

* well-typed terms with their kind and their normal form under `expectationOperator`;
* terms that parse but have no type;
* texts that are no terms, with the place of the fault;
* pairs of noun expressions that are equivalent or not.
-/

namespace PrimeLanguage

namespace Corpus

/-- The operator under which normal forms and equivalences of the corpus are stated. -/
def expectationOperator : OperatorKind := .nextPrime

/-- A well-typed term. -/
structure Sample where
  name : String
  source : String
  kind : Kind
  normalForm : String

/-- The class of error that a term without a type is refused with. -/
inductive Refusal where
  | typeMismatch
  | illFormedFusion
  deriving DecidableEq

def Refusal.name : Refusal → String
  | .typeMismatch => "type-mismatch"
  | .illFormedFusion => "ill-formed-fusion"

/-- A term that parses but has no type. -/
structure IllTyped where
  name : String
  source : String
  refusal : Refusal

/-- A text that is no term. -/
structure Malformed where
  source : String
  position : Nat

/-- Two noun expressions, and whether they are equivalent. -/
structure Pair where
  left : String
  right : String
  equivalent : Bool

/-- A sample of the corpus that is no term. -/
structure Fault where
  name : String
  source : String
  cause : ParseError

/-- What a faulty sample is reported as, with its cause. -/
def Fault.message (f : Fault) : String :=
  s!"fixture {f.name} does not parse: {f.source}: {f.cause.message}"

/-- Reads the source of a sample. -/
def parse (name source : String) : Except Fault Term :=
  (Term.parse source).mapError (⟨name, source, ·⟩)

/-- Noun expressions that use every orientation of an operator, and one adjective. -/
def nouns : List Sample :=
  [ ⟨"noun", "N(7)", .noun, "N(7)"⟩,
    ⟨"adjective", "A(3)", .adj, "A(3)"⟩,
    ⟨"apply-forward", "A(3)N(7)", .noun, "N(11)"⟩,
    ⟨"apply-swapped", "A(7)N(3)", .noun, "N(11)"⟩,
    ⟨"apply-fallback", "A(5)N(5)", .noun, "N(5)"⟩,
    ⟨"chain", "A(2)A(3)N(7)", .noun, "N(13)"⟩,
    ⟨"nested-chain", "A(3)(A(5)N(7))", .noun, "N(17)"⟩,
    ⟨"fusion", "FUSE(3,5,11)", .noun, "N(19)"⟩,
    ⟨"fusion-under-adjective", "A(13)FUSE(5,7,11)", .noun, "N(37)"⟩ ]

/-- Sentences. -/
def sentences : List Sample :=
  [ ⟨"atomic", "[A(2)A(3)N(7)]", .sentence, "[N(13)]"⟩,
    ⟨"atomic-nested", "[A(3)(A(5)N(7))]", .sentence, "[N(17)]"⟩,
    ⟨"sequence", "([N(2)] ; [FUSE(3,5,11)])", .sentence, "([N(2)] ; [N(19)])"⟩,
    ⟨"implication", "([A(3)N(7)] => [A(2)N(11)])", .sentence, "([N(11)] => [N(13)])"⟩,
    ⟨"compound", "(([A(7)N(3)] ; [N(5)]) => [A(13)FUSE(5,7,11)])", .sentence,
      "(([N(11)] ; [N(5)]) => [N(37)])"⟩ ]

/-- All well-typed samples. -/
def wellTyped : List Sample := nouns ++ sentences

/-- Terms without a type. -/
def illTyped : List IllTyped :=
  [ ⟨"noun-as-operator", "N(3)N(7)", .typeMismatch⟩,
    ⟨"adjective-as-noun", "A(3)A(5)", .typeMismatch⟩,
    ⟨"sentence-as-noun", "A(3)[N(7)]", .typeMismatch⟩,
    ⟨"adjective-sentence", "[A(3)]", .typeMismatch⟩,
    ⟨"sequence-of-nouns", "(N(2) ; N(3))", .typeMismatch⟩,
    ⟨"composite-fusion", "FUSE(3,5,7)", .illFormedFusion⟩,
    ⟨"composite-fusion-in-chain", "A(2)FUSE(3,7,11)", .illFormedFusion⟩ ]

/-- Texts that are no terms. -/
def malformed : List Malformed :=
  [⟨"", 0⟩, ⟨"N(4)", 0⟩, ⟨"A(2", 3⟩, ⟨"FUSE(3,5)", 8⟩, ⟨"(N(2) ; N(3)", 12⟩, ⟨"N(7) x", 5⟩,
    ⟨"[N(7)", 5⟩]

/-- Noun expressions to compare. -/
def pairs : List Pair :=
  [ ⟨"A(3)N(7)", "N(11)", true⟩,
    ⟨"A(7)N(3)", "A(3)N(7)", true⟩,
    ⟨"FUSE(3,5,11)", "A(7)N(11)", true⟩,
    ⟨"A(13)FUSE(5,7,11)", "N(37)", true⟩,
    ⟨"N(2)", "N(3)", false⟩,
    ⟨"A(5)N(5)", "N(7)", false⟩ ]

/-- A sample with the term it stands for. -/
abbrev Read (α : Type) := α × Term

/-- Reads samples. -/
def readSamples (samples : List Sample) : Except Fault (List (Read Sample)) :=
  samples.mapM fun s => (parse s.name s.source).map (s, ·)

/-- Reads terms without a type. -/
def readIllTyped (samples : List IllTyped) : Except Fault (List (Read IllTyped)) :=
  samples.mapM fun s => (parse s.name s.source).map (s, ·)

/-- Reads both terms of pairs. -/
def readPairs (pairs : List Pair) : Except Fault (List (Pair × Term × Term)) :=
  pairs.mapM fun p => do
    let left ← parse p.left p.left
    let right ← parse p.right p.right
    return (p, left, right)

end Corpus

end PrimeLanguage
