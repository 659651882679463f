import PrimeLanguage.Conformance.SyntaxChecks
import PrimeLanguage.Conformance.TypingChecks
import PrimeLanguage.Conformance.ConfluenceChecks
import PrimeLanguage.Conformance.SemanticsChecks
import PrimeLanguage.Conformance.TriadChecks

/-!
# The conformance suite

The suite runs the checks of every area in order: syntax, typing, reduction, confluence, semantics,
equivalence, canonical triads.  It ends without a report only when a sample of the corpus is no
term.
-/

namespace PrimeLanguage

namespace Conformance

open Corpus

/-- An area of the suite. -/
inductive Area where
  | terms
  | typing
  | reduction
  | confluence
  | semantics
  | equivalence
  | canonical
  deriving DecidableEq, Repr

/-- All areas in the order in which they are checked. -/
def Area.all : List Area :=
  [.terms, .typing, .reduction, .confluence, .semantics, .equivalence, .canonical]

/-- The report on one area. -/
def areaReport (settings : SuiteSettings) : Area → Except Fault Report
  | .terms => .ok syntaxReport
  | .typing => typingReport
  | .reduction => reductionReport settings
  | .confluence => confluenceReport settings
  | .semantics => semanticsReport settings
  | .equivalence => equivalenceReport settings
  | .canonical => canonicalReport settings

/-- The report on all areas. -/
def suiteReport (settings : SuiteSettings) : Except Fault Report := do
  let reports ← Area.all.mapM (areaReport settings)
  return reports.foldl Report.append .empty

end Conformance

end PrimeLanguage
