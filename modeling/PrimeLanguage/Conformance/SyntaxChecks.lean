import PrimeLanguage.Conformance.Corpus
import PrimeLanguage.Conformance.Report
import PrimeLanguage.Term.Equality
import PrimeLanguage.Text.Quoted

/-!
# Conformance of reading and printing

Every sample is the printed form of what it reads as, and malformed texts are refused at the
expected place.
-/

namespace PrimeLanguage

namespace Conformance

open Corpus

/-- What is wrong with a source that should be a printed form. -/
def roundTripFault? (source : String) : Option String :=
  match Term.parse source with
  | .error e => some s!"{source}: {e.message}"
  | .ok t =>
    if t.signature ≠ source then some s!"{source}: printed as {t.signature}"
    else
      match Term.parse t.signature with
      | .ok u => if u = t then none else some s!"{source}: reparse differs"
      | .error _ => some s!"{source}: reparse differs"

def roundTrip : Finding :=
  let sources := wellTyped.map (·.source) ++ illTyped.map (·.source)
  let failures := sources.filterMap roundTripFault?
  .ofFailures "syntax/round-trip"
    s!"{sources.length} fixtures parse and print back to their source"
    s!"{failures.length} fixtures do not round-trip" failures

/-- What is wrong with the refusal of a text. -/
def refusalFault? (m : Malformed) : Option String :=
  match Term.parse m.source with
  | .error e =>
    if e.position = m.position then none
    else
      some (s!"{quoted m.source}: error at {e.position} ({e.fault.message}), " ++
        s!"expected {m.position}")
  | .ok t => some s!"{quoted m.source}: accepted as {t}"

def malformedTexts : Finding :=
  .ofFailures "syntax/errors"
    s!"{malformed.length} malformed inputs rejected at the expected offset"
    "malformed inputs not rejected as expected" (malformed.filterMap refusalFault?)

/-- The syntax checks. -/
def syntaxReport : Report := ⟨[roundTrip, malformedTexts]⟩

end Conformance

end PrimeLanguage
