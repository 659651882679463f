import PrimeLanguage.Conformance.Corpus
import PrimeLanguage.Conformance.Report
import PrimeLanguage.Typing.Infer

/-!
# Conformance of typing

Well-typed samples have the expected kind and accept their own type as an annotation; terms without
a type are refused for the expected reason.
-/

namespace PrimeLanguage

namespace Conformance

open Corpus

/-- What is wrong with the type of a sample. -/
def kindFault? : Read Sample → Option String
  | (s, t) =>
    match infer .empty t with
    | .error e => some s!"{s.name}: {e.message}"
    | .ok ty =>
      if ty.kind = s.kind then
        match infer (Context.empty.bind t ty) t with
        | .ok _ => none
        | .error e => some s!"{s.name}: rejected under its own annotation: {e.message}"
      else some s!"{s.name}: inferred {ty}, expected a {s.kind} type"

/-- The class of an error. -/
def refusalOf? : Error → Option Refusal
  | .typeMismatch .. => some .typeMismatch
  | .illFormedFusion _ => some .illFormedFusion
  | _ => none

/-- What is wrong with the refusal of a term. -/
def illTypedFault? : Read IllTyped → Option String
  | (s, t) =>
    match infer .empty t with
    | .error e =>
      if refusalOf? e = some s.refusal then none
      else some s!"{s.name}: expected {s.refusal.name}, got {e.message}"
    | .ok ty => some s!"{s.name}: accepted as {ty}"

/-- The typing checks. -/
def typingReport : Except Fault Report := do
  let samples ← readSamples wellTyped
  let refused ← readIllTyped illTyped
  return ⟨[
    .ofFailures "typing/fixtures" "all well-typed fixtures check with their expected kind"
      "well-typed fixtures rejected or mistyped" (samples.filterMap kindFault?),
    .ofFailures "typing/rejections" s!"{illTyped.length} ill-typed fixtures rejected"
      "ill-typed fixtures not rejected as expected" (refused.filterMap illTypedFault?)]⟩

end Conformance

end PrimeLanguage
