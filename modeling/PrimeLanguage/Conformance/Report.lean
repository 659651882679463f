import PrimeLanguage.Json.Basic

/-!
# Conformance reports

A report lists findings in the order in which they were made.  A finding names the check that made
it, has a severity and may carry detail lines.  `Finding.ofFailures` turns a list of failures into
one finding: a pass when the list is empty.

`Report.toJson` adds a summary that counts the findings by severity.
-/

namespace PrimeLanguage

/-- How serious a finding is.  Only a failure blocks conformance. -/
inductive Severity where
  | pass
  | warning
  | failure
  deriving DecidableEq, Repr

def Severity.name : Severity → String
  | .pass => "pass"
  | .warning => "warning"
  | .failure => "failure"

/-- What a check found. -/
structure Finding where
  validator : String
  message : String
  severity : Severity
  details : List String
  deriving DecidableEq, Repr

namespace Finding

def pass (validator message : String) : Finding := ⟨validator, message, .pass, []⟩

def warn (validator message : String) : Finding := ⟨validator, message, .warning, []⟩

def fail (validator message : String) : Finding := ⟨validator, message, .failure, []⟩

def failWith (validator message : String) (details : List String) : Finding :=
  ⟨validator, message, .failure, details⟩

/-- A pass when nothing failed, otherwise a failure that lists what did. -/
def ofFailures (validator passed failed : String) (failures : List String) : Finding :=
  if failures.isEmpty then pass validator passed else failWith validator failed failures

def isFailure (f : Finding) : Bool := f.severity = .failure

/-- A finding as a document; details are left out when there are none. -/
def toJson (f : Finding) : Json :=
  let details :=
    if f.details.isEmpty then [] else [("details", Json.array (f.details.map .text))]
  .object
    ([("validator", .text f.validator), ("message", .text f.message),
      ("severity", .text f.severity.name)] ++ details)

end Finding

/-- Findings in the order in which they were made. -/
structure Report where
  findings : List Finding
  deriving DecidableEq, Repr

namespace Report

def empty : Report := ⟨[]⟩

def push (r : Report) (f : Finding) : Report := ⟨r.findings ++ [f]⟩

/-- The findings of `r`, then those of `s`. -/
def append (r s : Report) : Report := ⟨r.findings ++ s.findings⟩

/-- The number of findings with a severity. -/
def count (r : Report) (severity : Severity) : Nat :=
  r.findings.countP fun f => f.severity = severity

def failures (r : Report) : Nat := r.count .failure

def allPassed (r : Report) : Bool := r.failures == 0

/-- The report as a document, with a summary. -/
def toJson (r : Report) : Json :=
  .object
    [("summary", .object
        [("passed", .number (r.count .pass)), ("warnings", .number (r.count .warning)),
          ("failed", .number r.failures)]),
      ("results", .array (r.findings.map Finding.toJson))]

end Report

end PrimeLanguage
