import PrimeLanguage.CommandLine.Arguments
import PrimeLanguage.CommandLine.Evaluate
import PrimeLanguage.Conformance.Suite

/-!
# The conformance program

The program runs the conformance suite and writes its report, as text or as one JSON object.  Its
exit code is zero exactly when no finding is a failure.
-/

namespace PrimeLanguage

/-- The arguments of the conformance program. -/
structure ConformCommand where
  config : Option String
  json : Bool

/-- A severity in the text of a report. -/
def Severity.mark : Severity → String
  | .pass => "PASS"
  | .warning => "WARN"
  | .failure => "FAIL"

/-- The lines of a finding. -/
def Finding.lines (f : Finding) : List String :=
  s!"[{f.severity.mark}] {f.validator}: {f.message}" :: f.details.map ("       " ++ ·)

/-- The text of a report up to its summary. -/
def Report.lines (r : Report) : List String :=
  ["Prime Calculus Conformance Report", "=================================", ""] ++
    r.findings.flatMap Finding.lines ++
    ["",
      s!"Summary: {r.count .pass} passed, {r.count .warning} warnings, {r.failures} failed"]

namespace ConformCommand

def names : ArgumentNames where
  flags := ["json"]
  options := ["config"]

/-- Reads the arguments; nothing if they are refused. -/
def ofArguments? (texts : List String) : Option ConformCommand := do
  let arguments ← readArguments names texts
  let [] := Argument.positionals arguments | none
  let config ← Argument.option? arguments "config" Argument.nonempty?
  let json ← Argument.flag? arguments "json"
  return ⟨config, json⟩

/-- How the program ends on a report. -/
def conclude (json : Bool) (r : Report) : ProgramResult :=
  let code := if r.allPassed then 0 else 1
  if json then ⟨code, linesText [r.toJson.pretty], ""⟩
  else if r.allPassed then ⟨code, linesText (r.lines ++ ["Conformance PASSED."]), ""⟩
  else
    ⟨code, linesText r.lines,
      linesText [s!"Conformance FAILED: {r.failures} check(s) did not pass."]⟩

/-- Runs the program. -/
def run (c : ConformCommand) (files : FileReader) : ProgramResult :=
  match loadSettings (SuiteSettings.ofValue? .toml) .standard files c.config with
  | .error f => f.result ""
  | .ok settings =>
    match Conformance.suiteReport settings with
    | .error f =>
      ProgramFailure.result
        ⟨s!"fixture {f.name} does not parse: {f.source}", f.cause.message⟩ ""
    | .ok report => conclude c.json report

end ConformCommand

end PrimeLanguage
