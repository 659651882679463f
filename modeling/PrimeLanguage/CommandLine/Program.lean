import PrimeLanguage.CommandLine.Conform

/-!
# The programs by name

`Program.run` runs a program on its arguments.  Refused arguments give no result; the exit code is
then `refusedCode`.
-/

namespace PrimeLanguage

/-- A command line program. -/
inductive Program where
  | evaluate
  | conform
  deriving DecidableEq, Repr

namespace Program

/-- The exit code for refused arguments. -/
def refusedCode : Nat := 2

def name : Program → String
  | .evaluate => "calculus-eval"
  | .conform => "calculus-conformance"

def ofName? (s : String) : Option Program := [evaluate, conform].find? (·.name == s)

/-- The settings file that the arguments name. -/
def configPath? (p : Program) (arguments : List String) : Option String :=
  match p with
  | .evaluate => (EvaluateCommand.ofArguments? arguments).bind (·.config)
  | .conform => (ConformCommand.ofArguments? arguments).bind (·.config)

/-- Runs a program, unless its arguments are refused. -/
def run (p : Program) (arguments : List String) (files : FileReader) : Option ProgramResult :=
  match p with
  | .evaluate => (EvaluateCommand.ofArguments? arguments).map (·.run files)
  | .conform => (ConformCommand.ofArguments? arguments).map (·.run files)

end Program

end PrimeLanguage
