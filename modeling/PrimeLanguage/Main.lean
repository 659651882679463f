import PrimeLanguage.CommandLine.Program

/-!
# Entry point

The first argument names the program to run, `calculus-eval` or `calculus-conformance`; the others
are its arguments.
-/

namespace PrimeLanguage

/-- Reads a settings file in advance. -/
def readSettingsFile (path : String) : IO (Except String String) := do
  try
    return .ok (← IO.FS.readFile path)
  catch
    | .noFileOrDirectory .. => return .error "No such file or directory (os error 2)"
    | .permissionDenied .. => return .error "Permission denied (os error 13)"
    | e => return .error (toString e)

/-- What this entry point says of settings that are refused. -/
def settingsRefusal (_ : String) : String := "the settings are malformed"

/-- Runs a program on its arguments and ends with its exit code. -/
def runProgram (p : Program) (arguments : List String) : IO UInt32 := do
  let files : FileReader ← match p.configPath? arguments with
    | none => pure ⟨fun _ => .error "", settingsRefusal⟩
    | some path => do
      let content ← readSettingsFile path
      pure ⟨fun _ => content, settingsRefusal⟩
  match p.run arguments files with
  | none =>
    IO.eprintln "error: invalid arguments"
    return Program.refusedCode.toUInt32
  | some result =>
    IO.print result.stdout
    IO.eprint result.stderr
    return result.code.toUInt32

/-- Runs the program that the first argument names. -/
def runByName (arguments : List String) : IO UInt32 := do
  match arguments with
  | name :: rest =>
    match Program.ofName? name with
    | some p => runProgram p rest
    | none =>
      IO.eprintln s!"error: unknown program '{name}'"
      return Program.refusedCode.toUInt32
  | [] =>
    IO.eprintln "error: no program named"
    return Program.refusedCode.toUInt32

end PrimeLanguage

def main (arguments : List String) : IO UInt32 :=
  PrimeLanguage.runByName arguments
