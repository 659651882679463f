import PrimeLanguage.Settings.Engine
import PrimeLanguage.Settings.Toml

/-!
# What a program leaves behind

A program ends with an exit code and what it wrote to its two outputs.  A failure has a context and
a cause, which is set in under the context.  Settings files come from a `FileReader`.

What is said of settings that are refused is the wording of the library that reads them.  It is left
open here: the `FileReader` knows it.  Log output is left out.
-/

namespace PrimeLanguage

/-- The exit code of a program and its outputs. -/
structure ProgramResult where
  code : Nat
  stdout : String
  stderr : String
  deriving DecidableEq, Repr

/-- The source of settings files: `read` has the text of a file, or why it cannot be read, and
`refusal` says what is wrong with a text that does not hold the settings of the program. -/
structure FileReader where
  read : String → Except String String
  refusal : String → String

/-- What failed, and why. -/
structure ProgramFailure where
  context : String
  cause : String
  deriving DecidableEq, Repr

/-- The text with blanks in front of each of its lines. -/
def indented (text : String) : String :=
  "    " ++ String.ofList (text.toList.flatMap fun c => if c = '\n' then "\n    ".toList else [c])

def ProgramFailure.text (f : ProgramFailure) : String :=
  s!"Error: {f.context}\n\nCaused by:\n{indented f.cause}\n"

/-- The result of a program that failed after it had written `stdout`. -/
def ProgramFailure.result (f : ProgramFailure) (stdout : String) : ProgramResult :=
  ⟨1, stdout, f.text⟩

/-- Loads settings from a file, or takes the standard ones when none is named. -/
def loadSettings {α : Type} (ofValue? : Value → Option α) (standard : α) (files : FileReader) :
    Option String → Except ProgramFailure α
  | none => .ok standard
  | some path =>
    match files.read path with
    | .error reason => .error ⟨s!"Failed to read config file {path}", reason⟩
    | .ok text =>
      match (Toml.read text).bind ofValue? with
      | some settings => .ok settings
      | none => .error ⟨s!"Failed to parse config file {path}", files.refusal text⟩

end PrimeLanguage
