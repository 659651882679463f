/-!
# Command line arguments

An argument is a flag, an option with a value, a positional argument, or a request for more
verbosity (`-v`, also repeated as in `-vv`, or `--verbose`).  The value of an option follows as an
argument of its own, which must not look like an option, or after `=`.  Behind `--` everything is
positional.

`readArguments` refuses what it does not know.  Flags and options may be given once.  The page of
help is left out: `--help` and `-h` are refused like any other name that is not known.
-/

namespace PrimeLanguage

/-- The names that a program knows. -/
structure ArgumentNames where
  flags : List String
  options : List String

/-- One argument. -/
inductive Argument where
  | flag (name : String)
  | option (name value : String)
  | positional (text : String)
  | verbose
  deriving DecidableEq, Repr

/-- Whether a text stands where a value may stand: a lone dash may. -/
def isPlain (text : List Char) : Bool :=
  match text with
  | '-' :: _ :: _ => false
  | _ => true

/-- A long argument with what follows it, and how many of the following arguments it takes. -/
def readLong (names : ArgumentNames) (text : List Char) (following : Option String) :
    Option (Argument × Bool) :=
  let name := String.ofList (text.takeWhile (· != '='))
  match text.dropWhile (· != '=') with
  | [] =>
    if name = "verbose" then some (.verbose, false)
    else if names.flags.contains name then some (.flag name, false)
    else if names.options.contains name then
      match following with
      | some value => if isPlain value.toList then some (.option name value, true) else none
      | none => none
    else none
  | _ :: value =>
    if names.options.contains name then some (.option name (String.ofList value), false)
    else none

/-- Reads arguments one by one. -/
def readArguments (names : ArgumentNames) : List String → Option (List Argument)
  | [] => some []
  | text :: texts =>
    match text.toList with
    | ['-', '-'] => some (texts.map .positional)
    | '-' :: '-' :: long =>
      match texts with
      | [] => (readLong names long none).map fun (a, _) => [a]
      | value :: rest =>
        match readLong names long (some value) with
        | none => none
        | some (a, true) => (readArguments names rest).map (a :: ·)
        | some (a, false) => (readArguments names (value :: rest)).map (a :: ·)
    | '-' :: c :: cs =>
      if (c :: cs).all (· == 'v') then (readArguments names texts).map (.verbose :: ·) else none
    | _ => (readArguments names texts).map (.positional text :: ·)

namespace Argument

/-- Whether a flag was given, if not more than once. -/
def flag? (arguments : List Argument) (name : String) : Option Bool :=
  match arguments.countP (· = .flag name) with
  | 0 => some false
  | 1 => some true
  | _ => none

/-- The values given for an option. -/
def values (arguments : List Argument) (name : String) : List String :=
  arguments.filterMap fun
    | .option n value => if n = name then some value else none
    | _ => none

/-- The value of an option that may be missing, read by `read`. -/
def option? {α : Type} (arguments : List Argument) (name : String) (read : String → Option α) :
    Option (Option α) :=
  match values arguments name with
  | [] => some none
  | [value] => (read value).map some
  | _ => none

/-- The positional arguments. -/
def positionals (arguments : List Argument) : List String :=
  arguments.filterMap fun
    | .positional text => some text
    | _ => none

/-- A text that is not empty. -/
def nonempty? (text : String) : Option String := if text = "" then none else some text

end Argument

end PrimeLanguage
