import PrimeLanguage.CommandLine.Arguments
import PrimeLanguage.CommandLine.Result
import PrimeLanguage.Json.Language
import PrimeLanguage.Text.Quoted

/-!
# The evaluation program

The program reads a term and runs it through the stages that its arguments ask for: type check,
reduction (always), denotation, verification, canonical form.  Each `Stage` is computed on its own
and yields lines of text and fields of a JSON object; the first stage that fails ends the run.

In text mode the lines of the stages before a failure have been written.  In JSON mode one object
is written at the end, and nothing on failure.
-/

namespace PrimeLanguage

/-- The arguments of the evaluation program. -/
structure EvaluateCommand where
  term : String
  operator : Option OperatorKind
  modulus : Option Modulus
  maxSteps : Option Nat
  config : Option String
  trace : Bool
  check : Bool
  denote : Bool
  verify : Bool
  canonical : Bool
  json : Bool

/-- What a stage writes: lines of text, and fields of the JSON object. -/
structure StageOutput where
  lines : List String
  fields : List (String × Json)

/-- A stage of the program: what it writes, or why it failed. -/
abbrev Stage := Except ProgramFailure StageOutput

/-- What the stages wrote before the first failure, and that failure. -/
def runStages : List Stage → List StageOutput × Option ProgramFailure
  | [] => ([], none)
  | .error f :: _ => ([], some f)
  | .ok out :: stages =>
    let (outs, failure) := runStages stages
    (out :: outs, failure)

/-- An error as the cause of a failure. -/
def Error.under {α : Type} (context : String) : Except Error α → Except ProgramFailure α
  | .ok a => .ok a
  | .error e => .error ⟨context, e.message⟩

/-- Lines with line ends. -/
def linesText (lines : List String) : String := String.join (lines.map (· ++ "\n"))

namespace EvaluateCommand

def names : ArgumentNames where
  flags := ["trace", "check", "denote", "verify", "canonical", "json"]
  options := ["operator", "modulus", "max-steps", "config"]

/-- Reads the arguments; nothing if they are refused. -/
def ofArguments? (texts : List String) : Option EvaluateCommand := do
  let arguments ← readArguments names texts
  let [term] := Argument.positionals arguments | none
  let operator ← Argument.option? arguments "operator" OperatorKind.ofName?
  let modulus ← Argument.option? arguments "modulus" fun s => (Modulus.read s).toOption
  let maxSteps ← Argument.option? arguments "max-steps" fun s => (readWord s.toList).toOption
  let config ← Argument.option? arguments "config" Argument.nonempty?
  let trace ← Argument.flag? arguments "trace"
  let check ← Argument.flag? arguments "check"
  let denote ← Argument.flag? arguments "denote"
  let verify ← Argument.flag? arguments "verify"
  let canonical ← Argument.flag? arguments "canonical"
  let json ← Argument.flag? arguments "json"
  return ⟨term, operator, modulus, maxSteps, config, trace, check, denote, verify, canonical, json⟩

/-- The settings of the file, under those of the arguments. -/
def settings (c : EvaluateCommand) (files : FileReader) :
    Except ProgramFailure EngineSettings :=
  (loadSettings (EngineSettings.ofValue? .toml) .standard files c.config).map fun s =>
    { s with
      operator := c.operator.getD s.operator
      modulus := c.modulus.getD s.modulus
      maxSteps := c.maxSteps.getD s.maxSteps }

/-- The term to evaluate. -/
def readTerm (c : EvaluateCommand) : Except ProgramFailure Term :=
  (Term.parse c.term).mapError fun e => ⟨s!"Failed to parse {quoted c.term}", e.message⟩

/-- Writes a judgment. -/
def judgmentOutput (j : Judgment) : StageOutput := ⟨[j.text], [("type", .text j.ty.text)]⟩

/-- Type checks the term. -/
def checkStage (t : Term) : Stage :=
  (Error.under "Type checking failed" (PrimeLanguage.check .empty t)).map judgmentOutput

/-- The numbered lines of a trace. -/
def traceLines (trace : Trace) : List String :=
  s!"{Trace.column 4 0}  {trace.initial}" ::
    trace.steps.zipIdx.map fun (s, i) => s!"{Trace.column 4 (i + 1)}  {s.text}"

/-- Writes a trace, and its steps if they are to be shown. -/
def traceOutput (showTrace : Bool) (trace : Trace) : StageOutput where
  lines := (if showTrace then traceLines trace else []) ++ [trace.final.signature]
  fields := (if showTrace then [("trace", trace.toJson)] else []) ++
    [("steps", .number trace.steps.length), ("normal_form", .text trace.final.signature)]

/-- Reduces the term. -/
def reduceStage (settings : EngineSettings) (showTrace : Bool) (t : Term) : Stage :=
  (Error.under "Reduction failed" (settings.engine.normalize t)).map (traceOutput showTrace)

/-- Writes an evaluated meaning. -/
def outcomeOutput (outcome : Outcome) : StageOutput where
  lines := [s!"denotation: {outcome.text}"]
  fields := [("denotation", outcome.toJson)]

/-- Evaluates the meaning of the term. -/
def denoteStage (settings : EngineSettings) (t : Term) : Stage :=
  (Error.under "Translation failed" (settings.semantics.denote t)).map outcomeOutput

/-- Writes that reduction and meaning agree. -/
def agreementOutput (a : Agreement) : StageOutput where
  lines := [s!"semantics agree: {a.operationalSteps} reduction steps, " ++
    s!"{a.outcome.steps} evaluation steps"]
  fields := [("verified", .boolean true)]

/-- Compares reduction and meaning. -/
def verifyStage (settings : EngineSettings) (t : Term) : Stage :=
  (Error.under "Semantic verification failed" (settings.semantics.agreement t)).map
    agreementOutput

/-- Writes a canonical form. -/
def canonicalOutput (t : Term) : StageOutput where
  lines := [s!"canonical: {t}"]
  fields := [("canonical", .text t.signature)]

/-- The canonical form of the term. -/
def canonicalStage (settings : EngineSettings) (t : Term) : Stage :=
  let canonical := (settings.canonicalizer.canonicalize t).map Prod.fst
  (Error.under "Canonicalization failed" (canonical.mapError Error.invalidPrime)).map
    canonicalOutput

/-- The stages that the arguments ask for, in order. -/
def stages (c : EvaluateCommand) (settings : EngineSettings) (t : Term) : List Stage :=
  (if c.check then [checkStage t] else []) ++
    [reduceStage settings c.trace t] ++
    (if c.denote then [denoteStage settings t] else []) ++
    (if c.verify then [verifyStage settings t] else []) ++
    (if c.canonical then [canonicalStage settings t] else [])

/-- The object that a successful run writes in JSON mode. -/
def document (settings : EngineSettings) (t : Term) (outs : List StageOutput) : Json :=
  .object
    ([("term", .text t.signature), ("operator", .text settings.operator.name)] ++
      outs.flatMap (·.fields))

/-- Runs the program. -/
def run (c : EvaluateCommand) (files : FileReader) : ProgramResult :=
  let input := do
    let settings ← c.settings files
    let t ← c.readTerm
    return (settings, t)
  match input with
  | .error f => f.result ""
  | .ok (settings, t) =>
    match runStages (c.stages settings t) with
    | (outs, some f) => f.result (if c.json then "" else linesText (outs.flatMap (·.lines)))
    | (outs, none) =>
      let stdout :=
        if c.json then linesText [(document settings t outs).pretty]
        else linesText (outs.flatMap (·.lines))
      ⟨0, stdout, ""⟩

end EvaluateCommand

end PrimeLanguage
