import PrimeLanguage.CommandLine.Program
import PrimeLanguage.Proofs.CommandLine.Findings

/-!
# The output modes of the evaluation program

Lines of text and an object in JSON are two views of what a run finds.

* `run_of_finds`, `run_of_fails` — the two ends of a run;
* `Finds.splitOn_text`, `Finds.read_json` — what a run has written in either mode is read back;
* `ofArguments?_json` — the difference that the flag makes to the arguments.

Principal result: `output_modes_agree`.
-/

namespace PrimeLanguage

namespace EvaluateCommand

variable {c : EvaluateCommand} {files : FileReader} {settings : EngineSettings} {t : Term}
  {outs : List StageOutput} {r : Findings} {f : ProgramFailure}

/-! ## Stages that repeat each other -/

/-- The stages see the same reduction and the same denotation, although each computes its own. -/
theorem Finds.eq_of_agreement (h : c.Finds files r) {a : Agreement} (ha : r.agreement = some a) :
    a.operational = r.trace.final ∧ a.operationalSteps = r.trace.steps.length ∧
      ∀ o ∈ r.outcome, o = a.outcome := by
  have hagreement := h.agreement
  rw [ha] at hagreement
  obtain ⟨trace, htrace, hrecords⟩ := Semantics.records_of_agreement hagreement.eq_ok
  obtain rfl : r.trace = trace := Except.ok.inj (h.trace.symm.trans htrace)
  refine ⟨hrecords.operational, hrecords.operationalSteps, ?_⟩
  intro o ho
  have houtcome := h.outcome
  rw [Option.mem_def.1 ho, ← h.initial_eq] at houtcome
  exact Except.ok.inj (houtcome.eq_ok.symm.trans hrecords.denotation)

/-- With the reduction done, the verification succeeds if the evaluation has steps enough. -/
theorem exists_verifyStage_iff {trace : Trace} (h : settings.engine.normalize t = .ok trace) :
    (∃ out, verifyStage settings t = .ok out) ↔
      2 * trace.applications ≤ settings.evaluationSteps := by
  have hstage : (∃ out, verifyStage settings t = .ok out) ↔
      ∃ a, settings.semantics.agreement t = .ok a := by
    constructor
    · rintro ⟨out, hout⟩
      obtain ⟨a, ha, _⟩ := map_under_eq_ok_iff.1 hout
      exact ⟨a, ha⟩
    · rintro ⟨a, ha⟩
      exact ⟨_, map_under_eq_ok_iff.2 ⟨a, ha, rfl⟩⟩
  rw [hstage, Semantics.exists_agreement_iff]
  constructor
  · rintro ⟨trace', htrace, hsteps⟩
    cases h.symm.trans htrace
    exact hsteps
  · intro hsteps
    exact ⟨trace, h, hsteps⟩

/-! ## Runs in both modes -/

/-- The same arguments with JSON mode on or off. -/
def withJson (c : EvaluateCommand) (json : Bool) : EvaluateCommand := { c with json := json }

/-- The findings are the same in both modes. -/
theorem Finds.withJson (h : c.Finds files r) (json : Bool) : (c.withJson json).Finds files r :=
  ⟨h.settings, h.term, h.judgment, h.trace, h.outcome, h.agreement, h.canonical⟩

/-- So is a failure. -/
theorem Fails.withJson (h : c.Fails files outs f) (json : Bool) :
    (c.withJson json).Fails files outs f := by
  cases h with
  | settings h => exact .settings h
  | term hsettings h => exact .term (c := c.withJson json) hsettings h
  | stage hsettings hterm h => exact .stage (c := c.withJson json) hsettings hterm h

/-- Both modes go through the same stages. -/
theorem run_of_input (hsettings : c.settings files = .ok settings)
    (hterm : Term.parse c.term = .ok t) :
    c.run files = match runStages (c.stages settings t) with
      | (outs, some f) => f.result (if c.json then "" else linesText (outs.flatMap (·.lines)))
      | (outs, none) =>
        ⟨0, if c.json then linesText [(document settings t outs).pretty]
          else linesText (outs.flatMap (·.lines)), ""⟩ := by
  have hread : c.readTerm = .ok t := by rw [readTerm, hterm]; rfl
  unfold run
  rw [hsettings, hread]
  rfl

/-- A run that finds something writes it in the form that is asked for. -/
theorem run_of_finds (h : c.Finds files r) :
    c.run files =
      ⟨0, if c.json then linesText [(Json.object (recordedFields (r.entries c.trace))).pretty]
        else linesText (r.lines c.trace), ""⟩ := by
  have hstages : c.stages r.settings r.term = (r.outputs c.trace).map .ok :=
    (stages_eq_map_ok_iff h.settings h.term).2 ⟨r, h, rfl⟩
  have hrun := runStages_map_ok_append (r.outputs c.trace) []
  rw [List.append_nil] at hrun
  rw [run_of_input h.settings h.term, hstages, hrun]
  simp only [runStages, List.append_nil, h.flatMap_lines, Findings.document_outputs]

/-- A run that fails has written in text mode what the stages before the failure have shown. -/
theorem run_of_fails (h : c.Fails files outs f) :
    c.run files = f.result (if c.json then "" else linesText (outs.flatMap (·.lines))) := by
  have hsilent : (if c.json then "" else linesText []) = "" := ite_self ""
  cases h with
  | settings h =>
    unfold run
    rw [h, List.flatMap_nil, hsilent]
    rfl
  | @term settings e hsettings h =>
    have hread : c.readTerm = .error ⟨s!"Failed to parse {quoted c.term}", e.message⟩ := by
      rw [readTerm, h]
      rfl
    unfold run
    rw [hsettings, hread, List.flatMap_nil, hsilent]
    rfl
  | @stage settings t _ _ later hsettings hterm h =>
    have hrun := runStages_map_ok_append outs (.error f :: later)
    rw [run_of_input hsettings hterm, h, hrun]
    simp only [runStages, List.append_nil]

/-! ## Reading back what is written -/

theorem Finds.run_text (h : c.Finds files r) :
    (c.withJson false).run files = ⟨0, linesText (r.lines c.trace), ""⟩ :=
  run_of_finds (h.withJson false)

theorem Finds.run_json (h : c.Finds files r) : (c.withJson true).run files =
    ⟨0, linesText [(Json.object (recordedFields (r.entries c.trace))).pretty], ""⟩ :=
  run_of_finds (h.withJson true)

/-- The lines of a run that finds something are read back from the text. -/
theorem Finds.splitOn_text (h : c.Finds files r) :
    ((c.withJson false).run files).stdout.toList.splitOn '\n' =
      (r.lines c.trace).map String.toList ++ [[]] := by
  rw [h.run_text, splitOn_linesText h.oneLine_lines]

theorem linesText_singleton (s : String) : linesText [s] = s ++ "\n" := by
  simp [linesText, String.join]

/-- An object that records the findings is read back from JSON. -/
theorem Finds.read_json (h : c.Finds files r) :
    ∃ fields, Json.read? ((c.withJson true).run files).stdout = some (.object fields) ∧
      r.Recorded c.trace fields := by
  refine ⟨_, ?_, h.recorded c.trace⟩
  rw [h.run_json, linesText_singleton, ← Json.sorted_object]
  exact Json.read?_pretty _ (by simp [Json.isBlank])

/-- Both modes end alike, and end well exactly when a run finds something. -/
theorem run_ends (c : EvaluateCommand) (files : FileReader) :
    let text := (c.withJson false).run files
    let json := (c.withJson true).run files
    json.code = text.code ∧ json.stderr = text.stderr ∧
      (json.code ≠ 0 → json.stdout = "" ∧ ∃ outs f, ∃ cause : String, c.Fails files outs f ∧
        json.stderr = s!"Error: {f.context}\n\nCaused by:\n{cause}\n" ∧
        cause.toList.splitOn '\n' = (f.cause.toList.splitOn '\n').map ("    ".toList ++ ·) ∧
        text.stdout.toList.splitOn '\n' = (outs.flatMap (·.lines)).map String.toList ++ [[]]) ∧
      (json.code = 0 ↔ ∃ r, c.Finds files r) := by
  intro text json
  obtain ⟨r, h⟩ | ⟨outs, f, h⟩ := finds_or_fails c files
  · rw [show text = _ from h.run_text, show json = _ from h.run_json]
    exact ⟨rfl, rfl, fun hcode => absurd rfl hcode, fun _ => ⟨r, h⟩, fun _ => rfl⟩
  · have htext : text = f.result (linesText (outs.flatMap (·.lines))) :=
      run_of_fails (h.withJson false)
    have hjson : json = f.result "" := run_of_fails (h.withJson true)
    have hnone : ¬ ∃ r, c.Finds files r := by
      rintro ⟨r, hr⟩
      have hcode := congrArg ProgramResult.code (hjson.symm.trans hr.run_json)
      exact absurd hcode Nat.one_ne_zero
    rw [htext, hjson]
    refine ⟨rfl, rfl, fun _ => ⟨rfl, outs, f, indented f.cause, h, rfl, splitOn_indented f.cause,
      splitOn_linesText h.oneLine_lines⟩, ?_⟩
    exact ⟨fun hcode => absurd hcode Nat.one_ne_zero, fun hr => absurd hr hnone⟩

end EvaluateCommand

/-! ## The flag of JSON mode -/

/-- Readings that begin alike, where the one goes on after the other. -/
theorem bind_eq_bind_bind {α β γ : Type} {x : Option α} {f : α → Option γ} {g : α → Option β}
    {k : β → Option γ} (h : ∀ a, f a = (g a).bind k) : x.bind f = (x.bind g).bind k := by
  rw [Option.bind_assoc]
  exact congrArg x.bind (funext h)

namespace Argument

variable {arguments : List Argument} {given name : String}

/-- A flag is refused the second time. -/
theorem flag?_cons_self : flag? (.flag name :: arguments) name =
    (flag? arguments name).bind fun given => if given then none else some true := by
  unfold flag?
  rw [List.countP_cons_of_pos (by simp)]
  generalize arguments.countP (· = .flag name) = n
  match n with
  | 0 => rfl
  | 1 => rfl
  | _ + 2 => rfl

theorem flag?_cons_of_ne (h : given ≠ name) :
    flag? (.flag given :: arguments) name = flag? arguments name := by
  unfold flag?
  rw [List.countP_cons_of_neg (by simpa using h)]

theorem positionals_cons_flag :
    positionals (.flag given :: arguments) = positionals arguments := rfl

end Argument

namespace EvaluateCommand

/-- The flag of JSON mode takes nothing of what follows it. -/
theorem readLong_json (following : Option String) :
    readLong names ['j', 's', 'o', 'n'] following = some (.flag "json", false) := by
  rfl

theorem readArguments_json (texts : List String) :
    readArguments names ("--json" :: texts) =
      (readArguments names texts).map (.flag "json" :: ·) := by
  have htext : "--json".toList = ['-', '-', 'j', 's', 'o', 'n'] := by rfl
  cases texts with
  | nil => simp only [readArguments, htext, readLong_json, Option.map_some]
  | cons value rest =>
    rw [readArguments]
    simp only [htext, readLong_json]

/-- **The flag makes no difference but itself**, and is refused if it is there already. -/
theorem ofArguments?_json (texts : List String) :
    ofArguments? ("--json" :: texts) =
      (ofArguments? texts).bind fun c => if c.json then none else some (c.withJson true) := by
  unfold ofArguments?
  rw [readArguments_json]
  cases readArguments names texts with
  | none => rfl
  | some arguments =>
    have hother (name : String) (h : "json" ≠ name) :
        Argument.flag? (.flag "json" :: arguments) name = Argument.flag? arguments name :=
      Argument.flag?_cons_of_ne h
    rw [Option.map_some, Option.bind_eq_bind, Option.bind_some, Option.bind_eq_bind,
      Option.bind_some, Argument.positionals_cons_flag]
    split
    · rw [hother "trace" (by decide), hother "check" (by decide), hother "denote" (by decide),
        hother "verify" (by decide), hother "canonical" (by decide), Argument.flag?_cons_self]
      -- Options are read from their values, among which there are no flags.
      refine bind_eq_bind_bind fun operator => bind_eq_bind_bind fun modulus =>
        bind_eq_bind_bind fun maxSteps => bind_eq_bind_bind fun config =>
        bind_eq_bind_bind fun trace => bind_eq_bind_bind fun check =>
        bind_eq_bind_bind fun denote => bind_eq_bind_bind fun verify =>
        bind_eq_bind_bind fun canonical => ?_
      rcases Argument.flag? arguments "json" with _ | _ | _ <;> rfl
    · rfl

/-- The program runs in one mode or the other as the flag says. -/
theorem run_arguments {c : EvaluateCommand} {files : FileReader} {texts : List String}
    (h : ofArguments? texts = some (c.withJson false)) :
    Program.evaluate.run texts files = some ((c.withJson false).run files) ∧
      Program.evaluate.run ("--json" :: texts) files = some ((c.withJson true).run files) := by
  constructor
  · rw [Program.run, h]
    rfl
  · rw [Program.run, ofArguments?_json, h]
    rfl

/-- **Both output modes say the same.**  They end with the same code and the same error.  The code
is zero exactly when the settings load, the term parses and every stage that is asked for succeeds.

A run that fails says why, with the cause set in line by line: the failure is that of the settings,
of the term or of the first stage that does not succeed.  A JSON run has written nothing then, and a
text run what the stages before the failure have shown.

The text of a run that succeeds is the lines of what the stages find.  The JSON is read back as one
object that records the same findings, those of the stages asked for and no others, and that tells
what it records.  A trace has one numbered line for each step behind the one for the initial term,
and the outcomes of two runs are told apart by their texts.

The verification repeats the reduction and the denotation with the same results, and succeeds
exactly when the evaluation has two steps for each application.  The two runs are those of arguments
without and with the flag. -/
theorem output_modes_agree (c : EvaluateCommand) (files : FileReader) :
    let text := (c.withJson false).run files
    let json := (c.withJson true).run files
    json.code = text.code ∧ json.stderr = text.stderr ∧
    (json.code ≠ 0 → json.stdout = "" ∧ ∃ outs f, ∃ cause : String, c.Fails files outs f ∧
      json.stderr = s!"Error: {f.context}\n\nCaused by:\n{cause}\n" ∧
      cause.toList.splitOn '\n' = (f.cause.toList.splitOn '\n').map ("    ".toList ++ ·) ∧
      text.stdout.toList.splitOn '\n' = (outs.flatMap (·.lines)).map String.toList ++ [[]]) ∧
    (json.code = 0 ↔ ∃ r, c.Finds files r) ∧
    (∀ r, c.Finds files r →
      text.stdout.toList.splitOn '\n' = (r.lines c.trace).map String.toList ++ [[]] ∧
      (∃ fields, Json.read? json.stdout = some (.object fields) ∧ r.Recorded c.trace fields ∧
        ∀ r', Findings.Recorded r' c.trace fields → Findings.SameRecord c.trace r r') ∧
      r.numberedLines.length = r.trace.steps.length + 1 ∧
      (∀ k line, r.numberedLines[k]? = some line →
        ∃ shown, line = Findings.numbered k shown) ∧
      (∀ c' files' r', Finds c' files' r' → ∀ o ∈ r.outcome, ∀ o' ∈ r'.outcome,
        o.text = o'.text → o = o') ∧
      ∀ a, r.agreement = some a →
        a.operational = r.trace.final ∧ a.operationalSteps = r.trace.steps.length ∧
        ∀ o ∈ r.outcome, o = a.outcome) ∧
    (∀ settings t trace, settings.engine.normalize t = .ok trace →
      ((∃ out, verifyStage settings t = .ok out) ↔
        2 * trace.applications ≤ settings.evaluationSteps)) ∧
    ∀ texts, ofArguments? texts = some (c.withJson false) →
      Program.evaluate.run texts files = some text ∧
      Program.evaluate.run ("--json" :: texts) files = some json := by
  intro text json
  obtain ⟨hcode, herror, hfails, hzero⟩ := run_ends c files
  refine ⟨hcode, herror, hfails, hzero, fun r hr => ⟨hr.splitOn_text, ?_, r.length_numberedLines,
    r.exists_numbered, ?_, fun a ha => hr.eq_of_agreement ha⟩, ?_, ?_⟩
  · obtain ⟨fields, hfields, hrecorded⟩ := hr.read_json
    exact ⟨fields, hfields, hrecorded, fun r' hr' => hrecorded.sameRecord hr'⟩
  · intro c' files' r' hr' o ho o' ho' htext
    exact Outcome.text_injective (hr.plain_outcome ho) (hr'.plain_outcome ho') htext
  · intro settings t trace htrace
    exact exists_verifyStage_iff htrace
  · intro texts htexts
    exact run_arguments htexts

/-- One application through all stages, and the same without a step to reduce it. -/
theorem output_modes_agree_application :
    let c : EvaluateCommand :=
      ⟨"A(2)N(7)", some .identity, none, none, none, true, true, true, true, true, false⟩
    let files : FileReader := ⟨fun _ => .error "no such file", fun _ => ""⟩
    let texts := ["A(2)N(7)", "--operator", "identity", "--trace", "--check", "--denote",
      "--verify", "--canonical"]
    (∃ text json r fields a,
      Program.evaluate.run texts files = some text ∧
      Program.evaluate.run ("--json" :: texts) files = some json ∧
      json.code = 0 ∧ text.code = 0 ∧ c.Finds files r ∧
      text.stdout.toList.splitOn '\n' = (r.lines true).map String.toList ++ [[]] ∧
      Json.read? json.stdout = some (.object fields) ∧ r.Recorded true fields ∧
      Findings.SameRecord true r r ∧
      (∀ o ∈ r.outcome, ∀ o' ∈ r.outcome, o.text = o'.text → o = o') ∧
      r.agreement = some a ∧ a.operationalSteps = r.trace.steps.length ∧
      2 * r.trace.applications ≤ r.settings.evaluationSteps ∧
      ∃ line shown, r.numberedLines[0]? = some line ∧ line = Findings.numbered 0 shown) ∧
    (({ c with maxSteps := some 0 }.withJson true).run files).code = 1 ∧
    (({ c with maxSteps := some 0 }.withJson true).run files).stdout = "" := by
  intro c files texts
  obtain ⟨hcode, _, _, hfinds, hfound, hverify, harguments⟩ := output_modes_agree c files
  have hzero : ((c.withJson true).run files).code = 0 := by decide +kernel
  obtain ⟨htext, hjson⟩ := harguments texts rfl
  obtain ⟨r, hr⟩ := hfinds.1 hzero
  obtain ⟨hstdout, ⟨fields, hfields, hrecorded, htold⟩, _, hnumbered, houtcomes, hagree⟩ :=
    hfound r hr
  obtain ⟨a, ha, hagreement⟩ := hr.agreement
  obtain ⟨shown, hshown⟩ := hnumbered 0 _ rfl
  have hsteps := (hverify r.settings r.term r.trace hr.trace).1
    ⟨_, map_under_eq_ok_iff.2 ⟨a, ha, rfl⟩⟩
  have hone : (({ c with maxSteps := some 0 }.withJson true).run files).code = 1 := by
    decide +kernel
  refine ⟨⟨_, _, r, fields, a, htext, hjson, hzero, hcode.symm.trans hzero, hr, hstdout, hfields,
    hrecorded, htold r hrecorded, houtcomes c files r hr, hagreement, (hagree a hagreement).2.1,
    hsteps, _, shown, rfl, hshown⟩, hone, ?_⟩
  exact ((output_modes_agree { c with maxSteps := some 0 } files).2.2.1 (by rw [hone]; decide)).1

end EvaluateCommand

end PrimeLanguage
