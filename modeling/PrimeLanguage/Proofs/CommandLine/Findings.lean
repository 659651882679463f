import PrimeLanguage.Proofs.CommandLine.Lines
import PrimeLanguage.Proofs.Json.Language
import PrimeLanguage.Proofs.Results
import PrimeLanguage.Proofs.Semantics.Agreement
import PrimeLanguage.Proofs.Term.Signature

/-!
# What the evaluation program finds

The stages that are asked for find a judgment, a trace, an outcome, an agreement and a canonical
form, or one of them is the first to fail.

* `Findings` — what each stage finds, if it is asked for;
* `EvaluateCommand.Finds` — the settings load, the term parses, and every stage that is asked for
  succeeds; `EvaluateCommand.Fails` — something fails, and what was written before that;
* `Findings.lines` — the findings line by line;
* `Findings.Recorded` — the findings as the fields of an object; the fields tell what they record
  (`Findings.Recorded.sameRecord`).

`stages_eq_map_ok_iff` follows the stages one by one, and `finds_or_fails` says that a run ends in
one of the two ways.  No line that is written holds a line end (`oneLine_of_mem_stages`).
-/

namespace PrimeLanguage

/-! ## Stages one after the other -/

section Stages

variable {α : Type} {asked : Bool} {context : String} {x : Except Error α} {found : Option α}
  {write : α → StageOutput} {stages : List Stage} {outs : List StageOutput}

/-- Stages that succeed are all run. -/
theorem runStages_map_ok_append (outs : List StageOutput) (stages : List Stage) :
    runStages (outs.map .ok ++ stages) =
      (outs ++ (runStages stages).1, (runStages stages).2) := by
  induction outs with
  | nil => rfl
  | cons out outs ih => rw [List.map_cons, List.cons_append, runStages, ih]; rfl

/-- All stages succeed, or there is a first one that fails. -/
theorem stages_cases (stages : List Stage) :
    (∃ outs : List StageOutput, stages = outs.map .ok) ∨
      ∃ (outs : List StageOutput) (f : ProgramFailure) (later : List Stage),
        stages = outs.map .ok ++ .error f :: later := by
  induction stages with
  | nil => exact .inl ⟨[], rfl⟩
  | cons stage stages ih =>
    cases stage with
    | error f => exact .inr ⟨[], f, stages, rfl⟩
    | ok out =>
      obtain ⟨outs, rfl⟩ | ⟨outs, f, later, rfl⟩ := ih
      · exact .inl ⟨out :: outs, rfl⟩
      · exact .inr ⟨out :: outs, f, later, rfl⟩

/-- A stage that is asked for finds the result of `x`; it finds nothing otherwise. -/
def Asked {ε α : Type} (asked : Bool) (x : Except ε α) (found : Option α) : Prop :=
  if asked then ∃ a, x = .ok a ∧ found = some a else found = none

theorem Asked.eq_ok {ε : Type} {x : Except ε α} {a : α} (h : Asked asked x (some a)) :
    x = .ok a := by
  cases asked with
  | false => cases h
  | true =>
    obtain ⟨_, hx, hfound⟩ := h
    cases hfound
    exact hx

theorem map_under_eq_ok_iff {out : StageOutput} :
    (Error.under context x).map write = .ok out ↔ ∃ a, x = .ok a ∧ out = write a := by
  cases x <;> simp [Error.under, Except.map, eq_comm]

/-- A stage that need not be asked for succeeds with what it finds. -/
theorem optionalStage_iff :
    (if asked then [(Error.under context x).map write] else []) = outs.map .ok ↔
      ∃ found, Asked asked x found ∧ outs = (found.map write).toList := by
  cases asked with
  | false => simp [Asked, eq_comm]
  | true =>
    simp only [Asked, if_true]
    constructor
    · intro h
      obtain ⟨out, rfl, hout⟩ := List.map_eq_singleton_iff.1 h.symm
      obtain ⟨a, ha, rfl⟩ := map_under_eq_ok_iff.1 hout.symm
      exact ⟨some a, ⟨a, ha, rfl⟩, rfl⟩
    · rintro ⟨_, ⟨a, ha, rfl⟩, rfl⟩
      exact congrArg (fun stage => [stage]) (map_under_eq_ok_iff.2 ⟨a, ha, rfl⟩)

theorem asked_mapError_iff {ε ε' : Type} {asked : Bool} {x : Except ε α} {f : ε → ε'} :
    Asked asked (x.mapError f) found ↔ Asked asked x found := by
  cases x <;> simp [Asked, Except.mapError]

end Stages

/-! ## Entries that may be missing -/

section Entries

variable {entries : List (String × Option Json)}

/-- The fields of an object, one for each entry that is not missing. -/
def recordedFields (entries : List (String × Option Json)) : List (String × Json) :=
  entries.flatMap fun (key, value) => (value.map fun j => (key, j)).toList

theorem recordedFields_nil : recordedFields [] = [] := rfl

theorem recordedFields_cons (key : String) (value : Option Json) :
    recordedFields ((key, value) :: entries) =
      (value.map fun j => (key, j)).toList ++ recordedFields entries := rfl

theorem sublist_recordedFields (entries : List (String × Option Json)) :
    ((recordedFields entries).map Prod.fst).Sublist (entries.map Prod.fst) := by
  induction entries with
  | nil => exact .slnil
  | cons entry entries ih =>
    obtain ⟨key, value⟩ := entry
    rw [recordedFields_cons]
    cases value with
    | none => exact ih.cons key
    | some j => exact ih.cons_cons key

/-- Under different keys, what an entry records is found under its key. -/
theorem lookup_recordedFields (h : (entries.map Prod.fst).Nodup) (key : String) :
    (recordedFields entries).lookup key = (entries.lookup key).join := by
  induction entries with
  | nil => rfl
  | cons entry entries ih =>
    obtain ⟨key', value⟩ := entry
    obtain ⟨hnew, hnodup⟩ := List.nodup_cons.1 h
    rw [recordedFields_cons, List.lookup_append, ih hnodup, List.lookup_cons]
    by_cases hkey : key = key'
    · subst hkey
      have habsent : entries.lookup key = none := by
        rw [List.lookup_eq_none_iff]
        intro entry hentry
        rw [bne_iff_ne]
        rintro rfl
        exact hnew (List.mem_map.2 ⟨entry, hentry, rfl⟩)
      cases value <;> simp [habsent]
    · cases value <;> simp [List.lookup_cons, beq_eq_false_iff_ne.2 hkey]

end Entries

/-! ## What a run finds -/

/-- What the stages of a run find, nothing for a stage that is not asked for. -/
structure Findings where
  settings : EngineSettings
  term : Term
  judgment : Option Judgment
  trace : Trace
  outcome : Option Outcome
  agreement : Option Agreement
  canonical : Option Term

/-- The settings load, the term parses, and every stage that is asked for succeeds. -/
structure EvaluateCommand.Finds (c : EvaluateCommand) (files : FileReader) (r : Findings) :
    Prop where
  settings : c.settings files = .ok r.settings
  term : Term.parse c.term = .ok r.term
  judgment : Asked c.check (PrimeLanguage.check .empty r.term) r.judgment
  trace : r.settings.engine.normalize r.term = .ok r.trace
  outcome : Asked c.denote (r.settings.semantics.denote r.term) r.outcome
  agreement : Asked c.verify (r.settings.semantics.agreement r.term) r.agreement
  canonical : Asked c.canonical ((r.settings.canonicalizer.canonicalize r.term).map Prod.fst)
    r.canonical

/-- The program fails at the settings, at the term, or at the first stage without a result; `outs`
is what the stages before it have written. -/
inductive EvaluateCommand.Fails (c : EvaluateCommand) (files : FileReader) :
    (outs : List StageOutput) → ProgramFailure → Prop where
  | settings {f : ProgramFailure} (h : c.settings files = .error f) : Fails c files [] f
  | term {settings : EngineSettings} {e : ParseError} (hsettings : c.settings files = .ok settings)
      (h : Term.parse c.term = .error e) :
      Fails c files [] ⟨s!"Failed to parse {quoted c.term}", e.message⟩
  | stage {settings : EngineSettings} {t : Term} {outs : List StageOutput} {f : ProgramFailure}
      {later : List Stage} (hsettings : c.settings files = .ok settings)
      (hterm : Term.parse c.term = .ok t)
      (h : c.stages settings t = outs.map .ok ++ .error f :: later) : Fails c files outs f

namespace Findings

/-! ## Findings line by line -/

/-- A line behind a number in four columns. -/
def numbered (k : Nat) (shown : String) : String :=
  String.ofList ((Nat.toDigits 10 k).leftpad 4 ' ') ++ "  " ++ shown

/-- The trace line by line: the term, and each step with the terms around it. -/
def numberedLines (r : Findings) : List String :=
  numbered 0 r.term.signature :: r.trace.steps.mapIdx fun i s =>
    numbered (i + 1) s!"{s.rule.name} {s.before.signature} → {s.after.signature}"

/-- The lines that show the findings. -/
def lines (r : Findings) (showTrace : Bool) : List String :=
  (r.judgment.map fun j => s!"∅ ⊢ {r.term.signature} : {j.ty.text}").toList ++
    ((if showTrace then r.numberedLines else []) ++ [r.trace.final.signature]) ++
    (r.outcome.map fun o =>
      s!"denotation: {o.result.text} ({o.status} after {o.steps} steps)").toList ++
    (r.agreement.map fun a => s!"semantics agree: {a.operationalSteps} reduction steps, " ++
      s!"{a.outcome.steps} evaluation steps").toList ++
    (r.canonical.map fun t => s!"canonical: {t.signature}").toList

/-- A trace has one line for the term and one for each step. -/
theorem length_numberedLines (r : Findings) :
    r.numberedLines.length = r.trace.steps.length + 1 := by
  rw [numberedLines, List.length_cons, List.length_mapIdx]

/-- The lines of a trace carry the numbers from zero on. -/
theorem exists_numbered (r : Findings) (k : Nat) (line : String)
    (h : r.numberedLines[k]? = some line) : ∃ shown, line = numbered k shown := by
  cases k with
  | zero => exact ⟨r.term.signature, (Option.some.inj h).symm⟩
  | succ k =>
    rw [numberedLines, List.getElem?_cons_succ, List.getElem?_mapIdx, Option.map_eq_some_iff] at h
    obtain ⟨s, _, rfl⟩ := h
    exact ⟨_, rfl⟩

/-! ## Findings as the fields of an object -/

/-- The keys of the object in which the findings are recorded. -/
def keys : List String :=
  ["term", "operator", "type", "trace", "steps", "normal_form", "denotation", "verified",
    "canonical"]

/-- The fields record the findings: no key twice, and no key of a stage that is not asked for. -/
structure Recorded (r : Findings) (showTrace : Bool) (fields : List (String × Json)) : Prop where
  nodup : (fields.map Prod.fst).Nodup
  keys : ∀ f ∈ fields, f.1 ∈ keys
  term : fields.lookup "term" = some (.text r.term.signature)
  operator : fields.lookup "operator" = some (.text r.settings.operator.name)
  type : fields.lookup "type" = r.judgment.map fun j => .text j.ty.text
  trace : fields.lookup "trace" = if showTrace then
      some (.object [("initial", r.term.toJson.sorted),
        ("steps", .array (r.trace.steps.map fun s => s.toJson.sorted))])
    else none
  steps : fields.lookup "steps" = some (.number r.trace.steps.length)
  normalForm : fields.lookup "normal_form" = some (.text r.trace.final.signature)
  denotation : fields.lookup "denotation" = r.outcome.map fun o =>
    .object [("is_value", .boolean o.isValue), ("result", o.result.toJson.sorted),
      ("steps", .number o.steps)]
  verified : fields.lookup "verified" = r.agreement.map fun _ => .boolean true
  canonical : fields.lookup "canonical" = r.canonical.map fun t => .text t.signature

/-- Two findings are the same in everything that an object records. -/
structure SameRecord (showTrace : Bool) (r r' : Findings) : Prop where
  term : r.term = r'.term
  operator : r.settings.operator = r'.settings.operator
  type : r.judgment.map Judgment.ty = r'.judgment.map Judgment.ty
  trace : showTrace = true → r.trace.steps = r'.trace.steps
  steps : r.trace.steps.length = r'.trace.steps.length
  normalForm : r.trace.final = r'.trace.final
  denotation : r.outcome = r'.outcome
  verified : r.agreement.isSome = r'.agreement.isSome
  canonical : r.canonical = r'.canonical

/-- Under one key, fields record the same of two findings if what they record tells it. -/
theorem eq_of_lookup {α : Type} {write : α → Json} (hwrite : Function.Injective write)
    {x y : Option α} {entry : Option Json} (hx : entry = x.map write) (hy : entry = y.map write) :
    x = y :=
  Option.map_injective hwrite (hx.symm.trans hy)

theorem injective_text {α : Type} {write : α → String} (h : Function.Injective write) :
    Function.Injective fun a => Json.text (write a) := fun _ _ heq => h (Json.text.inj heq)

/-- **The fields tell what they record.** -/
theorem Recorded.sameRecord {r r' : Findings} {showTrace : Bool} {fields : List (String × Json)}
    (h : r.Recorded showTrace fields) (h' : r'.Recorded showTrace fields) :
    SameRecord showTrace r r' where
  term := Option.some.inj <| eq_of_lookup (x := some r.term) (y := some r'.term)
    (injective_text fun _ _ => Term.signature_injective) h.term h'.term
  operator := Option.some.inj <| eq_of_lookup (x := some r.settings.operator)
    (y := some r'.settings.operator) (injective_text fun _ _ => OperatorKind.name_injective)
    h.operator h'.operator
  type := by
    have htype := h.type.symm.trans h'.type
    have hsplit (found : Option Judgment) : (found.map fun j => Json.text j.ty.text) =
        (found.map Judgment.ty).map fun ty => .text ty.text := by cases found <;> rfl
    rw [hsplit, hsplit] at htype
    exact Option.map_injective (injective_text fun _ _ => Ty.text_injective) htype
  trace := by
    rintro rfl
    have hsteps := h.trace.symm.trans h'.trace
    simp only [if_true, Option.some.injEq, Json.object.injEq, List.cons.injEq, Prod.mk.injEq,
      Json.array.injEq] at hsteps
    exact List.map_injective_iff.2 (fun _ _ => Step.faithful_toJson _ _) hsteps.2.1.2
  steps := Json.number.inj (Option.some.inj (h.steps.symm.trans h'.steps))
  normalForm := Option.some.inj <| eq_of_lookup (x := some r.trace.final) (y := some r'.trace.final)
    (injective_text fun _ _ => Term.signature_injective) h.normalForm h'.normalForm
  denotation := by
    have hwrite : Function.Injective fun o : Outcome => o.toJson.sorted :=
      fun _ _ => Outcome.faithful_toJson _ _
    simp only [Outcome.sorted_toJson] at hwrite
    exact eq_of_lookup hwrite h.denotation h'.denotation
  verified := by
    have hverified := congrArg Option.isSome (h.verified.symm.trans h'.verified)
    simpa using hverified
  canonical := eq_of_lookup (injective_text fun _ _ => Term.signature_injective) h.canonical
    h'.canonical

/-! ## What the stages write -/

/-- What the stages write. -/
def outputs (r : Findings) (showTrace : Bool) : List StageOutput :=
  (r.judgment.map EvaluateCommand.judgmentOutput).toList ++
    [EvaluateCommand.traceOutput showTrace r.trace] ++
    (r.outcome.map EvaluateCommand.outcomeOutput).toList ++
    (r.agreement.map EvaluateCommand.agreementOutput).toList ++
    (r.canonical.map EvaluateCommand.canonicalOutput).toList

/-- The entries for the findings, in the order of the stages; some have nothing to record. -/
def entries (r : Findings) (showTrace : Bool) : List (String × Option Json) :=
  [("term", some (.text r.term.signature)), ("operator", some (.text r.settings.operator.name)),
    ("type", r.judgment.map fun j => .text j.ty.text),
    ("trace", if showTrace then some r.trace.toJson else none),
    ("steps", some (.number r.trace.steps.length)),
    ("normal_form", some (.text r.trace.final.signature)),
    ("denotation", r.outcome.map Outcome.toJson),
    ("verified", r.agreement.map fun _ => .boolean true),
    ("canonical", r.canonical.map fun t => .text t.signature)]

/-- What stages write that write one entry each. -/
theorem flatMap_map_toList {α β : Type} {write : α → StageOutput} {part : StageOutput → List β}
    {entry : α → β} (h : ∀ a, part (write a) = [entry a]) (found : Option α) :
    (found.map write).toList.flatMap part = (found.map entry).toList := by
  cases found <;> simp [h]

theorem document_outputs (r : Findings) (showTrace : Bool) :
    EvaluateCommand.document r.settings r.term (r.outputs showTrace) =
      .object (recordedFields (r.entries showTrace)) := by
  simp only [EvaluateCommand.document, outputs, List.flatMap_append, List.flatMap_singleton]
  rw [flatMap_map_toList (fun _ => rfl) r.judgment, flatMap_map_toList (fun _ => rfl) r.outcome,
    flatMap_map_toList (fun _ => rfl) r.agreement, flatMap_map_toList (fun _ => rfl) r.canonical]
  simp only [entries, recordedFields_cons, recordedFields_nil, Option.map_map, Option.map_some,
    Option.toList_some, List.append_assoc, List.append_nil]
  cases showTrace <;> rfl

end Findings

namespace EvaluateCommand

variable {c : EvaluateCommand} {files : FileReader} {settings : EngineSettings} {t : Term}
  {outs : List StageOutput} {r : Findings}

theorem Finds.judgment_eq (h : c.Finds files r) {j : Judgment} (hj : r.judgment = some j) :
    j = ⟨.empty, r.term, j.ty⟩ := by
  have hcheck := h.judgment
  rw [hj] at hcheck
  obtain ⟨ty, _, rfl⟩ := map_eq_ok_iff.1 hcheck.eq_ok
  rfl

theorem Finds.initial_eq (h : c.Finds files r) : r.trace.initial = r.term :=
  (Engine.bigStep_of_normalize h.trace).2.1

theorem Finds.traceLines_eq (h : c.Finds files r) :
    traceLines r.trace = r.numberedLines := by
  rw [traceLines, Findings.numberedLines, h.initial_eq, List.mapIdx_eq_zipIdx_map]
  simp only [Trace.column_eq, Findings.numbered, Step.text, toString]

/-- The lines of the stages show the findings. -/
theorem Finds.flatMap_lines (h : c.Finds files r) (showTrace : Bool) :
    (r.outputs showTrace).flatMap (·.lines) = r.lines showTrace := by
  have hjudgment : (r.judgment.map judgmentOutput).toList.flatMap (·.lines) =
      (r.judgment.map fun j => s!"∅ ⊢ {r.term.signature} : {j.ty.text}").toList := by
    cases hj : r.judgment with
    | none => rfl
    | some j =>
      rw [h.judgment_eq hj]
      rfl
  simp only [Findings.outputs, Findings.lines, List.flatMap_append, List.flatMap_singleton]
  rw [hjudgment, Findings.flatMap_map_toList (fun _ => rfl) r.outcome,
    Findings.flatMap_map_toList (fun _ => rfl) r.agreement,
    Findings.flatMap_map_toList (fun _ => rfl) r.canonical]
  rw [traceOutput, h.traceLines_eq]
  rfl

/-- What is read back of the object records the findings. -/
theorem Finds.recorded (h : c.Finds files r) (showTrace : Bool) :
    r.Recorded showTrace ((Json.sortFields (recordedFields (r.entries showTrace))).map
      fun f => (f.1, f.2.sorted)) := by
  have hdistinct : ((r.entries showTrace).map Prod.fst).Nodup :=
    show Findings.keys.Nodup by decide
  have hkeys := sublist_recordedFields (r.entries showTrace)
  have hnodup : ((recordedFields (r.entries showTrace)).map Prod.fst).Nodup :=
    hdistinct.sublist hkeys
  have hlookup (key : String) :
      ((Json.sortFields (recordedFields (r.entries showTrace))).map
        fun f => (f.1, f.2.sorted)).lookup key =
      ((r.entries showTrace).lookup key).join.map Json.sorted := by
    rw [Json.lookup_map, Json.lookup_sortFields hnodup, lookup_recordedFields hdistinct]
  constructor
  case nodup =>
    rw [List.map_map]
    exact ((Json.perm_sortFields _).map Prod.fst).nodup_iff.2 hnodup
  case keys =>
    intro f hf
    obtain ⟨g, hg, rfl⟩ := List.mem_map.1 hf
    exact hkeys.subset (List.mem_map.2 ⟨g, Json.mem_sortFields.1 hg, rfl⟩)
  case trace =>
    rw [hlookup, ← h.initial_eq, ← Trace.sorted_toJson]
    cases showTrace <;> rfl
  case denotation =>
    simp only [hlookup, ← Outcome.sorted_toJson]
    exact Option.map_map ..
  case type => rw [hlookup]; exact Option.map_map ..
  case verified => rw [hlookup]; exact Option.map_map ..
  case canonical => rw [hlookup]; exact Option.map_map ..
  all_goals exact hlookup _

/-! ## The two ends of a run -/

/-- The stages succeed with what a run finds. -/
theorem stages_eq_map_ok_iff (hsettings : c.settings files = .ok settings)
    (hterm : Term.parse c.term = .ok t) :
    c.stages settings t = outs.map .ok ↔ ∃ r, c.Finds files r ∧ outs = r.outputs c.trace := by
  constructor
  · intro h
    obtain ⟨outs, canonicalOuts, rfl, h, hcanonical⟩ := List.map_eq_append_iff.1 h.symm
    obtain ⟨outs, agreementOuts, rfl, h, hagreement⟩ := List.map_eq_append_iff.1 h
    obtain ⟨outs, outcomeOuts, rfl, h, houtcome⟩ := List.map_eq_append_iff.1 h
    obtain ⟨judgmentOuts, traceOuts, rfl, hjudgment, htrace⟩ := List.map_eq_append_iff.1 h
    obtain ⟨judgment, hcheck, rfl⟩ := optionalStage_iff.1 hjudgment.symm
    obtain ⟨_, rfl, hout⟩ := List.map_eq_singleton_iff.1 htrace
    obtain ⟨trace, hreduce, rfl⟩ := map_under_eq_ok_iff.1 hout.symm
    obtain ⟨outcome, hdenote, rfl⟩ := optionalStage_iff.1 houtcome.symm
    obtain ⟨agreement, hverify, rfl⟩ := optionalStage_iff.1 hagreement.symm
    obtain ⟨canonical, hcanonicalize, rfl⟩ := optionalStage_iff.1 hcanonical.symm
    exact ⟨⟨settings, t, judgment, trace, outcome, agreement, canonical⟩,
      ⟨hsettings, hterm, hcheck, hreduce, hdenote, hverify, asked_mapError_iff.1 hcanonicalize⟩,
      rfl⟩
  · rintro ⟨r, h, rfl⟩
    cases hsettings.symm.trans h.settings
    cases hterm.symm.trans h.term
    have hcheck : (if c.check then [checkStage r.term] else []) =
        (r.judgment.map judgmentOutput).toList.map .ok :=
      optionalStage_iff.2 ⟨_, h.judgment, rfl⟩
    have hreduce : reduceStage r.settings c.trace r.term = .ok (traceOutput c.trace r.trace) :=
      map_under_eq_ok_iff.2 ⟨_, h.trace, rfl⟩
    have hdenote : (if c.denote then [denoteStage r.settings r.term] else []) =
        (r.outcome.map outcomeOutput).toList.map .ok :=
      optionalStage_iff.2 ⟨_, h.outcome, rfl⟩
    have hverify : (if c.verify then [verifyStage r.settings r.term] else []) =
        (r.agreement.map agreementOutput).toList.map .ok :=
      optionalStage_iff.2 ⟨_, h.agreement, rfl⟩
    have hcanonical : (if c.canonical then [canonicalStage r.settings r.term] else []) =
        (r.canonical.map canonicalOutput).toList.map .ok :=
      optionalStage_iff.2 ⟨_, asked_mapError_iff.2 h.canonical, rfl⟩
    rw [stages, hcheck, hreduce, hdenote, hverify, hcanonical]
    simp only [Findings.outputs, List.map_append, List.map_singleton]

/-- A run finds something or fails. -/
theorem finds_or_fails (c : EvaluateCommand) (files : FileReader) :
    (∃ r, c.Finds files r) ∨ ∃ outs f, c.Fails files outs f := by
  cases hsettings : c.settings files with
  | error f => exact .inr ⟨[], f, .settings hsettings⟩
  | ok settings =>
    cases hterm : Term.parse c.term with
    | error e => exact .inr ⟨[], _, .term hsettings hterm⟩
    | ok t =>
      obtain ⟨outs, houts⟩ | ⟨outs, f, later, hstages⟩ := stages_cases (c.stages settings t)
      · obtain ⟨r, hr, _⟩ := (stages_eq_map_ok_iff hsettings hterm).1 houts
        exact .inl ⟨r, hr⟩
      · exact .inr ⟨outs, f, .stage hsettings hterm hstages⟩

theorem Finds.plain_outcome (h : c.Finds files r) {o : Outcome} (ho : o ∈ r.outcome) :
    o.result.Plain := by
  have houtcome := h.outcome
  rw [Option.mem_def.1 ho] at houtcome
  exact EngineSettings.plain_denote houtcome.eq_ok

/-- What a stage writes has no line ends within a line. -/
theorem oneLine_of_mem_stages {out : StageOutput} (h : .ok out ∈ c.stages settings t)
    {line : String} (hline : line ∈ out.lines) : OneLine line := by
  simp only [stages, List.mem_append, List.mem_singleton, List.mem_ite_nil_right] at h
  obtain (((⟨_, hcheck⟩ | hreduce) | ⟨_, hdenote⟩) | ⟨_, hverify⟩) | ⟨_, hcanonical⟩ := h
  · obtain ⟨j, hj, rfl⟩ := map_under_eq_ok_iff.1 hcheck.symm
    obtain ⟨ty, _, rfl⟩ := map_eq_ok_iff.1 hj
    obtain rfl := List.mem_singleton.1 hline
    have htype : OneLine ty.text := ty.newline_notMem
    simp +decide [Judgment.text, toString, t.oneLine_signature, htype]
  · obtain ⟨trace, _, rfl⟩ := map_under_eq_ok_iff.1 hreduce.symm
    simp only [traceOutput, traceLines, List.mem_append, List.mem_ite_nil_right, List.mem_cons,
      List.mem_map, List.not_mem_nil, or_false] at hline
    obtain ⟨_, rfl | ⟨⟨s, i⟩, _, rfl⟩⟩ | rfl := hline
    · simp +decide [toString, Term.oneLine_signature]
    · simp +decide [toString, Trace.oneLine_column, Step.oneLine_text]
    · exact trace.final.oneLine_signature
  · obtain ⟨o, ho, rfl⟩ := map_under_eq_ok_iff.1 hdenote.symm
    obtain rfl := List.mem_singleton.1 hline
    simp +decide [toString, Outcome.oneLine_text (EngineSettings.plain_denote ho)]
  · obtain ⟨a, _, rfl⟩ := map_under_eq_ok_iff.1 hverify.symm
    obtain rfl := List.mem_singleton.1 hline
    simp +decide [oneLine_repr]
  · obtain ⟨t', _, rfl⟩ := map_under_eq_ok_iff.1 hcanonical.symm
    obtain rfl := List.mem_singleton.1 hline
    simp +decide [toString, Term.oneLine_signature]

theorem Finds.oneLine_lines (h : c.Finds files r) : ∀ line ∈ r.lines c.trace, OneLine line := by
  have hstages := (stages_eq_map_ok_iff h.settings h.term).2 ⟨r, h, rfl⟩
  rw [← h.flatMap_lines c.trace]
  intro line hline
  obtain ⟨out, hout, hline⟩ := List.mem_flatMap.1 hline
  have hmem : .ok out ∈ c.stages r.settings r.term := by
    rw [hstages]
    exact List.mem_map_of_mem hout
  exact oneLine_of_mem_stages hmem hline

theorem Fails.oneLine_lines {f : ProgramFailure} (h : c.Fails files outs f) :
    ∀ line ∈ outs.flatMap (·.lines), OneLine line := by
  intro line hline
  obtain ⟨out, hout, hline⟩ := List.mem_flatMap.1 hline
  cases h with
  | settings => cases hout
  | term => cases hout
  | @stage settings t _ _ later _ _ hstages =>
    have hmem : .ok out ∈ c.stages settings t := by
      rw [hstages]
      exact List.mem_append_left _ (List.mem_map_of_mem hout)
    exact oneLine_of_mem_stages hmem hline

end EvaluateCommand

end PrimeLanguage
