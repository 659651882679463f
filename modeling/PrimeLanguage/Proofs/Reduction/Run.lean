import PrimeLanguage.Proofs.Reduction.BigStep

/-!
# The engine's loop

A run is the engine's own steps, one after another (`Engine.Leads`), as far as the bound allows.  So
every answer of the loop is settled by the evaluation in one go (`Operator.bigStep`) and the bound.

* `run_eq_ok_iff`, `leads_of_run_error` — what a run is, when it succeeds and when it fails;
* `bigStep_of_run` — a run that succeeds has the events and the result of the evaluation;
* `run_of_bigStep` — an evaluation that succeeds is run if the bound allows for its events;
* `error_of_run` — a run that fails meets the error of the evaluation, or the bound;
* `bigStep_of_run_error` — with a bound not below the measure of the term it is the former.

`Engine.normalize` inherits the last four.
-/

namespace PrimeLanguage

/-- The events of a trace. -/
def Trace.events (t : Trace) : List Event := t.steps.map Step.event

/-- How many steps of the trace apply an adjective. -/
def Trace.applications (trace : Trace) : Nat := trace.steps.countP (·.rule = .apply)

theorem Trace.applications_events (trace : Trace) :
    Event.applications trace.events = trace.applications := by
  rw [Event.applications, Trace.events, List.countP_map]
  rfl

@[simp] theorem Trace.final_cons (t : Term) (s : Step) (ss : List Step) :
    (Trace.mk t (s :: ss)).final = (Trace.mk s.after ss).final := by
  cases ss with
  | nil => rfl
  | cons s' ss => simp [Trace.final, List.getLast?_cons]

namespace Engine

variable {e : Engine} {t u : Term} {m : Nat}

/-- The evaluation that the engine carries out step by step. -/
def bigStep (e : Engine) (t : Term) : Except Error (Reduct Term) :=
  e.operator.bigStep e.strategy t

theorem step_eq_ok_none (h : e.step t = .ok none) :
    contract e.operator e.strategy t = .ok none := by
  obtain ⟨x, hx, hnone⟩ := map_eq_ok_iff.1 h
  cases x with
  | none => exact hx
  | some k => cases hnone

theorem step_eq_ok_some {s : Step} (h : e.step t = .ok (some s)) :
    ∃ k, contract e.operator e.strategy t = .ok (some k) ∧ s = k.stepFrom t := by
  obtain ⟨x, hx, hsome⟩ := map_eq_ok_iff.1 h
  cases x with
  | none => cases hsome
  | some k => cases hsome; exact ⟨k, hx, rfl⟩

theorem bigStep_of_step_none (h : e.step t = .ok none) : e.bigStep t = .ok ⟨[], t⟩ :=
  Operator.bigStep_of_terminal (step_eq_ok_none h)

theorem bigStep_of_step_some {s : Step} (h : e.step t = .ok (some s)) :
    e.bigStep t = (e.bigStep s.after).map (·.cons s.event) := by
  obtain ⟨k, hk, rfl⟩ := step_eq_ok_some h
  exact Operator.bigStep_of_contract hk

theorem bigStep_of_step_error {err : Error} (h : e.step t = .error err) :
    e.bigStep t = .error err :=
  Operator.bigStep_of_error (map_eq_error_iff.1 h)

theorem measure_of_step_some {s : Step} (h : e.step t = .ok (some s)) :
    s.after.measure + 1 = t.measure := by
  obtain ⟨k, hk, rfl⟩ := step_eq_ok_some h
  exact (Operator.contracts_of_contract hk).measure

/-! ## The engine's own steps -/

/-- The steps `ss` lead from `t` to `u`, each of them the one that the engine takes. -/
inductive Leads (e : Engine) : Term → List Step → Term → Prop where
  | nil (t : Term) : Leads e t [] t
  | cons {t u : Term} {s : Step} {ss : List Step} (h : e.step t = .ok (some s))
    (rest : Leads e s.after ss u) : Leads e t (s :: ss) u

theorem Leads.final {ss : List Step} (h : e.Leads t ss u) : (Trace.mk t ss).final = u := by
  induction h with
  | nil t => rfl
  | cons _ _ ih => rw [Trace.final_cons, ih]

/-- Every step takes one off the measure. -/
theorem Leads.measure_add_length {ss : List Step} (h : e.Leads t ss u) :
    u.measure + ss.length = t.measure := by
  induction h with
  | nil t => rfl
  | cons hstep _ ih => rw [List.length_cons, ← Nat.add_assoc, ih, measure_of_step_some hstep]

/-- What leads to a terminal term is what the evaluation records. -/
theorem Leads.bigStep {ss : List Step} (h : e.Leads t ss u) (hu : e.step u = .ok none) :
    e.bigStep t = .ok ⟨ss.map Step.event, u⟩ := by
  induction h with
  | nil t => exact bigStep_of_step_none hu
  | cons hstep _ ih =>
    rw [bigStep_of_step_some hstep, ih hu]
    rfl

/-! ## Runs -/

theorem run_of_step_none (h : e.step t = .ok none) : e.run m t = .ok [] := by
  cases m <;> simp only [run, h] <;> rfl

/-- A run is a way to a terminal term that the bound allows for. -/
theorem run_eq_ok_iff {ss : List Step} :
    e.run m t = .ok ss ↔ (∃ u, e.Leads t ss u ∧ e.step u = .ok none) ∧ ss.length ≤ m := by
  constructor
  · intro h
    induction m generalizing t ss with
    | zero =>
      obtain ⟨x, hstep, h⟩ := bind_eq_ok_iff.1 h
      cases x with
      | none => cases h; exact ⟨⟨t, .nil t, hstep⟩, Nat.le_refl 0⟩
      | some s => cases h
    | succ m ih =>
      obtain ⟨x, hstep, h⟩ := bind_eq_ok_iff.1 h
      cases x with
      | none => cases h; exact ⟨⟨t, .nil t, hstep⟩, Nat.zero_le _⟩
      | some s =>
        obtain ⟨ss', hrun, h⟩ := bind_eq_ok_iff.1 h
        cases h
        obtain ⟨⟨u, hleads, hu⟩, hlen⟩ := ih hrun
        exact ⟨⟨u, .cons hstep hleads, hu⟩, Nat.succ_le_succ hlen⟩
  · rintro ⟨⟨u, hleads, hu⟩, hm⟩
    induction hleads generalizing m with
    | nil t => exact run_of_step_none hu
    | @cons t u s ss hstep _ ih =>
      cases m with
      | zero => exact absurd hm (Nat.not_succ_le_zero _)
      | succ m =>
        have hrun : e.run m s.after = .ok ss := ih (Nat.le_of_succ_le_succ hm) hu
        exact bind_eq_ok_iff.2 ⟨some s, hstep, bind_eq_ok_iff.2 ⟨ss, hrun, rfl⟩⟩

/-- **A run that succeeds is the evaluation**, and takes no more steps than the bound allows. -/
theorem bigStep_of_run {ss : List Step} (h : e.run m t = .ok ss) :
    e.bigStep t = .ok ⟨ss.map Step.event, (Trace.mk t ss).final⟩ ∧ ss.length ≤ m := by
  obtain ⟨⟨u, hleads, hu⟩, hlen⟩ := run_eq_ok_iff.1 h
  rw [hleads.final]
  exact ⟨hleads.bigStep hu, hlen⟩

/-- An evaluation that succeeds starts with the step of the engine. -/
theorem step_of_bigStep {r : Reduct Term} (h : e.bigStep t = .ok r) :
    (e.step t = .ok none ∧ r = ⟨[], t⟩) ∨
    ∃ s r', e.step t = .ok (some s) ∧ e.bigStep s.after = .ok r' ∧ r = r'.cons s.event := by
  cases hstep : e.step t with
  | error err => rw [bigStep_of_step_error hstep] at h; cases h
  | ok x =>
    cases x with
    | none =>
      rw [bigStep_of_step_none hstep] at h
      exact Or.inl ⟨rfl, (Except.ok.inj h).symm⟩
    | some s =>
      rw [bigStep_of_step_some hstep] at h
      obtain ⟨r', hr', rfl⟩ := map_eq_ok_iff.1 h
      exact Or.inr ⟨s, r', rfl, hr', rfl⟩

/-- **An evaluation that succeeds is run**, if the bound allows for its events. -/
theorem run_of_bigStep {r : Reduct Term} (h : e.bigStep t = .ok r) (hm : r.events.length ≤ m) :
    ∃ ss, e.run m t = .ok ss ∧ ss.map Step.event = r.events ∧ (Trace.mk t ss).final = r.result := by
  induction m generalizing t r with
  | zero =>
    rcases step_of_bigStep h with ⟨hstep, rfl⟩ | ⟨s, r', _, _, rfl⟩
    · exact ⟨[], run_of_step_none hstep, rfl, rfl⟩
    · exact absurd hm (Nat.not_succ_le_zero _)
  | succ m ih =>
    rcases step_of_bigStep h with ⟨hstep, rfl⟩ | ⟨s, r', hstep, hr', rfl⟩
    · exact ⟨[], run_of_step_none hstep, rfl, rfl⟩
    · have hlen : r'.events.length ≤ m := Nat.le_of_succ_le_succ hm
      obtain ⟨ss, hrun, hev, hfin⟩ := ih hr' hlen
      refine ⟨s :: ss, ?_, ?_, ?_⟩
      · unfold run
        simp only [hstep, bind, Except.bind, hrun]
        rfl
      · rw [List.map_cons, hev]
        rfl
      · rw [Trace.final_cons, hfin]
        rfl

/-- **A run that fails** meets the error of the evaluation, or has led as far as the bound allows,
to a term with another step. -/
theorem leads_of_run_error {err : Error} (h : e.run m t = .error err) :
    e.bigStep t = .error err ∨
      ∃ ss u s, e.Leads t ss u ∧ ss.length = m ∧ e.step u = .ok (some s) ∧
        err = .nonTermination e.maxSteps u := by
  induction m generalizing t with
  | zero =>
    rcases bind_eq_error_iff.1 h with hstep | ⟨x, hstep, h⟩
    · exact Or.inl (bigStep_of_step_error hstep)
    · cases x with
      | none => cases h
      | some s =>
        cases h
        exact Or.inr ⟨[], t, s, .nil t, rfl, hstep, rfl⟩
  | succ m ih =>
    rcases bind_eq_error_iff.1 h with hstep | ⟨x, hstep, h⟩
    · exact Or.inl (bigStep_of_step_error hstep)
    · cases x with
      | none => cases h
      | some s =>
        rcases bind_eq_error_iff.1 h with hrun | ⟨ss, _, h⟩
        · rcases ih hrun with hbig | ⟨ss, u, s', hleads, hlen, hnext, rfl⟩
          · refine Or.inl ?_
            rw [bigStep_of_step_some hstep, hbig]
            rfl
          · exact Or.inr
              ⟨s :: ss, u, s', .cons hstep hleads, by rw [List.length_cons, hlen], hnext, rfl⟩
        · cases h

/-- **A run fails with the error of the evaluation, or for want of steps.** -/
theorem error_of_run {err : Error} (h : e.run m t = .error err) :
    e.bigStep t = .error err ∨ ∃ u, err = .nonTermination e.maxSteps u := by
  refine (leads_of_run_error h).imp_right ?_
  rintro ⟨_, u, _, _, _, _, rfl⟩
  exact ⟨u, rfl⟩

/-- A bound not below the measure of the term is never what a run fails for: every step takes one
off the measure, which stays positive. -/
theorem bigStep_of_run_error {err : Error} (h : e.run m t = .error err) (hm : t.measure ≤ m) :
    e.bigStep t = .error err := by
  refine (leads_of_run_error h).resolve_right ?_
  rintro ⟨ss, u, _, hleads, hlen, _, _⟩
  have hmeasure := hleads.measure_add_length
  have hpos : 0 < u.measure := Term.weight_pos (by decide) u
  omega

/-- Every step of a run takes one off the measure. -/
theorem measure_of_run {ss : List Step} (h : e.run m t = .ok ss) :
    (Trace.mk t ss).final.measure + ss.length = t.measure := by
  obtain ⟨⟨u, hleads, _⟩, _⟩ := run_eq_ok_iff.1 h
  rw [hleads.final, hleads.measure_add_length]

/-! ## Normalization -/

theorem bigStep_of_normalize {trace : Trace} (h : e.normalize t = .ok trace) :
    e.bigStep t = .ok ⟨trace.events, trace.final⟩ ∧ trace.initial = t ∧
      trace.steps.length ≤ e.maxSteps := by
  obtain ⟨ss, hrun, rfl⟩ := map_eq_ok_iff.1 h
  obtain ⟨hbig, hlen⟩ := bigStep_of_run hrun
  exact ⟨hbig, rfl, hlen⟩

theorem normalize_of_bigStep {r : Reduct Term} (h : e.bigStep t = .ok r)
    (hm : r.events.length ≤ e.maxSteps) :
    ∃ trace, e.normalize t = .ok trace ∧ trace.events = r.events ∧ trace.final = r.result := by
  obtain ⟨ss, hrun, hev, hfin⟩ := run_of_bigStep h hm
  exact ⟨⟨t, ss⟩, by rw [normalize, hrun]; rfl, hev, hfin⟩

theorem measure_of_normalize {trace : Trace} (h : e.normalize t = .ok trace) :
    trace.final.measure + trace.steps.length = t.measure := by
  obtain ⟨ss, hrun, rfl⟩ := map_eq_ok_iff.1 h
  exact measure_of_run hrun

theorem error_of_normalize {err : Error} (h : e.normalize t = .error err) :
    e.bigStep t = .error err ∨ ∃ u, err = .nonTermination e.maxSteps u :=
  error_of_run (map_eq_error_iff.1 h)

theorem bigStep_of_normalize_error {err : Error} (h : e.normalize t = .error err)
    (hm : t.measure ≤ e.maxSteps) : e.bigStep t = .error err :=
  bigStep_of_run_error (map_eq_error_iff.1 h) hm

end Engine

end PrimeLanguage
