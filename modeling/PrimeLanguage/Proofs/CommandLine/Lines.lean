import PrimeLanguage.CommandLine.Evaluate
import PrimeLanguage.Proofs.Lambda.Printing
import PrimeLanguage.Proofs.Term.Printing
import PrimeLanguage.Proofs.Typing.Printing

/-!
# Lines of text

What is written line by line is read back line by line, as long as no line holds a line end
(`splitOn_linesText`).  The texts of terms, types, steps and plain expressions are one line each
(`OneLine`).  Texts of several lines are set in line by line (`splitOn_indented`).
-/

namespace PrimeLanguage

/-- A text without line ends. -/
def OneLine (s : String) : Prop := '\n' ∉ s.toList

instance (s : String) : Decidable (OneLine s) := inferInstanceAs (Decidable ('\n' ∉ s.toList))

@[simp] theorem oneLine_append {s s' : String} : OneLine (s ++ s') ↔ OneLine s ∧ OneLine s' := by
  simp [OneLine]

/-- Lines are the texts in front of the line ends. -/
theorem splitOn_linesText {lines : List String} (h : ∀ line ∈ lines, OneLine line) :
    (linesText lines).toList.splitOn '\n' = lines.map String.toList ++ [[]] := by
  induction lines with
  | nil => rfl
  | cons line lines ih =>
    obtain ⟨hline, hlines⟩ := List.forall_mem_cons.1 h
    have htext : (linesText (line :: lines)).toList =
        line.toList ++ '\n' :: (linesText lines).toList := by
      simp [linesText, String.toList_join]
    rw [htext, List.splitOn_append_cons_self_of_not_mem hline, ih hlines]
    rfl

/-- An indented text has the lines of the text, each behind four blanks. -/
theorem splitOn_indented (s : String) : (indented s).toList.splitOn '\n' =
    (s.toList.splitOn '\n').map ("    ".toList ++ ·) := by
  have hmargin {line : List Char} (h : '\n' ∉ line) : '\n' ∉ "    ".toList ++ line := by simp [h]
  -- `line` is what has been read of the line in which `cs` goes on
  have hfrom (cs line : List Char) (hline : '\n' ∉ line) :
      ("    ".toList ++ line ++ cs.flatMap fun c =>
        if c = '\n' then "\n    ".toList else [c]).splitOn '\n' =
      ((line ++ cs).splitOn '\n').map ("    ".toList ++ ·) := by
    induction cs generalizing line with
    | nil =>
      rw [List.flatMap_nil, List.append_nil, List.append_nil,
        List.splitOn_eq_singleton (hmargin hline), List.splitOn_eq_singleton hline,
        List.map_singleton]
    | cons c cs ih =>
      by_cases hc : c = '\n'
      · subst hc
        have hrest := ih [] List.not_mem_nil
        rw [List.splitOn_append_cons_self_of_not_mem hline, List.map_cons, ← List.nil_append cs,
          ← hrest, ← List.splitOn_append_cons_self_of_not_mem (hmargin hline)]
        simp
      · have hlonger : '\n' ∉ line ++ [c] := by simp [hline, Ne.symm hc]
        have hcs := ih (line ++ [c]) hlonger
        simpa [hc] using hcs
  rw [indented, String.toList_append, String.toList_ofList]
  simpa using hfrom s.toList [] List.not_mem_nil

/-! ## Numbers -/

theorem oneLine_repr (n : Nat) : OneLine n.repr := by
  intro hmem
  rw [Nat.toList_repr] at hmem
  cases isDigit_toDigits n _ hmem

/-- A number stands at the right of its column. -/
theorem Trace.column_eq (width n : Nat) :
    column width n = String.ofList ((Nat.toDigits 10 n).leftpad width ' ') := by
  have hlength : (toString n).length = (Nat.toDigits 10 n).length := by
    rw [Nat.toString_eq_repr, ← String.length_toList, Nat.toList_repr]
  rw [← String.toList_inj, column, hlength]
  simp [toList_pushn, List.leftpad]

theorem Trace.oneLine_column (width n : Nat) : OneLine (column width n) := by
  intro hmem
  rw [column_eq, String.toList_ofList, List.leftpad, List.mem_append] at hmem
  rcases hmem with hmem | hmem
  · cases List.eq_of_mem_replicate hmem
  · cases isDigit_toDigits n _ hmem

/-! ## Terms, steps and outcomes -/

theorem Term.oneLine_signature (t : Term) : OneLine t.signature := by
  rw [OneLine, signature, String.toList_ofList]
  exact t.newline_notMem_text

theorem Step.oneLine_text (s : Step) : OneLine s.text := by
  have hrule : OneLine s.rule.name := by cases s.rule <;> decide
  have hblank : OneLine " " := by decide
  have harrow : OneLine " → " := by decide
  simp [text, toString, hrule, hblank, harrow, Term.oneLine_signature]

theorem Outcome.oneLine_text {o : Outcome} (h : o.result.Plain) : OneLine o.text := by
  have hresult : OneLine o.result.text := h.newline_notMem
  have hstatus : OneLine (if o.isValue then "value" else "stuck") := by split <;> decide
  have hcount : OneLine o.steps.repr := oneLine_repr o.steps
  simp +decide [text, toString, hresult, hcount, hstatus]

end PrimeLanguage
