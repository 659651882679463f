import Mathlib.Data.List.DropRight
import PrimeLanguage.Proofs.Lambda.Renaming
import PrimeLanguage.Proofs.Results
import PrimeLanguage.Proofs.Text
import PrimeLanguage.Settings.Engine

/-!
# The text of an expression

An expression is plain if its variables are named by a letter and letters or digits behind it, and
its primitives by letters, digits and dashes.  The text of a plain expression determines it, and is
one line (`Expr.text_injective`, `Expr.Plain.newline_notMem`).

* `Expr.form` — the forms of expressions that the first character of their text tells apart;
* `Expr.plain_substitute`, `Evaluator.plain_run` — substitution and evaluation make no other
  names than plain ones;
* `Term.plain_meaningFrom` — nor does the meaning of a term, under a plain operator name.
-/

namespace PrimeLanguage

/-! ## Plain names -/

/-- A letter, and letters and digits behind it. -/
def PlainName (x : String) : Prop :=
  ∃ c cs, x.toList = c :: cs ∧ c.isAlpha = true ∧ ∀ d ∈ cs, d.isAlphanum = true

def isOperatorChar (c : Char) : Bool := c.isAlphanum || c == '-'

/-- Letters, digits and dashes. -/
def PlainOperator (o : String) : Prop := ∀ c ∈ o.toList, isOperatorChar c = true

/-- All names in the expression are plain. -/
def Expr.Plain : Expr → Prop
  | .var x => PlainName x
  | .const _ => True
  | .lam x b => PlainName x ∧ b.Plain
  | .app l r | .join _ l r => l.Plain ∧ r.Plain
  | .prim o l r => PlainOperator o ∧ l.Plain ∧ r.Plain

theorem isAlphanum_of_isAlpha {c : Char} (h : c.isAlpha = true) : c.isAlphanum = true := by
  simp [Char.isAlphanum, h]

theorem isAlphanum_of_isDigit {c : Char} (h : c.isDigit = true) : c.isAlphanum = true := by
  simp [Char.isAlphanum, h]

theorem PlainName.isAlphanum {x : String} (h : PlainName x) :
    ∀ c ∈ x.toList, c.isAlphanum = true := by
  obtain ⟨c, cs, hx, hc, hcs⟩ := h
  rw [hx]
  exact List.forall_mem_cons.2 ⟨isAlphanum_of_isAlpha hc, hcs⟩

theorem Prime.isAlphanum_digits (p : Prime) : ∀ c ∈ p.digits, c.isAlphanum = true := fun c hc =>
  isAlphanum_of_isDigit (isDigit_toDigits p.val c hc)

namespace Expr

/-! ## The characters of a text -/

variable {e e' : Expr} {rest rest' : List Char}

theorem toList_text_const (p : Prime) : (const p).text.toList = p.digits := by
  simp [text, toString]

theorem toList_text_lam (x : String) (b : Expr) :
    (lam x b).text.toList = 'λ' :: (x.toList ++ '.' :: b.text.toList) := by
  simp [text, toString]

theorem toList_text_app (f a : Expr) :
    (app f a).text.toList = '(' :: (f.text.toList ++ ' ' :: (a.text.toList ++ [')'])) := by
  simp [text, toString]

theorem toList_text_seq (l r : Expr) : (join .seq l r).text.toList =
    '⟨' :: (l.text.toList ++ ',' :: ' ' :: (r.text.toList ++ ['⟩'])) := by
  simp [text, toString]

theorem toList_text_imp (l r : Expr) : (join .imp l r).text.toList =
    '(' :: (l.text.toList ++ ' ' :: '⇒' :: ' ' :: (r.text.toList ++ [')'])) := by
  simp [text, toString]

theorem toList_text_prim (o : String) (l r : Expr) : (prim o l r).text.toList =
    '⊕' :: (o.toList ++ '(' :: (l.text.toList ++ ',' :: ' ' :: (r.text.toList ++ [')']))) := by
  simp [text, toString]

/-- Forms of expressions that begin with different characters. -/
inductive Form where
  | name
  | number
  | abstraction
  | brackets
  | angles
  | primitive
  deriving DecidableEq

def form : Expr → Form
  | .var _ => .name
  | .const _ => .number
  | .lam .. => .abstraction
  | .app .. | .join .imp .. => .brackets
  | .join .seq .. => .angles
  | .prim .. => .primitive

/-- The form of an expression whose text begins with that character, if there is any. -/
def formOf? (c : Char) : Option Form :=
  if c.isAlpha then some .name
  else if c.isDigit then some .number
  else [('λ', .abstraction), ('(', .brackets), ('⟨', .angles), ('⊕', .primitive)].lookup c

/-- Letters lie behind the digits. -/
theorem isAlpha_of_isDigit {c : Char} (h : c.isDigit = true) : c.isAlpha = false := by
  have hdigit : c.val ≤ '9'.val := of_decide_eq_true ((Bool.and_eq_true _ _).mp h).2
  refine Bool.eq_false_iff.2 fun halpha => ?_
  rcases (Bool.or_eq_true _ _).mp halpha with hupper | hlower
  · have hletter : 'A'.val ≤ c.val := (of_decide_eq_true hupper).1
    exact absurd (UInt32.le_trans hletter hdigit) (by decide)
  · have hletter : 'a'.val ≤ c.val := of_decide_eq_true ((Bool.and_eq_true _ _).mp hlower).1
    exact absurd (UInt32.le_trans hletter hdigit) (by decide)

/-- The first character tells the form. -/
theorem formOf?_text (h : e.Plain) (rest : List Char) :
    (e.text.toList ++ rest).head?.bind formOf? = some e.form := by
  cases e with
  | var x =>
    obtain ⟨c, cs, hx, hc, _⟩ := h
    simp [text, hx, formOf?, hc, form]
  | const p =>
    obtain ⟨c, cs, hdigits, hc⟩ := exists_toDigits_eq_cons p.val
    simp [toList_text_const, Prime.digits, hdigits, formOf?, isAlpha_of_isDigit hc, hc, form]
  | lam x b => rw [toList_text_lam]; rfl
  | app f a => rw [toList_text_app]; rfl
  | join c l r =>
    cases c with
    | seq => rw [toList_text_seq]; rfl
    | imp => rw [toList_text_imp]; rfl
  | prim o l r => rw [toList_text_prim]; rfl

theorem form_eq (he : e.Plain) (he' : e'.Plain)
    (h : e.text.toList ++ rest = e'.text.toList ++ rest') : e.form = e'.form := by
  have hform := formOf?_text he rest
  rw [h, formOf?_text he' rest'] at hform
  exact (Option.some.inj hform).symm

/-- The text of an expression never begins with that arrow. -/
theorem text_append_ne_arrow (he : e.Plain) : e.text.toList ++ rest ≠ '⇒' :: rest' := by
  intro h
  have hform := formOf?_text he rest
  rw [h] at hform
  cases hform

/-- The text tells the expression and where it ends, unless a name or number goes on. -/
def ToldByText (e : Expr) : Prop :=
  ∀ {e' : Expr} {rest rest' : List Char}, e'.Plain → StopsAt Char.isAlphanum rest →
    StopsAt Char.isAlphanum rest' → e.text.toList ++ rest = e'.text.toList ++ rest' →
    e = e' ∧ rest = rest'

/-- A part with another character behind it. -/
theorem ToldByText.part {l l' : Expr} (hl : l.ToldByText) (hl' : l'.Plain) {c : Char}
    (hc : c.isAlphanum = false) (h : l.text.toList ++ c :: rest = l'.text.toList ++ c :: rest') :
    l = l' ∧ rest = rest' := by
  obtain ⟨hparts, hrests⟩ := hl hl' (stopsAt_cons hc _) (stopsAt_cons hc _) h
  exact ⟨hparts, (List.cons.inj hrests).2⟩

/-- Two parts with other characters behind them. -/
theorem ToldByText.parts {l r l' r' : Expr} (hl : l.ToldByText) (hr : r.ToldByText)
    (hl' : l'.Plain) (hr' : r'.Plain) {c d : Char} (sep : List Char)
    (hc : c.isAlphanum = false) (hd : d.isAlphanum = false)
    (h : l.text.toList ++ c :: (sep ++ (r.text.toList ++ d :: rest)) =
      l'.text.toList ++ c :: (sep ++ (r'.text.toList ++ d :: rest'))) :
    l = l' ∧ r = r' ∧ rest = rest' := by
  obtain ⟨hlefts, hright⟩ := hl.part hl' hc h
  obtain ⟨hrights, hrests⟩ := hr.part hr' hd (List.append_cancel_left hright)
  exact ⟨hlefts, hrights, hrests⟩

theorem ToldByText.var {x : String} (hx : PlainName x) : (var x).ToldByText := by
  intro e' rest rest' he' hrest hrest' h
  have he : (Expr.var x).Plain := hx
  cases e' with
  | var y =>
    obtain ⟨hname, hrests⟩ := append_inj_of_stopsAt hx.isAlphanum he'.isAlphanum hrest hrest' h
    exact ⟨congrArg Expr.var (String.toList_inj.1 hname), hrests⟩
  | join c => cases c <;> cases form_eq he he' h
  | _ => cases form_eq he he' h

theorem ToldByText.const (p : Prime) : (const p).ToldByText := by
  intro e' rest rest' he' hrest hrest' h
  have he : (Expr.const p).Plain := trivial
  cases e' with
  | const q =>
    rw [toList_text_const, toList_text_const] at h
    obtain ⟨hdigits, hrests⟩ :=
      append_inj_of_stopsAt p.isAlphanum_digits q.isAlphanum_digits hrest hrest' h
    exact ⟨congrArg Expr.const (Prime.ext (toDigits_injective hdigits)), hrests⟩
  | join c => cases c <;> cases form_eq he he' h
  | _ => cases form_eq he he' h

theorem ToldByText.lam {x : String} {b : Expr} (he : (lam x b).Plain) (hb : b.ToldByText) :
    (Expr.lam x b).ToldByText := by
  intro e' rest rest' he' hrest hrest' h
  cases e' with
  | lam y b' =>
    simp only [toList_text_lam, List.cons_append, List.append_assoc] at h
    obtain ⟨hname, hbody⟩ := append_inj_of_stopsAt he.1.isAlphanum he'.1.isAlphanum
      (stopsAt_cons rfl _) (stopsAt_cons rfl _) (List.cons.inj h).2
    obtain ⟨rfl, hrests⟩ := hb he'.2 hrest hrest' (List.cons.inj hbody).2
    rw [String.toList_inj.1 hname]
    exact ⟨rfl, hrests⟩
  | join c => cases c <;> cases form_eq he he' h
  | _ => cases form_eq he he' h

theorem ToldByText.app {f a : Expr} (he : (app f a).Plain) (hf : f.ToldByText)
    (ha : a.ToldByText) : (Expr.app f a).ToldByText := by
  intro e' rest rest' he' hrest hrest' h
  cases e' with
  | app f' a' =>
    simp only [toList_text_app, List.cons_append, List.append_assoc, List.nil_append] at h
    obtain ⟨rfl, rfl, hrests⟩ := hf.parts ha he'.1 he'.2 [] rfl rfl (List.cons.inj h).2
    exact ⟨rfl, hrests⟩
  | join c l' r' =>
    cases c with
    | seq => cases form_eq he he' h
    | imp =>
      -- the function ends where the left part does, but no argument begins with an arrow
      simp only [toList_text_app, toList_text_imp, List.cons_append, List.append_assoc] at h
      exact absurd (hf.part he'.1 rfl (List.cons.inj h).2).2 (text_append_ne_arrow he.2)
  | _ => cases form_eq he he' h

theorem ToldByText.seq {l r : Expr} (he : (join .seq l r).Plain) (hl : l.ToldByText)
    (hr : r.ToldByText) : (join .seq l r).ToldByText := by
  intro e' rest rest' he' hrest hrest' h
  cases e' with
  | join c l' r' =>
    cases c with
    | imp => cases form_eq he he' h
    | seq =>
      simp only [toList_text_seq, List.cons_append, List.append_assoc, List.nil_append] at h
      obtain ⟨rfl, rfl, hrests⟩ := hl.parts hr he'.1 he'.2 [' '] rfl rfl (List.cons.inj h).2
      exact ⟨rfl, hrests⟩
  | _ => cases form_eq he he' h

theorem ToldByText.imp {l r : Expr} (he : (join .imp l r).Plain) (hl : l.ToldByText)
    (hr : r.ToldByText) : (join .imp l r).ToldByText := by
  intro e' rest rest' he' hrest hrest' h
  cases e' with
  | app f' a' =>
    simp only [toList_text_app, toList_text_imp, List.cons_append, List.append_assoc] at h
    exact absurd (hl.part he'.1 rfl (List.cons.inj h).2).2.symm (text_append_ne_arrow he'.2)
  | join c l' r' =>
    cases c with
    | seq => cases form_eq he he' h
    | imp =>
      simp only [toList_text_imp, List.cons_append, List.append_assoc, List.nil_append] at h
      obtain ⟨rfl, rfl, hrests⟩ :=
        hl.parts hr he'.1 he'.2 ['⇒', ' '] rfl rfl (List.cons.inj h).2
      exact ⟨rfl, hrests⟩
  | _ => cases form_eq he he' h

theorem ToldByText.prim {o : String} {l r : Expr} (he : (prim o l r).Plain) (hl : l.ToldByText)
    (hr : r.ToldByText) : (Expr.prim o l r).ToldByText := by
  intro e' rest rest' he' hrest hrest' h
  cases e' with
  | prim o' l' r' =>
    simp only [toList_text_prim, List.cons_append, List.append_assoc, List.nil_append] at h
    obtain ⟨hname, harguments⟩ := append_inj_of_stopsAt he.1 he'.1 (stopsAt_cons rfl _)
      (stopsAt_cons rfl _) (List.cons.inj h).2
    obtain ⟨rfl, rfl, hrests⟩ :=
      hl.parts hr he'.2.1 he'.2.2 [' '] rfl rfl (List.cons.inj harguments).2
    rw [String.toList_inj.1 hname]
    exact ⟨rfl, hrests⟩
  | join c => cases c <;> cases form_eq he he' h
  | _ => cases form_eq he he' h

/-- The text of a plain expression tells it. -/
theorem toldByText (he : e.Plain) : e.ToldByText := by
  induction e with
  | var x => exact ToldByText.var he
  | const p => exact ToldByText.const p
  | lam x b ih => exact ToldByText.lam he (ih he.2)
  | app f a ihf iha => exact ToldByText.app he (ihf he.1) (iha he.2)
  | join c l r ihl ihr =>
    cases c with
    | seq => exact ToldByText.seq he (ihl he.1) (ihr he.2)
    | imp => exact ToldByText.imp he (ihl he.1) (ihr he.2)
  | prim o l r ihl ihr => exact ToldByText.prim he (ihl he.2.1) (ihr he.2.2)

/-- **Plain expressions are told apart by their texts.** -/
theorem text_injective (he : e.Plain) (he' : e'.Plain) (h : e.text = e'.text) : e = e' :=
  (toldByText he he' stopsAt_nil stopsAt_nil (by rw [h])).1

/-! ## Texts of one line -/

theorem newline_notMem_of_isAlphanum {cs : List Char} (h : ∀ c ∈ cs, c.isAlphanum = true) :
    '\n' ∉ cs := fun hmem => by cases h _ hmem

theorem Plain.newline_notMem (h : e.Plain) : '\n' ∉ e.text.toList := by
  induction e with
  | var x => exact newline_notMem_of_isAlphanum h.isAlphanum
  | const p =>
    rw [toList_text_const]
    exact newline_notMem_of_isAlphanum p.isAlphanum_digits
  | lam x b ih =>
    have hx := newline_notMem_of_isAlphanum h.1.isAlphanum
    simp [toList_text_lam, hx, ih h.2]
  | app f a ihf iha => simp [toList_text_app, ihf h.1, iha h.2]
  | join c l r ihl ihr =>
    cases c with
    | seq => simp [toList_text_seq, ihl h.1, ihr h.2]
    | imp => simp [toList_text_imp, ihl h.1, ihr h.2]
  | prim o l r ihl ihr =>
    have ho : '\n' ∉ o.toList := fun hmem => by cases h.1 _ hmem
    simp [toList_text_prim, ho, ihl h.2.1, ihr h.2.2]

/-! ## Names that evaluation makes -/

theorem plainName_numbered {c : Char} {cs : List Char} (hc : c.isAlpha = true)
    (hcs : ∀ d ∈ cs, d.isAlphanum = true) (n : Nat) :
    PlainName (NameSupply.numbered (c :: cs) n) := by
  refine ⟨c, cs ++ Nat.toDigits 10 n, String.toList_ofList, hc, ?_⟩
  intro d hd
  rcases List.mem_append.1 hd with hd | hd
  · exact hcs d hd
  · exact isAlphanum_of_isDigit (isDigit_toDigits n d hd)

/-- A plain hint makes plain names. -/
theorem plainName_fresh {hint : String} (h : PlainName hint) (s : NameSupply)
    (avoid : List String) : PlainName (s.fresh hint avoid).1 := by
  obtain ⟨c, cs, hhint, hc, hcs⟩ := h
  -- the letter in front stays when the digits at the end are dropped
  have hbase : (c :: cs).rdropWhile Char.isDigit ≠ [] := fun hnil => by
    have hdigit := List.rdropWhile_eq_nil_iff.1 hnil c List.mem_cons_self
    rw [isAlpha_of_isDigit hdigit] at hc
    cases hc
  obtain ⟨d, ds, hds⟩ := List.exists_cons_of_ne_nil hbase
  obtain ⟨rfl, hbegins⟩ : d = c ∧ ds <+: cs := by
    have := List.rdropWhile_prefix Char.isDigit (c :: cs)
    rwa [hds, List.cons_prefix_cons] at this
  have hstem : NameSupply.stem hint = d :: ds := by
    have hdrop : (hint.toList.reverse.dropWhile Char.isDigit).reverse = d :: ds := by
      rw [hhint]
      exact hds
    rw [NameSupply.stem, hdrop]
  obtain ⟨k, _, hpick, _, _⟩ := NameSupply.pick_eq (d :: ds) s.next avoid
  simp only [NameSupply.fresh, hstem, hpick]
  exact plainName_numbered hc (fun x hx => hcs x (hbegins.subset hx)) k

/-- Substitution makes no other names than plain ones. -/
theorem plain_substitute {v : Expr} (he : e.Plain) (hv : v.Plain) (x : String) (s : NameSupply) :
    (e.substitute x v s).1.Plain := by
  induction e using renaming_induction generalizing x v s with
  | var y =>
    rw [substitute_var]
    split
    · exact hv
    · exact he
  | const p => rw [substitute_const]; exact he
  | lam y b ih =>
    by_cases hyx : y = x
    · subst hyx
      rw [substitute_lam_self]
      exact he
    · by_cases hmem : y ∈ v.free
      · obtain ⟨s₁, s₂, hsub⟩ := substitute_lam_eq_rename hyx hmem b s
        have hz := plainName_fresh he.1 s (v.free ++ b.free ++ [x])
        have hrenamed := ih b rfl he.2 (v := .var _) hz y s₁
        rw [hsub]
        exact ⟨hz, ih _ (size_substitute_var b y _ s₁) hrenamed hv x s₂⟩
      · rw [substitute_lam_of_notMem hyx hmem]
        exact ⟨he.1, ih b rfl he.2 hv x s⟩
  | app f a ihf iha =>
    obtain ⟨s', hsub⟩ := substitute_app x f a v s
    rw [hsub]
    exact ⟨ihf he.1 hv x s, iha he.2 hv x s'⟩
  | join c l r ihl ihr =>
    obtain ⟨s', hsub⟩ := substitute_join x c l r v s
    rw [hsub]
    exact ⟨ihl he.1 hv x s, ihr he.2 hv x s'⟩
  | prim o l r ihl ihr =>
    obtain ⟨s', hsub⟩ := substitute_prim x o l r v s
    rw [hsub]
    exact ⟨he.1, ihl he.2.1 hv x s, ihr he.2.2 hv x s'⟩

/-- So does a step. -/
theorem plain_step {op : Operator} {s : NameSupply} {z : Expr × NameSupply} (he : e.Plain)
    (h : e.step op s = some z) : z.1.Plain := by
  refine step_induction (motive := fun e e' => e.Plain → e'.Plain) ?beta ?function ?argument
    ?joinLeft ?joinRight ?primLeft ?primRight ?primitive h he
  case beta => exact fun x b a s h => plain_substitute h.1.2 h.2 x s
  case function => exact fun _ _ _ ih h => ⟨ih h.1, h.2⟩
  case argument => exact fun _ _ _ ih h => ⟨h.1, ih h.2⟩
  case joinLeft => exact fun _ _ _ _ ih h => ⟨ih h.1, h.2⟩
  case joinRight => exact fun _ _ _ _ ih h => ⟨h.1, ih h.2⟩
  case primLeft => exact fun _ _ _ _ ih h => ⟨h.1, ih h.2.1, h.2.2⟩
  case primRight => exact fun _ _ _ _ ih h => ⟨h.1, h.2.1, ih h.2.2⟩
  case primitive => exact fun _ _ _ _ _ => trivial

end Expr

theorem Evaluator.plain_run {ev : Evaluator} {e : Expr} (he : e.Plain) (n taken : Nat)
    (s : NameSupply) : (ev.run n taken e s).result.Plain := by
  induction n generalizing taken e s with
  | zero => exact he
  | succ n ih =>
    rw [run]
    split
    · exact he
    · next hstep => exact ih (Expr.plain_step he hstep) _ _

/-! ## Meanings -/

theorem OperatorKind.plain_name (k : OperatorKind) : PlainOperator k.name := by
  cases k <;> simp [PlainOperator, name, isOperatorChar]

section Meanings

variable {operator : String} {e e' : Expr} {os : List Term} {s s' : NameSupply}

theorem plain_adjectiveMeaning (ho : PlainOperator operator) (p : Prime) (s : NameSupply) :
    (adjectiveMeaning operator p s).1.Plain := by
  have hx : PlainName (s.fresh "x" []).1 := Expr.plainName_fresh ⟨'x', [], by simp, rfl, nofun⟩ s []
  exact ⟨hx, ho, trivial, hx⟩

theorem plain_applyMeanings (ho : PlainOperator operator) (he : e.Plain)
    (h : applyMeanings operator os e s = .ok (e', s')) : e'.Plain := by
  induction os generalizing e s with
  | nil => cases h; exact he
  | cons o os ih =>
    cases o with
    | adj p =>
      have happ : (Expr.app (adjectiveMeaning operator p s).1 e).Plain :=
        ⟨plain_adjectiveMeaning ho p s, he⟩
      exact ih happ h
    | noun | chain | fusion | sentence | join => cases h

/-- The meaning of a term has plain names. -/
theorem Term.plain_meaningFrom (ho : PlainOperator operator) {t : Term}
    (h : t.meaningFrom operator s = .ok (e, s')) : e.Plain := by
  induction t using Term.induction generalizing s e s' with
  | noun p => cases h; trivial
  | adj p =>
    obtain rfl : (adjectiveMeaning operator p s).1 = e := congrArg Prod.fst (Except.ok.inj h)
    exact plain_adjectiveMeaning ho p s
  | chain o os t _ _ ih =>
    rw [meaningFrom] at h
    split at h
    · obtain ⟨⟨e₁, s₁⟩, he, happ⟩ := bind_eq_ok_iff.1 h
      exact plain_applyMeanings ho (ih he) happ
    · cases h
  | fusion f =>
    rw [meaningFrom] at h
    split at h <;> cases h
    trivial
  | sentence t ih => exact ih h
  | join c l r ihl ihr =>
    obtain ⟨⟨l', s₁⟩, hl, h⟩ := bind_eq_ok_iff.1 h
    obtain ⟨⟨r', s₂⟩, hr, h⟩ := bind_eq_ok_iff.1 h
    cases h
    exact ⟨ihl hl, ihr hr⟩

end Meanings

/-- What settings let a term denote has plain names. -/
theorem EngineSettings.plain_denote {settings : EngineSettings} {t : Term} {o : Outcome}
    (h : settings.semantics.denote t = .ok o) : o.result.Plain := by
  obtain ⟨e, hmeaning, rfl⟩ := map_eq_ok_iff.1 h
  obtain ⟨z, hz, rfl⟩ := map_eq_ok_iff.1 hmeaning
  have hname : settings.semantics.engine.operator.name = settings.operator.name :=
    settings.operator.name_build settings.modulus
  rw [hname] at hz
  exact Evaluator.plain_run (Term.plain_meaningFrom settings.operator.plain_name hz) _ _ _

/-! ## Outcomes -/

/-- How an evaluation ended. -/
def Outcome.status (o : Outcome) : String := if o.isValue then "value" else "stuck"

theorem Outcome.toList_text (o : Outcome) :
    o.text.toList = o.result.text.toList ++ ' ' ::
      ('(' :: (o.status.toList ++ (" after ".toList ++ (Nat.toDigits 10 o.steps ++
        " steps)".toList)))) := by
  simp [text, status, toString]

/-- **Outcomes are told apart by their texts**, unless their names are not plain. -/
theorem Outcome.text_injective {o o' : Outcome} (h : o.result.Plain) (h' : o'.result.Plain)
    (htext : o.text = o'.text) : o = o' := by
  have hlist := congrArg String.toList htext
  rw [toList_text, toList_text] at hlist
  have htold : o.result.ToldByText := Expr.toldByText h
  obtain ⟨hresult, hrest⟩ := htold.part h' rfl hlist
  have hstatus (o : Outcome) : o.status.toList.length = 5 := by
    unfold status
    split <;> rfl
  obtain ⟨hstatus, hafter⟩ :=
    List.append_inj (List.cons.inj hrest).2 ((hstatus o).trans (hstatus o').symm)
  have hvalue : o.isValue = o'.isValue := by
    revert hstatus
    unfold status
    cases o.isValue <;> cases o'.isValue <;> decide
  have hsteps : o.steps = o'.steps :=
    toDigits_injective (List.append_cancel_right (List.append_cancel_left hafter))
  cases o
  cases o'
  simp_all only

end PrimeLanguage
