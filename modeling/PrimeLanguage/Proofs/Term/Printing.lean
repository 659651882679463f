import PrimeLanguage.Term.Print

/-!
# The text of a term

A printed term is a sequence of atoms: the operators of a chain in written order and its noun
position, or the term itself.  Chains among them stand in round brackets.

* `Term.pieces`, `Term.text`, `Term.atomText` — the terms that stand as the atoms of a term, and
  what is printed for a term by itself and as an atom (`text_eq`);
* `Term.printed_induction` — induction along the text: terms over their atoms, atoms over the terms
  in their brackets;
* `Term.groupDepth` — how deep the groups of the text nest;
* `nesting`, `OpensGroup`, `Shallow`, `Exceeds` — groups seen in a text, without reading it: how
  many brackets are open behind a text, which brackets open a group, and which of them is the first
  with a given number of open brackets around it.

Every bracket is closed (`Term.nesting_text`), every group has less than `groupDepth` open brackets
around it (`Term.shallow_text`), and all characters are ASCII and none of them ends a line
(`Term.utf8Size_text`, `Term.newline_notMem_text`).
-/

namespace PrimeLanguage

namespace Term

/-! ## Texts and their atoms -/

/-- What is printed for a term. -/
def text (t : Term) : List Char := t.print []

/-- What is printed for a term in operator or noun position. -/
def atomText (t : Term) : List Char := enclosed t.isChain t.print []

/-- The operators of a term in the order in which they apply. -/
def operators : Term → List Term
  | .chain o os _ => o :: os
  | _ => []

/-- The noun position of a term; the term itself if it is no chain. -/
def position : Term → Term
  | .chain _ _ e => e
  | t => t

/-- The terms that stand as the atoms of the text, in written order. -/
def pieces (t : Term) : List Term := t.operators.reverse ++ [t.position]

theorem ofOperators_operators (t : Term) : ofOperators t.operators t.position = t := by
  cases t <;> rfl

theorem pieces_of_not_isChain {t : Term} (h : t.isChain = false) : t.pieces = [t] := by
  cases t with
  | chain => cases h
  | noun | adj | fusion | sentence | join => rfl

theorem mem_pieces_chain {o e q : Term} {os : List Term} :
    q ∈ (chain o os e).pieces ↔ q = o ∨ q ∈ os ∨ q = e := by
  simp [pieces, operators, position, or_comm, or_assoc]

/-- Induction along the text.  `A` is about terms as atoms, `P` about terms by themselves. -/
theorem printed_induction {A P : Term → Prop}
    (noun : ∀ p, A (.noun p))
    (adj : ∀ p, A (.adj p))
    (fusion : ∀ f, A (.fusion f))
    (sentence : ∀ e, P e → A (.sentence e))
    (join : ∀ c l r, P l → P r → A (.join c l r))
    (chain : ∀ o os e, P (.chain o os e) → A (.chain o os e))
    (pieces : ∀ t : Term, (∀ q ∈ t.pieces, A q) → P t)
    (t : Term) : A t ∧ P t := by
  have single : ∀ t : Term, t.isChain = false → A t → A t ∧ P t := by
    intro t ht ha
    refine ⟨ha, pieces t ?_⟩
    rw [pieces_of_not_isChain ht]
    exact fun q hq => List.mem_singleton.1 hq ▸ ha
  induction t using Term.induction with
  | noun p => exact single _ rfl (noun p)
  | adj p => exact single _ rfl (adj p)
  | fusion f => exact single _ rfl (fusion f)
  | sentence e ih => exact single _ rfl (sentence e ih.2)
  | join c l r ihl ihr => exact single _ rfl (join c l r ihl.2 ihr.2)
  | chain o os e iho ihos ihe =>
    have hp : P (.chain o os e) := by
      refine pieces _ fun q hq => ?_
      rcases mem_pieces_chain.1 hq with rfl | hq | rfl
      · exact iho.1
      · exact (ihos q hq).1
      · exact ihe.1
    exact ⟨chain o os e hp, hp⟩

theorem enclosed_eq {t : Term} (h : ∀ rest, t.print rest = t.text ++ rest) (rest : List Char) :
    enclosed t.isChain t.print rest = t.atomText ++ rest := by
  unfold atomText enclosed
  rw [h rest, h (')' :: rest), h [')'], h []]
  split <;> simp

theorem printOperators_eq {os : List Term}
    (h : ∀ o ∈ os, ∀ rest, o.print rest = o.text ++ rest) (rest : List Char) :
    printOperators os rest = os.reverse.flatMap atomText ++ rest := by
  induction os generalizing rest with
  | nil => rfl
  | cons o os ih =>
    rw [printOperators, ih (fun o ho => h o (List.mem_cons_of_mem _ ho)),
      enclosed_eq (h o List.mem_cons_self)]
    simp

theorem print_chain_eq {o e : Term} {os : List Term}
    (h : ∀ q, q = o ∨ q ∈ os ∨ q = e → ∀ rest, q.print rest = q.text ++ rest)
    (rest : List Char) :
    (chain o os e).print rest = (chain o os e).pieces.flatMap atomText ++ rest := by
  rw [print, printOperators_eq fun q hq => h q (.inr (.inl hq)), enclosed_eq (h o (.inl rfl)),
    enclosed_eq (h e (.inr (.inr rfl)))]
  simp [pieces, operators, position]

/-- What is printed does not depend on what follows. -/
theorem print_eq (t : Term) (rest : List Char) : t.print rest = t.text ++ rest := by
  induction t using Term.induction generalizing rest with
  | noun | adj => simp [text, print]
  | fusion f => simp [text, print, Fusion.print]
  | sentence e ih => simp [text, print, ih (']' :: rest), ih [']']]
  | join c l r ihl ihr =>
    simp only [text, print]
    rw [ihl, ihr, ihl (c.symbol ++ _), ihr [')']]
    simp
  | chain o os e iho ihos ihe =>
    have h : ∀ q, q = o ∨ q ∈ os ∨ q = e → ∀ rest, q.print rest = q.text ++ rest := by
      rintro q (rfl | hq | rfl)
      · exact iho
      · exact ihos q hq
      · exact ihe
    rw [text, print_chain_eq h rest, print_chain_eq h [], List.append_nil]

/-- The text of a term is the text of its atoms. -/
theorem text_eq (t : Term) : t.text = t.pieces.flatMap atomText := by
  cases t with
  | chain o os e =>
    rw [text, print_chain_eq fun q _ => q.print_eq, List.append_nil]
  | noun | adj | fusion | sentence | join =>
    rw [pieces_of_not_isChain rfl, List.flatMap_singleton]
    rfl

theorem atomText_sentence (e : Term) : (sentence e).atomText = '[' :: (e.text ++ [']']) :=
  congrArg ('[' :: ·) (e.print_eq [']'])

theorem atomText_join (c : Connective) (l r : Term) :
    (join c l r).atomText = '(' :: ((l.text ++ (c.symbol ++ r.text)) ++ [')']) := by
  rw [List.append_assoc, List.append_assoc, ← r.print_eq, ← l.print_eq]
  rfl

theorem atomText_chain (o : Term) (os : List Term) (e : Term) :
    (chain o os e).atomText = '(' :: ((chain o os e).text ++ [')']) :=
  congrArg ('(' :: ·) ((chain o os e).print_eq [')'])

end Term

/-! ## How deep groups nest -/

/-- The depth of what is enclosed in round brackets, if it is. -/
def enclosedDepth (brackets : Bool) (depth : Nat) : Nat := if brackets then depth + 1 else depth

namespace Term

mutual

/-- How deep the groups of the text of a term nest: sentences are groups, and so are chains in
operator or noun position. -/
def groupDepth : Term → Nat
  | .noun _ | .adj _ | .fusion _ => 0
  | .chain o os e =>
    max (max (enclosedDepth o.isChain o.groupDepth) (operatorsDepth os))
      (enclosedDepth e.isChain e.groupDepth)
  | .sentence e => e.groupDepth + 1
  | .join _ l r => max l.groupDepth r.groupDepth + 1

/-- The greatest depth of operators. -/
def operatorsDepth : List Term → Nat
  | [] => 0
  | o :: os => max (enclosedDepth o.isChain o.groupDepth) (operatorsDepth os)

end

/-- How deep the groups of a term in operator or noun position nest. -/
def atomDepth (t : Term) : Nat := enclosedDepth t.isChain t.groupDepth

theorem groupDepth_le_atomDepth (t : Term) : t.groupDepth ≤ t.atomDepth := by
  unfold atomDepth enclosedDepth
  split <;> omega

theorem atomDepth_le_succ (t : Term) : t.atomDepth ≤ t.groupDepth + 1 := by
  unfold atomDepth enclosedDepth
  split <;> omega

theorem atomDepth_sentence (e : Term) : (sentence e).atomDepth = e.groupDepth + 1 := rfl

theorem atomDepth_join (c : Connective) (l r : Term) :
    (join c l r).atomDepth = max l.groupDepth r.groupDepth + 1 := rfl

theorem atomDepth_chain (o : Term) (os : List Term) (e : Term) :
    (chain o os e).atomDepth = (chain o os e).groupDepth + 1 := rfl

theorem operatorsDepth_le_iff {os : List Term} {n : Nat} :
    operatorsDepth os ≤ n ↔ ∀ o ∈ os, o.atomDepth ≤ n := by
  induction os with
  | nil => simp [operatorsDepth]
  | cons o os ih => rw [operatorsDepth, Nat.max_le, ih, List.forall_mem_cons, atomDepth]

/-- A term nests as deep as its atoms do. -/
theorem groupDepth_le_iff {t : Term} {n : Nat} :
    t.groupDepth ≤ n ↔ ∀ q ∈ t.pieces, q.atomDepth ≤ n := by
  cases t with
  | chain o os e =>
    simp only [groupDepth, Nat.max_le, operatorsDepth_le_iff, mem_pieces_chain]
    constructor
    · rintro ⟨⟨ho, hos⟩, he⟩ q (rfl | hq | rfl)
      · exact ho
      · exact hos q hq
      · exact he
    · intro h
      exact ⟨⟨h o (.inl rfl), fun q hq => h q (.inr (.inl hq))⟩, h e (.inr (.inr rfl))⟩
  | noun | adj | fusion | sentence | join =>
    rw [pieces_of_not_isChain rfl]
    simp [atomDepth, enclosedDepth, isChain]

end Term

/-! ## Groups seen in a text -/

/-- How many brackets a character opens. -/
def bracket (c : Char) : Int :=
  if c = '[' ∨ c = '(' then 1 else if c = ']' ∨ c = ')' then -1 else 0

/-- How many of its brackets a text leaves open. -/
def nesting : List Char → Int
  | [] => 0
  | c :: text => bracket c + nesting text

/-- Whether a bracket opens a group, given the text in front of it.  A round bracket directly behind
a letter opens the arguments of an atom. -/
def OpensGroup (before : List Char) (c : Char) : Prop :=
  c = '[' ∨ c = '(' ∧ ∀ x ∈ before.getLast?, x.isAlpha = false

/-- Every group of the text has less than `n` open brackets around it. -/
def Shallow (n : Nat) (text : List Char) : Prop :=
  ∀ before c after, text = before ++ c :: after → OpensGroup before c → nesting before < n

/-- Behind `before` the bracket `c` opens a group with `n` open brackets around it, and it is the
first to do so. -/
structure Exceeds (n : Nat) (before : List Char) (c : Char) : Prop where
  opens : OpensGroup before c
  nesting_eq : nesting before = n
  first : Shallow n before

section Nesting

variable {n m : Nat} {a b text : List Char} {c : Char}

@[simp] theorem nesting_nil : nesting [] = 0 := rfl

@[simp] theorem nesting_cons : nesting (c :: text) = bracket c + nesting text := rfl

@[simp] theorem nesting_append : nesting (a ++ b) = nesting a + nesting b := by
  induction a with
  | nil => simp
  | cons c a ih => simp [ih, Int.add_assoc]

theorem nesting_eq_zero (h : ∀ c ∈ text, bracket c = 0) : nesting text = 0 := by
  induction text with
  | nil => rfl
  | cons c text ih =>
    rw [nesting_cons, h c List.mem_cons_self, ih fun c hc => h c (List.mem_cons_of_mem _ hc)]
    rfl

theorem OpensGroup.bracket_eq (h : OpensGroup text c) : bracket c = 1 := by
  rcases h with rfl | ⟨rfl, _⟩ <;> rfl

/-- What opens a group with more text in front of it opens one without. -/
theorem OpensGroup.of_append (h : OpensGroup (a ++ b) c) : OpensGroup b c := by
  refine h.imp_right fun ⟨hc, hlast⟩ => ⟨hc, fun x hx => hlast x ?_⟩
  rw [List.getLast?_append, Option.mem_def.1 hx]
  rfl

theorem OpensGroup.append (ha : ∀ x ∈ a.getLast?, x.isAlpha = false) (h : OpensGroup b c) :
    OpensGroup (a ++ b) c := by
  refine h.imp_right fun ⟨hc, hlast⟩ => ⟨hc, fun x hx => ?_⟩
  rw [List.getLast?_append, Option.mem_def, Option.or_eq_some_iff] at hx
  rcases hx with hx | ⟨_, hx⟩
  · exact hlast x hx
  · exact ha x hx

/-- A character of two texts in a row is one of the first or one of the second. -/
theorem split_append {before after : List Char} (h : a ++ b = before ++ c :: after) :
    (∃ s, a = before ++ c :: s) ∨ ∃ s, before = a ++ s ∧ b = s ++ c :: after := by
  rcases List.append_eq_append_iff.1 h with ⟨s, hbefore, hb⟩ | ⟨s, ha, hcons⟩
  · exact .inr ⟨s, hbefore, hb⟩
  · cases s with
    | nil => exact .inr ⟨[], by simpa using ha.symm, hcons.symm⟩
    | cons x s =>
      obtain ⟨rfl, _⟩ := List.cons.inj hcons
      exact .inl ⟨s, ha⟩

theorem Shallow.append (ha : Shallow n a) (hb : Shallow m b) (h : nesting a + m ≤ n) :
    Shallow n (a ++ b) := by
  intro before c after heq hopens
  rcases split_append heq with ⟨s, hs⟩ | ⟨s, rfl, hs⟩
  · exact ha before c s hs hopens
  · have hlt := hb s c after hs hopens.of_append
    rw [nesting_append]
    omega

/-- A text without opening brackets has no groups. -/
theorem shallow_of_bracket (h : ∀ c ∈ text, bracket c ≠ 1) : Shallow n text := by
  intro before c after heq hopens
  exact absurd hopens.bracket_eq (h c (by simp [heq]))

theorem shallow_singleton (hn : 0 < n) : Shallow n [c] := by
  intro before d after heq hopens
  cases before with
  | nil => simpa using hn
  | cons x before => simp at heq

theorem nesting_group {d : Char} (hc : bracket c = 1) (hd : bracket d = -1)
    (htext : nesting text = 0) : nesting (c :: (text ++ [d])) = 0 := by
  rw [nesting_cons, nesting_append, nesting_cons, nesting_nil, hc, hd, htext]
  rfl

/-- A group may hold what is shallow, one less deep. -/
theorem Shallow.group {d : Char} (h : Shallow n text) (hc : bracket c = 1) (hd : bracket d = -1)
    (htext : nesting text = 0) : Shallow (n + 1) (c :: (text ++ [d])) := by
  have hclose : Shallow 0 [d] :=
    shallow_of_bracket fun x hx => by rw [List.mem_singleton.1 hx, hd]; decide
  have hbody : Shallow n (text ++ [d]) := h.append hclose (by rw [htext]; omega)
  have hopen : Shallow (n + 1) [c] := shallow_singleton (Nat.succ_pos n)
  exact hopen.append hbody (by rw [nesting_cons, nesting_nil, hc]; omega)

/-- What stands in front of a group that is the first at its depth leaves it so, only deeper. -/
theorem Exceeds.append (h : Exceeds n b c) (ha : Shallow m a) (hnesting : nesting a + n = m)
    (hlast : ∀ x ∈ a.getLast?, x.isAlpha = false) : Exceeds m (a ++ b) c where
  opens := h.opens.append hlast
  nesting_eq := by rw [nesting_append, h.nesting_eq, hnesting]
  first := ha.append h.first (by omega)

end Nesting

/-! ## Groups in the text of a term -/

/-- The text of an atom without groups: a name and numbers in brackets. -/
def IsCall (text : List Char) : Prop :=
  ∃ name arguments, text = name ++ '(' :: (arguments ++ [')']) ∧ name ≠ [] ∧
    (∀ c ∈ name, c.isAlpha = true) ∧ ∀ c ∈ arguments, c.isDigit = true ∨ c = ','

theorem Prime.isDigit_of_mem_digits {p : Prime} {c : Char} (h : c ∈ p.digits) :
    c.isDigit = true :=
  Nat.isDigit_of_mem_toDigits (by decide) (by decide) h

section Calls

variable {n : Nat} {text : List Char} {c : Char}

/-- No character of a call but its own two brackets is a bracket. -/
theorem bracket_eq_zero (h : c.isAlpha = true ∨ c.isDigit = true ∨ c = ',') : bracket c = 0 := by
  have hopen : ¬ (c = '[' ∨ c = '(') := by
    rintro (rfl | rfl) <;> revert h <;> decide
  have hclose : ¬ (c = ']' ∨ c = ')') := by
    rintro (rfl | rfl) <;> revert h <;> decide
  rw [bracket, if_neg hopen, if_neg hclose]

theorem Term.isCall_noun (p : Prime) : IsCall (Term.noun p).atomText :=
  ⟨['N'], p.digits, rfl, nofun, List.all_eq_true.1 rfl,
    fun _ hc => .inl (Prime.isDigit_of_mem_digits hc)⟩

theorem Term.isCall_adj (p : Prime) : IsCall (Term.adj p).atomText :=
  ⟨['A'], p.digits, rfl, nofun, List.all_eq_true.1 rfl,
    fun _ hc => .inl (Prime.isDigit_of_mem_digits hc)⟩

theorem Fusion.print_eq (f : Fusion) (rest : List Char) :
    f.print rest = ['F', 'U', 'S', 'E'] ++
      '(' :: ((f.p.digits ++ ',' :: (f.q.digits ++ ',' :: f.r.digits)) ++ ')' :: rest) := by
  simp [Fusion.print]

theorem Term.isCall_fusion (f : Fusion) : IsCall (Term.fusion f).atomText := by
  refine ⟨_, _, f.print_eq [], nofun, List.all_eq_true.1 rfl, fun c hc => ?_⟩
  simp only [List.mem_append, List.mem_cons] at hc
  rcases hc with hc | rfl | hc | rfl | hc
  · exact .inl (Prime.isDigit_of_mem_digits hc)
  · exact .inr rfl
  · exact .inl (Prime.isDigit_of_mem_digits hc)
  · exact .inr rfl
  · exact .inl (Prime.isDigit_of_mem_digits hc)

theorem IsCall.nesting_eq (h : IsCall text) : nesting text = 0 := by
  obtain ⟨name, arguments, rfl, _, hname, harguments⟩ := h
  rw [nesting_append, nesting_cons, nesting_append,
    nesting_eq_zero fun c hc => bracket_eq_zero (.inl (hname c hc)),
    nesting_eq_zero fun c hc => bracket_eq_zero (.inr (harguments c hc))]
  rfl

/-- The bracket around arguments opens no group. -/
theorem IsCall.shallow (h : IsCall text) : Shallow n text := by
  obtain ⟨name, arguments, rfl, hne, hname, harguments⟩ := h
  intro before c after heq hopens
  have hbracket := hopens.bracket_eq
  exfalso
  rcases split_append heq with ⟨s, hs⟩ | ⟨s, rfl, hs⟩
  · rw [bracket_eq_zero (.inl (hname c (by simp [hs])))] at hbracket
    cases hbracket
  · cases s with
    | nil =>
      have hlast := List.getLast?_eq_some_getLast hne
      rcases hopens with rfl | ⟨_, hall⟩
      · cases hs
      · rw [List.append_nil] at hall
        have halpha := hname _ (List.getLast_mem hne)
        rw [hall _ hlast] at halpha
        cases halpha
    | cons x s =>
      have hmem : c ∈ arguments ++ [')'] := by simp [(List.cons.inj hs).2]
      rcases List.mem_append.1 hmem with hc | hc
      · rw [bracket_eq_zero (.inr (harguments c hc))] at hbracket
        cases hbracket
      · rw [List.mem_singleton.1 hc] at hbracket
        cases hbracket

theorem utf8Size_of_isAlphanum (h : c.isAlphanum = true) : c.utf8Size = 1 := by
  have hcases : (decide (c.val ≥ 'A'.val ∧ c.val ≤ 'Z'.val) ||
      decide (c.val ≥ 'a'.val) && decide (c.val ≤ 'z'.val) ||
      decide (c.val ≥ '0'.val) && decide (c.val ≤ '9'.val)) = true := h
  simp only [Bool.or_eq_true, Bool.and_eq_true, decide_eq_true_eq] at hcases
  rw [Char.utf8Size_eq_one_iff]
  rcases hcases with (⟨_, hupper⟩ | ⟨_, hlower⟩) | ⟨_, hdigit⟩
  · exact UInt32.le_trans hupper (by decide)
  · exact UInt32.le_trans hlower (by decide)
  · exact UInt32.le_trans hdigit (by decide)

/-- Letters, digits and the signs that terms are written with. -/
def isTermChar (c : Char) : Bool :=
  c.isAlphanum || ['(', ')', '[', ']', ',', ';', '=', '>', ' '].contains c

theorem IsCall.isTermChar (h : IsCall text) : ∀ c ∈ text, isTermChar c = true := by
  obtain ⟨name, arguments, rfl, _, hname, harguments⟩ := h
  simp only [List.forall_mem_append, List.forall_mem_cons]
  refine ⟨fun c hc => ?_, rfl, fun c hc => ?_, rfl, nofun⟩
  · simp [PrimeLanguage.isTermChar, Char.isAlphanum, hname c hc]
  · rcases harguments c hc with hdigit | rfl
    · simp [PrimeLanguage.isTermChar, Char.isAlphanum, hdigit]
    · rfl

end Calls

namespace Term

theorem nesting_symbol (c : Connective) : nesting c.symbol = 0 := by cases c <;> rfl

theorem nesting_flatMap {ts : List Term} (h : ∀ t ∈ ts, nesting t.atomText = 0) :
    nesting (ts.flatMap atomText) = 0 := by
  induction ts with
  | nil => rfl
  | cons t ts ih =>
    obtain ⟨ht, hts⟩ := List.forall_mem_cons.1 h
    rw [List.flatMap_cons, nesting_append, ht, ih hts]
    rfl

/-- Every bracket is closed. -/
theorem nesting_atomText_text (t : Term) : nesting t.atomText = 0 ∧ nesting t.text = 0 := by
  refine printed_induction (A := fun t => nesting t.atomText = 0) (P := fun t => nesting t.text = 0)
    (fun p => (isCall_noun p).nesting_eq) (fun p => (isCall_adj p).nesting_eq)
    (fun f => (isCall_fusion f).nesting_eq) ?_ ?_ ?_ ?_ t
  · intro e he
    rw [atomText_sentence]
    exact nesting_group rfl rfl he
  · intro c l r hl hr
    rw [atomText_join]
    exact nesting_group rfl rfl (by simp [hl, hr, nesting_symbol])
  · intro o os e ht
    rw [atomText_chain]
    exact nesting_group rfl rfl ht
  · intro t ht
    rw [text_eq]
    exact nesting_flatMap ht

theorem nesting_atomText (t : Term) : nesting t.atomText = 0 := t.nesting_atomText_text.1

theorem nesting_text (t : Term) : nesting t.text = 0 := t.nesting_atomText_text.2

/-- The text of an atom ends with a closing bracket. -/
theorem isAlpha_getLast_atomText (t : Term) : ∀ x ∈ t.atomText.getLast?, x.isAlpha = false := by
  have hlast : ∀ (text : List Char) (c : Char), c.isAlpha = false →
      ∀ x ∈ (text ++ [c]).getLast?, x.isAlpha = false := by
    intro text c hc x hx
    rw [List.getLast?_concat] at hx
    exact Option.some.inj hx ▸ hc
  have hcall : ∀ text, IsCall text → ∀ x ∈ text.getLast?, x.isAlpha = false := by
    rintro _ ⟨name, arguments, rfl, _⟩
    rw [← List.cons_append, ← List.append_assoc]
    exact hlast _ ')' rfl
  cases t with
  | noun p => exact hcall _ (isCall_noun p)
  | adj p => exact hcall _ (isCall_adj p)
  | fusion f => exact hcall _ (isCall_fusion f)
  | sentence e =>
    rw [atomText_sentence]
    exact hlast ('[' :: e.text) ']' rfl
  | join c l r =>
    rw [atomText_join]
    exact hlast ('(' :: _) ')' rfl
  | chain o os e =>
    rw [atomText_chain]
    exact hlast ('(' :: _) ')' rfl

theorem shallow_symbol (c : Connective) {n : Nat} : Shallow n c.symbol :=
  shallow_of_bracket (by cases c <;> simp [Connective.symbol, bracket])

theorem shallow_flatMap {ts : List Term} {n : Nat} (h : ∀ t ∈ ts, Shallow n t.atomText) :
    Shallow n (ts.flatMap atomText) := by
  induction ts with
  | nil => exact shallow_of_bracket fun _ hc => absurd hc List.not_mem_nil
  | cons t ts ih =>
    obtain ⟨ht, hts⟩ := List.forall_mem_cons.1 h
    exact ht.append (ih hts) (by rw [t.nesting_atomText]; omega)

/-- Every group has less open brackets around it than the depth of the term. -/
theorem shallow_atomText_text (t : Term) :
    (∀ n, t.atomDepth ≤ n → Shallow n t.atomText) ∧ ∀ n, t.groupDepth ≤ n → Shallow n t.text := by
  refine printed_induction (A := fun t => ∀ n, t.atomDepth ≤ n → Shallow n t.atomText)
    (P := fun t => ∀ n, t.groupDepth ≤ n → Shallow n t.text)
    (fun p _ _ => (isCall_noun p).shallow) (fun p _ _ => (isCall_adj p).shallow)
    (fun f _ _ => (isCall_fusion f).shallow) ?_ ?_ ?_ ?_ t
  · intro e he n hdepth
    rw [atomDepth_sentence] at hdepth
    rw [atomText_sentence]
    cases n with
    | zero => exact absurd hdepth (Nat.not_succ_le_zero _)
    | succ n => exact (he n (Nat.le_of_succ_le_succ hdepth)).group rfl rfl e.nesting_text
  · intro c l r hl hr n hdepth
    rw [atomDepth_join] at hdepth
    rw [atomText_join]
    cases n with
    | zero => exact absurd hdepth (Nat.not_succ_le_zero _)
    | succ n =>
      obtain ⟨hln, hrn⟩ := Nat.max_le.1 (Nat.le_of_succ_le_succ hdepth)
      have hright : Shallow n (c.symbol ++ r.text) :=
        (shallow_symbol c).append (hr n hrn) (by rw [nesting_symbol]; omega)
      have hboth : Shallow n (l.text ++ (c.symbol ++ r.text)) :=
        (hl n hln).append hright (by rw [l.nesting_text]; omega)
      exact hboth.group rfl rfl (by simp [nesting_text, nesting_symbol])
  · intro o os e ht n hdepth
    rw [atomDepth_chain] at hdepth
    rw [atomText_chain]
    cases n with
    | zero => exact absurd hdepth (Nat.not_succ_le_zero _)
    | succ n => exact (ht n (Nat.le_of_succ_le_succ hdepth)).group rfl rfl (nesting_text _)
  · intro t ht n hdepth
    rw [text_eq]
    exact shallow_flatMap fun q hq => ht q hq n (groupDepth_le_iff.1 hdepth q hq)

theorem shallow_atomText {t : Term} {n : Nat} (h : t.atomDepth ≤ n) : Shallow n t.atomText :=
  t.shallow_atomText_text.1 n h

theorem shallow_text {t : Term} {n : Nat} (h : t.groupDepth ≤ n) : Shallow n t.text :=
  t.shallow_atomText_text.2 n h

theorem isTermChar_symbol (c : Connective) : ∀ x ∈ c.symbol, isTermChar x = true := by
  cases c <;> simp [Connective.symbol, isTermChar]

theorem isTermChar_atomText_text (t : Term) :
    (∀ c ∈ t.atomText, isTermChar c = true) ∧ ∀ c ∈ t.text, isTermChar c = true := by
  refine printed_induction (A := fun t => ∀ c ∈ t.atomText, isTermChar c = true)
    (P := fun t => ∀ c ∈ t.text, isTermChar c = true)
    (fun p => (isCall_noun p).isTermChar) (fun p => (isCall_adj p).isTermChar)
    (fun f => (isCall_fusion f).isTermChar) ?_ ?_ ?_ ?_ t
  · intro e he
    simp only [atomText_sentence, List.forall_mem_cons, List.forall_mem_append]
    exact ⟨rfl, he, rfl, nofun⟩
  · intro c l r hl hr
    simp only [atomText_join, List.forall_mem_cons, List.forall_mem_append]
    exact ⟨rfl, ⟨hl, isTermChar_symbol c, hr⟩, rfl, nofun⟩
  · intro o os e ht
    simp only [atomText_chain, List.forall_mem_cons, List.forall_mem_append]
    exact ⟨rfl, ht, rfl, nofun⟩
  · intro t ht c hc
    rw [text_eq] at hc
    obtain ⟨q, hq, hc⟩ := List.mem_flatMap.1 hc
    exact ht q hq c hc

/-- All characters are ASCII. -/
theorem utf8Size_text {t : Term} : ∀ c ∈ t.text, c.utf8Size = 1 := by
  intro c hc
  have hchar := t.isTermChar_atomText_text.2 c hc
  simp only [isTermChar, Bool.or_eq_true, List.contains_iff_mem] at hchar
  rcases hchar with halphanum | hsign
  · exact utf8Size_of_isAlphanum halphanum
  · have hsigns : ∀ c ∈ ['(', ')', '[', ']', ',', ';', '=', '>', ' '], c.utf8Size = 1 := by
      simp [Char.utf8Size]
    exact hsigns c hsign

/-- The text is one line. -/
theorem newline_notMem_text (t : Term) : '\n' ∉ t.text := fun hmem => by
  cases t.isTermChar_atomText_text.2 _ hmem

end Term

end PrimeLanguage
