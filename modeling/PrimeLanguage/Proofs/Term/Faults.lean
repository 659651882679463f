import PrimeLanguage.Proofs.Term.RoundTrip

/-!
# Where faults are

A text that is no term is refused at a place of it.  The characters in front of the place take one
byte each, so that the place is a byte offset between two characters, and a fault of an atom is
found where the atom begins.

* `Grammar.Awaits` — the tokens in front of an atom that is still to come;
* `Blamed` — the atom that a fault is about begins at the place of the fault, where the text in
  front awaits an atom;
* `Cursor.Reads` — the text between two places;
* `Reports` — what a computation says of the text from a place on, whether it succeeds or fails;
  one lemma for each reader (`reports_readToken`, …, `reports_runAtoms`), by the rule for sequences
  `Reports.bind`.

Principal result: `parse_error_place`.
-/

namespace PrimeLanguage

open Grammar

namespace Grammar

/-! ## An atom still to come -/

/-- What the constructor of an atom makes of its numbers.  A group has no numbers of its own. -/
def Atom.made? : Atom → Option (Except InvalidPrime Term)
  | .noun n => some (Term.nounOf n.value)
  | .adj n => some (Term.adjOf n.value)
  | .fuse p q r => some (Term.fuse p.value q.value r.value)
  | .sentence _ | .group _ | .join .. => none

theorem Atom.meaning_of_made? {a : Atom} {made : Except InvalidPrime Term}
    (h : a.made? = some made) : a.depth = 0 ∧ a.meaning = made.toOption := by
  cases a <;> cases h <;> exact ⟨rfl, rfl⟩

/-- Tokens in front of an atom that is still to come, inside `n` open groups.  Every atom in front
of it, and every term in front of a connective, has a meaning. -/
inductive Awaits : Nat → List (List Char) → Prop where
  | start : Awaits 0 []
  | atom {n : Nat} {k : List (List Char)} {a : Atom} (h : Awaits n k)
    (ha : a.meaning.isSome = true) : Awaits n (k ++ a.tokens)
  | square {n : Nat} {k : List (List Char)} (h : Awaits n k) : Awaits (n + 1) (k ++ [['[']])
  | round {n : Nat} {k : List (List Char)} (h : Awaits n k) : Awaits (n + 1) (k ++ [['(']])
  | join {n : Nat} {k : List (List Char)} {e : Phrase} (h : Awaits n k)
    (he : e.parts.isSome = true) (o : Connective) :
    Awaits (n + 1) (k ++ ['('] :: (e.tokens ++ [token o]))

variable {k l : List (List Char)} {text rest : List Char} {n m : Nat}

theorem Awaits.append (h : Awaits n k) (h' : Awaits m l) : Awaits (n + m) (k ++ l) := by
  induction h' with
  | start =>
    rw [List.append_nil]
    exact h
  | atom _ ha ih =>
    rw [← List.append_assoc]
    exact ih.atom ha
  | square _ ih =>
    rw [← List.append_assoc]
    exact ih.square
  | round _ ih =>
    rw [← List.append_assoc]
    exact ih.round
  | join _ he o ih =>
    rw [← List.append_assoc]
    exact ih.join he o

theorem Spaced.of_blanks {blanks : List Char} (hblanks : ∀ c ∈ blanks, isBlank c = true)
    (h : Spaced k text) : Spaced k (blanks ++ text) := by
  cases h with
  | nil h => exact .nil (List.forall_mem_append.2 ⟨hblanks, h⟩)
  | cons h rest =>
    rw [← List.append_assoc]
    exact .cons (List.forall_mem_append.2 ⟨hblanks, h⟩) rest

/-- Texts in a row spell tokens in a row. -/
theorem Spaced.append (h : Spaced k text) (h' : Spaced l rest) :
    Spaced (k ++ l) (text ++ rest) := by
  induction h with
  | nil hblanks => exact h'.of_blanks hblanks
  | cons hblanks _ ih =>
    rw [List.append_assoc, List.append_assoc]
    exact .cons hblanks ih

/-- A token spells itself. -/
theorem spaced_token (cs : List Char) : Spaced [cs] cs := by
  have h : Spaced [cs] ([] ++ (cs ++ [])) := .cons nofun (.nil nofun)
  rwa [List.nil_append, List.append_nil] at h

end Grammar

/-! ## What a fault says of its place -/

/-- The text begins with an atom whose numbers its constructor refuses. -/
def RefusedAtom (e : InvalidPrime) (text : List Char) : Prop :=
  ∃ (a : Atom) (front rest : List Char), text = front ++ rest ∧ Spaced a.tokens front ∧
    text.head? = some a.initial ∧ a.made? = some (.error e)

/-- The text begins with a bracket that opens a group. -/
def BeginsGroup (text : List Char) : Prop := ∃ x ∈ ['[', '('], text.head? = some x

/-- Something is missing, or a number is no word. -/
def ParseFault.IsSpelling : ParseFault → Prop
  | .expectedTerm | .expectedToken _ | .expectedInteger | .outOfRange _ => True
  | .tooDeep | .trailing | .invalid _ => False

/-- Where groups may nest `n` deep, the fault is about an atom that begins behind the text, which
awaits one: an atom whose numbers are refused, or a group that is one too many. -/
def Blamed (n : Nat) : ParseFault → List Char → List Char → Prop
  | .invalid e, text, rest =>
    ∃ m k, m ≤ n ∧ Awaits m k ∧ Spaced k text ∧ RefusedAtom e rest
  | .tooDeep, text, rest => ∃ k, Awaits n k ∧ Spaced k text ∧ BeginsGroup rest
  | fault, _, _ => fault.IsSpelling

section Blamed

variable {n m : Nat} {k : List (List Char)} {fault : ParseFault} {read text rest : List Char}

theorem ParseFault.IsSpelling.blamed (h : fault.IsSpelling) : Blamed n fault text rest := by
  cases fault with
  | tooDeep | invalid => exact h.elim
  | expectedTerm | expectedToken | expectedInteger | outOfRange | trailing => exact h

/-- Behind more text, which awaits an atom inside `m` groups, groups may nest `m` deeper. -/
theorem Blamed.behind (hk : Awaits m k) (hread : Spaced k read) (h : Blamed n fault text rest) :
    Blamed (n + m) fault (read ++ text) rest := by
  cases fault with
  | invalid e =>
    obtain ⟨i, l, hi, hl, hspaced, hrefused⟩ := h
    have hle : m + i ≤ n + m := by omega
    exact ⟨m + i, k ++ l, hle, hk.append hl, hread.append hspaced, hrefused⟩
  | tooDeep =>
    obtain ⟨l, hl, hspaced, hopens⟩ := h
    refine ⟨k ++ l, ?_, hread.append hspaced, hopens⟩
    rw [Nat.add_comm]
    exact hk.append hl
  | expectedTerm | expectedToken | expectedInteger | outOfRange | trailing => exact h

end Blamed

/-! ## The text between two places -/

/-- The text from a place to one further on.  Its characters take one byte each. -/
structure Cursor.Reads (c d : Cursor) (text : List Char) : Prop where
  rest_eq : c.rest = text ++ d.rest
  position_eq : d.position = c.position + text.length
  utf8Size : ∀ x ∈ text, x.utf8Size = 1

theorem utf8Size_of_isBlank {x : Char} (h : isBlank x = true) : x.utf8Size = 1 := by
  simp only [isBlank, Bool.or_eq_true, beq_iff_eq] at h
  rcases h with (((rfl | rfl) | rfl) | rfl) | rfl <;> rfl

theorem utf8Size_of_isDigit {x : Char} (h : x.isDigit = true) : x.utf8Size = 1 :=
  utf8Size_of_isAlphanum (by rw [Char.isAlphanum, h, Bool.or_true])

namespace Cursor

variable {c d e : Cursor} {text text' rest : List Char}

theorem Reads.refl (c : Cursor) : c.Reads c [] := ⟨rfl, rfl, nofun⟩

theorem Reads.trans (h : c.Reads d text) (h' : d.Reads e text') : c.Reads e (text ++ text') where
  rest_eq := by rw [h.rest_eq, h'.rest_eq, List.append_assoc]
  position_eq := by rw [h'.position_eq, h.position_eq, List.length_append, Nat.add_assoc]
  utf8Size := List.forall_mem_append.2 ⟨h.utf8Size, h'.utf8Size⟩

theorem reads_skip {p : Char → Bool} (hp : ∀ x, p x = true → x.utf8Size = 1) (c : Cursor) :
    c.Reads (c.skip p) (c.rest.takeWhile p) where
  rest_eq := List.takeWhile_append_dropWhile.symm
  position_eq := rfl
  utf8Size := fun x hx => hp x (List.mem_takeWhile_imp hx)

theorem reads_advance (cs : List Char) (hrest : c.rest = cs ++ rest)
    (hcs : ∀ x ∈ cs, x.utf8Size = 1) : c.Reads (c.advance cs.length) cs where
  rest_eq := by simp [advance, hrest]
  position_eq := rfl
  utf8Size := hcs

theorem reads_skipBlanks (c : Cursor) :
    ∃ blanks, c.Reads c.skipBlanks blanks ∧ Spaced [] blanks :=
  ⟨_, reads_skip (fun _ => utf8Size_of_isBlank) c, .nil fun _ hx => List.mem_takeWhile_imp hx⟩

/-- A token is read together with the blanks in front of it. -/
theorem reads_token (cs : List Char) (hrest : c.skipBlanks.rest = cs ++ rest)
    (hcs : ∀ x ∈ cs, x.utf8Size = 1) :
    ∃ read, c.Reads (c.skipBlanks.advance cs.length) read ∧ Spaced [cs] read := by
  obtain ⟨blanks, hblanks, hspaced⟩ := c.reads_skipBlanks
  exact ⟨blanks ++ cs, hblanks.trans (reads_advance cs hrest hcs),
    hspaced.append (spaced_token cs)⟩

end Cursor

/-! ## What a computation says of a text -/

section Reports

variable {α β : Type} {c d : Cursor} {x : Except ParseError (α × Cursor)}
  {f : α × Cursor → Except ParseError (β × Cursor)} {fault : ParseFault} {text : List Char}
  {Good Good' : α → List Char → Prop} {Good'' : β → List Char → Prop}
  {Bad Bad' : ParseFault → List Char → List Char → Prop}

/-- From `c` on, the computation succeeds behind a text that is good for its value, or fails behind
a text that is bad, for its fault, in front of what follows. -/
def Reports (c : Cursor) (x : Except ParseError (α × Cursor)) (Good : α → List Char → Prop)
    (Bad : ParseFault → List Char → List Char → Prop) : Prop :=
  match x with
  | .ok (a, d) => ∃ text, c.Reads d text ∧ Good a text
  | .error err => ∃ text d, c.Reads d text ∧ err.position = d.position ∧ Bad err.fault text d.rest

theorem reports_fail (hread : c.Reads d text) (h : Bad fault text d.rest) :
    Reports c (d.fail fault) Good Bad :=
  ⟨text, d, hread, rfl, h⟩

theorem Reports.weaken (h : Reports c x Good Bad) (hgood : ∀ a text, Good a text → Good' a text)
    (hbad : ∀ fault text rest, Bad fault text rest → Bad' fault text rest) :
    Reports c x Good' Bad' := by
  cases x with
  | error err =>
    obtain ⟨text, d, hread, hposition, h⟩ := h
    exact ⟨text, d, hread, hposition, hbad _ _ _ h⟩
  | ok p =>
    obtain ⟨text, hread, h⟩ := h
    exact ⟨text, hread, hgood _ _ h⟩

theorem Reports.weaken_good (h : Reports c x Good Bad)
    (hgood : ∀ a text, Good a text → Good' a text) : Reports c x Good' Bad :=
  h.weaken hgood fun _ _ _ h => h

theorem Reports.weaken_bad (h : Reports c x Good Bad)
    (hbad : ∀ fault text rest, Bad fault text rest → Bad' fault text rest) :
    Reports c x Good Bad' :=
  h.weaken (fun _ _ h => h) hbad

/-- What is said from a place further on is said of the text from there on. -/
theorem Reports.behind (hread : c.Reads d text)
    (h : Reports d x (fun a text' => Good a (text ++ text'))
      fun fault text' => Bad fault (text ++ text')) : Reports c x Good Bad := by
  cases x with
  | error err =>
    obtain ⟨text', e, hread', hposition, hbad⟩ := h
    exact ⟨_, e, hread.trans hread', hposition, hbad⟩
  | ok p =>
    obtain ⟨text', hread', hgood⟩ := h
    exact ⟨_, hread.trans hread', hgood⟩

/-- In a sequence, what follows a success may still speak of the text from the beginning on. -/
theorem Reports.bind_from (hx : Reports c x Good Bad)
    (hf : ∀ a d text, x = .ok (a, d) → c.Reads d text → Good a text →
      Reports c (f (a, d)) Good'' Bad) : Reports c (x >>= f) Good'' Bad := by
  cases x with
  | error err => exact hx
  | ok p =>
    obtain ⟨text, hread, hgood⟩ := hx
    exact hf p.1 p.2 text rfl hread hgood

theorem Reports.bind (hx : Reports c x Good Bad)
    (hf : ∀ a d text, x = .ok (a, d) → Good a text →
      Reports d (f (a, d)) (fun b text' => Good'' b (text ++ text'))
        fun fault text' => Bad fault (text ++ text')) : Reports c (x >>= f) Good'' Bad :=
  hx.bind_from fun a d text heq hread hgood => (hf a d text heq hgood).behind hread

end Reports

/-! ## Tokens, numbers and arguments -/

section Readers

variable {c : Cursor} {x : Char}

theorem reports_readToken (hx : x.utf8Size = 1) :
    Reports c ((readToken x).run c) (fun _ => Spaced [[x]]) fun fault _ _ => fault.IsSpelling := by
  rw [run_readToken]
  split
  · rename_i hhead
    obtain ⟨rest, hrest⟩ := List.head?_eq_some_iff.1 hhead
    exact Cursor.reads_token [x] hrest (List.forall_mem_singleton.2 hx)
  · obtain ⟨blanks, hread, _⟩ := c.reads_skipBlanks
    exact reports_fail hread trivial

theorem reports_readInteger :
    Reports c (readInteger.run c)
      (fun v text => ∃ n : Numeral, n.value = v ∧ Spaced [n.digits] text)
      fun fault _ _ => fault.IsSpelling := by
  obtain ⟨blanks, hblanks, hspaced⟩ := c.reads_skipBlanks
  rw [run_readInteger]
  split
  · exact reports_fail hblanks trivial
  · rename_i hne
    split
    · exact reports_fail hblanks trivial
    · rename_i v hv
      have hdigits : ∀ y ∈ c.skipBlanks.rest.takeWhile Char.isDigit, y.isDigit = true :=
        fun y hy => List.mem_takeWhile_imp hy
      obtain ⟨hvalue, hlt⟩ := (readDigits_eq_ok_iff hdigits (by decide)).1 hv
      exact ⟨_, hblanks.trans (Cursor.reads_skip (fun _ => utf8Size_of_isDigit) c.skipBlanks),
        ⟨_, hne, hdigits, hlt⟩, hvalue, hspaced.append (spaced_token _)⟩

theorem reports_readArgument :
    Reports c (readArgument.run c)
      (fun v text => ∃ n : Numeral, n.value = v ∧ Spaced [['('], n.digits, [')']] text)
      fun fault _ _ => fault.IsSpelling := by
  rw [run_readArgument]
  refine (reports_readToken rfl).bind fun _ d opened _ hopened => ?_
  refine reports_readInteger.bind fun v d number _ ⟨n, hv, hn⟩ => ?_
  refine (reports_readToken rfl).bind fun _ d closed _ hclosed => ?_
  exact ⟨[], .refl d, n, hv, hopened.append (hn.append (hclosed.append (.nil nofun)))⟩

theorem reports_readTriple :
    Reports c (readTriple.run c)
      (fun v text => ∃ p q r : Numeral, (p.value, q.value, r.value) = v ∧
        Spaced [['('], p.digits, [','], q.digits, [','], r.digits, [')']] text)
      fun fault _ _ => fault.IsSpelling := by
  rw [run_readTriple]
  refine (reports_readToken rfl).bind fun _ d opened _ hopened => ?_
  refine reports_readInteger.bind fun _ d first _ ⟨p, hp, hfirst⟩ => ?_
  refine (reports_readToken rfl).bind fun _ d comma _ hcomma => ?_
  refine reports_readInteger.bind fun _ d second _ ⟨q, hq, hsecond⟩ => ?_
  refine (reports_readToken rfl).bind fun _ d comma' _ hcomma' => ?_
  refine reports_readInteger.bind fun _ d third _ ⟨r, hr, hthird⟩ => ?_
  refine (reports_readToken rfl).bind fun _ d closed _ hclosed => ?_
  refine ⟨[], .refl d, p, q, r, by rw [hp, hq, hr], ?_⟩
  exact hopened.append (hfirst.append (hcomma.append (hsecond.append (hcomma'.append
    (hthird.append (hclosed.append (.nil nofun)))))))

end Readers

/-! ## Atoms and terms -/

/-- The reader reads atoms whose groups nest at most `n` deep, and blames atoms. -/
def ReportsAtom (reader : Reader Term) (n : Nat) : Prop :=
  ∀ c, Reports c (reader.run c) (fun t => AtomAt n (· = t) []) (Blamed n)

/-- The reader reads terms whose groups nest at most `n` deep, and blames their atoms. -/
def ReportsPhrase (reader : Reader Term) (n : Nat) : Prop :=
  ∀ c, Reports c (reader.run c) (fun t => PhraseAt n (fun os u => written os u = t) []) (Blamed n)

section Atoms

variable {α β : Type} {n : Nat} {c start : Cursor} {x : Char} {cs rest read : List Char}
  {atom inner : Reader Term}

/-- Nothing changes if blanks are skipped first. -/
theorem Reports.of_skipBlanks {y : Except ParseError (Term × Cursor)}
    (h : Reports c.skipBlanks y (fun t => AtomAt n (· = t) []) (Blamed n)) :
    Reports c y (fun t => AtomAt n (· = t) []) (Blamed n) := by
  obtain ⟨blanks, hread, hblanks⟩ := c.reads_skipBlanks
  refine .behind hread (h.weaken ?_ fun _ _ _ hblamed => hblamed.behind .start hblanks)
  rintro t text ⟨a, u, ha, hu, heq, hspaced⟩
  exact ⟨a, u, ha, hu, heq, hblanks.append hspaced⟩

/-- A constructor that refuses its numbers is blamed at the beginning of its atom. -/
theorem reports_built (cs : List Char) {args : Except ParseError (α × Cursor)}
    (make : α → Except InvalidPrime Term) (hstart : start.rest = x :: (cs ++ rest))
    (hcs : ∀ y ∈ x :: cs, y.utf8Size = 1)
    (hargs : Reports (start.advance (cs.length + 1)) args
      (fun v text => ∃ a : Atom, a.made? = some (make v) ∧ a.initial = x ∧
        Spaced a.tokens ((x :: cs) ++ text))
      fun fault _ _ => fault.IsSpelling) :
    Reports start (args >>= fun p => start.built p.2 (make p.1))
      (fun t => AtomAt n (· = t) []) (Blamed n) := by
  have hname : start.Reads (start.advance (cs.length + 1)) (x :: cs) :=
    Cursor.reads_advance (x :: cs) hstart hcs
  have hcall : Reports start args
      (fun v text => ∃ a : Atom, a.made? = some (make v) ∧ a.initial = x ∧ Spaced a.tokens text)
      fun fault _ _ => fault.IsSpelling := .behind hname hargs
  refine (hcall.weaken_bad fun _ _ _ => ParseFault.IsSpelling.blamed).bind_from ?_
  rintro v d text - hread ⟨a, hmade, hinitial, hspaced⟩
  obtain ⟨hdepth, hmeaning⟩ := Atom.meaning_of_made? hmade
  dsimp only
  unfold Cursor.built
  cases hv : make v with
  | error e =>
    rw [hv] at hmade
    have hrefused : RefusedAtom e start.rest :=
      ⟨a, text, d.rest, hread.rest_eq, hspaced, by rw [hstart, hinitial]; rfl, hmade⟩
    exact reports_fail (.refl start) ⟨0, [], Nat.zero_le n, .start, .nil nofun, hrefused⟩
  | ok t =>
    rw [hv] at hmeaning
    rw [← List.append_nil a.tokens] at hspaced
    exact ⟨text, hread, a, t, by omega, hmeaning, rfl, hspaced⟩

/-- An atom and what goes on with a term, or stops, is a term. -/
theorem Reports.bind_phrase {y : Except ParseError (Term × Cursor)}
    {f : Term × Cursor → Except ParseError (β × Cursor)} {R : β → List Term → Term → Prop}
    (hy : Reports c y (fun t => AtomAt n (· = t) []) (Blamed n))
    (hf : ∀ t d, y = .ok (t, d) → Reports d (f (t, d))
      (fun b text => R b [] t ∧ Spaced [] text ∨ PhraseAt n (fun os u => R b (t :: os) u) [] text)
      (Blamed n)) :
    Reports c (y >>= f) (fun b => PhraseAt n (R b) []) (Blamed n) := by
  refine hy.bind ?_
  rintro _ d read heq ⟨a, t, ha, ht, rfl, hread⟩
  rw [List.append_nil] at hread
  refine (hf t d heq).weaken ?_ ?_
  · rintro b text (⟨hr, hblanks⟩ | ⟨e, os, u, he, hparts, hr, htext⟩)
    · exact phraseAt_iff.2 (.inl ⟨a, t, ha, ht, hr, hread.append hblanks⟩)
    · exact phraseAt_iff.2 (.inr ⟨e, os, u, he, hparts, a, t, ha, ht, hr, hread.append htext⟩)
  · intro fault text rest hblamed
    have hawaits : Awaits 0 a.tokens := Awaits.start.atom (by rw [ht]; rfl)
    exact hblamed.behind hawaits hread

theorem reports_runAtoms (hatom : ReportsAtom atom n) (before : List Term) (last : Term)
    (c : Cursor) :
    Reports c (runAtoms atom before last c)
      (fun t text => t = .ofOperators before last ∧ Spaced [] text ∨
        PhraseAt n (fun os u => t = .ofOperators (os.reverse ++ last :: before) u) [] text)
      (Blamed n) := by
  -- by induction on the text that is left: every atom takes some of it
  induction hlength : c.remaining using Nat.strong_induction_on generalizing before last c with
  | _ length ih =>
    subst hlength
    rw [runAtoms_eq]
    split
    · refine Reports.weaken_good ((hatom c.skipBlanks).of_skipBlanks.bind_phrase fun t d hrun => ?_)
        fun _ _ => .inr
      have hrest : d.remaining < c.remaining :=
        Nat.lt_of_lt_of_le (Reader.remaining_of_run hrun) c.remaining_skipBlanks
      simpa using ih d.remaining hrest (last :: before) t d rfl
    · obtain ⟨blanks, hread, hblanks⟩ := c.reads_skipBlanks
      exact ⟨blanks, hread, .inl ⟨rfl, hblanks⟩⟩

theorem ReportsAtom.readTerm (hatom : ReportsAtom atom n) : ReportsPhrase (readTerm atom) n := by
  intro c
  rw [run_readTerm]
  refine (hatom c).bind_phrase fun t d _ => ?_
  refine (reports_runAtoms hatom [] t d).weaken_good ?_
  rintro u text (⟨rfl, hblanks⟩ | ⟨e, os, v, he, hparts, rfl, htext⟩)
  · exact .inl ⟨rfl, hblanks⟩
  · have hterm : written (t :: os) v = .ofOperators (os.reverse ++ [t]) v := by
      rw [written, List.reverse_cons]
    exact .inr ⟨e, os, v, he, hparts, hterm, htext⟩

/-! ## Groups -/

theorem connectiveAt?_eq_some {text : List Char} {o : Connective} {m : Nat}
    (h : connectiveAt? text = some (o, m)) :
    m = (token o).length ∧ ∃ rest, text = token o ++ rest := by
  unfold connectiveAt? at h
  split at h
  · cases h
    exact ⟨rfl, _, rfl⟩
  · cases h
    exact ⟨rfl, _, rfl⟩
  · cases h

theorem utf8Size_token (o : Connective) : ∀ x ∈ token o, x.utf8Size = 1 := by
  cases o <;> simp [token, Char.utf8Size_eq_one_iff]

/-- The text spells an atom, with the given meaning, but for its closing bracket. -/
def OpenAt (n : Nat) (close : Char) (t : Term) (text : List Char) : Prop :=
  ∃ (a : Atom) (k : List (List Char)), a.depth ≤ n ∧ a.meaning = some t ∧
    a.tokens = k ++ [[close]] ∧ Spaced k text

/-- What stands behind an opening bracket is blamed one group further out. -/
theorem ReportsPhrase.opened (hinner : ReportsPhrase inner n) (hx : x.utf8Size = 1)
    (hawaits : Awaits 1 [[x]]) (hstart : start.rest = x :: rest) :
    Reports start (inner.run (start.advance 1))
      (fun t text => ∃ (e : Phrase) (os : List Term) (u : Term), e.depth ≤ n ∧
        e.parts = some (os, u) ∧ written os u = t ∧ Spaced ([x] :: e.tokens) text)
      (Blamed (n + 1)) := by
  have hopen : start.Reads (start.advance 1) [x] :=
    Cursor.reads_advance [x] hstart (List.forall_mem_singleton.2 hx)
  refine .behind hopen ((hinner _).weaken ?_ fun _ _ _ h => h.behind hawaits (spaced_token [x]))
  rintro t text ⟨e, os, u, he, hparts, heq, htext⟩
  rw [List.append_nil] at htext
  exact ⟨e, os, u, he, hparts, heq, (spaced_token [x]).append htext⟩

/-- A closing bracket completes an atom. -/
theorem Reports.closed (f : Term → Term) {y : Except ParseError (Term × Cursor)}
    (hx : x.utf8Size = 1) (hy : Reports c y (fun t => OpenAt n x (f t)) (Blamed n)) :
    Reports c
      (do
        let p ← y
        let q ← (readToken x).run p.2
        return (f p.1, q.2))
      (fun t => AtomAt n (· = t) []) (Blamed n) := by
  refine hy.bind ?_
  rintro t d text - ⟨a, k, hdepth, hmeaning, htokens, htext⟩
  refine .bind ((reports_readToken hx).weaken_bad fun _ _ _ h => h.blamed) ?_
  intro _ d close _ hclose
  refine ⟨[], .refl d, a, f t, hdepth, hmeaning, rfl, ?_⟩
  rw [List.append_nil, List.append_nil, htokens]
  exact htext.append hclose

/-- Behind a round bracket and a term, the atom is complete but for the closing bracket, or a
connective and another term make it so. -/
theorem reports_runJoin (hinner : ReportsPhrase inner n) {e : Phrase} {os : List Term} {u : Term}
    (he : e.depth ≤ n) (hparts : e.parts = some (os, u)) (hread : Spaced (['('] :: e.tokens) read)
    (c : Cursor) :
    Reports c (runJoin inner (written os u) c)
      (fun t text => OpenAt (n + 1) ')' t (read ++ text))
      fun fault text => Blamed (n + 1) fault (read ++ text) := by
  unfold runJoin
  split
  · refine ⟨[], .refl c, .group e, ['('] :: e.tokens, Nat.succ_le_succ he, ?_, rfl, ?_⟩
    · rw [Atom.meaning, hparts]
      rfl
    · rwa [List.append_nil]
  · rename_i o m hat
    obtain ⟨rfl, rest, hrest⟩ := connectiveAt?_eq_some hat
    obtain ⟨between, hbetween, htoken⟩ := Cursor.reads_token _ hrest (utf8Size_token o)
    have hjoin : Spaced (['('] :: (e.tokens ++ [token o])) (read ++ between) :=
      hread.append htoken
    have hawaits : Awaits 1 (['('] :: (e.tokens ++ [token o])) :=
      Awaits.start.join (by rw [hparts]; rfl) o
    refine .behind hbetween (.bind ((hinner _).weaken_bad ?_) ?_)
    · intro fault text rest hblamed
      rw [← List.append_assoc]
      exact hblamed.behind hawaits hjoin
    · rintro _ d text - ⟨r, os', u', hr, hparts', rfl, htext⟩
      refine ⟨[], .refl d, .join o e r, ['('] :: (e.tokens ++ token o :: r.tokens),
        Nat.succ_le_succ (Nat.max_le.2 ⟨he, hr⟩), ?_, ?_, ?_⟩
      · rw [Atom.meaning, hparts, hparts']
        rfl
      · simp [Atom.tokens]
      · rw [List.append_nil] at htext ⊢
        exact hread.append (htoken.append htext)

/-- What may read inside the groups of atoms that nest at most so deep: nothing at depth 0. -/
def ReportsInner : Option (Reader Term) → Nat → Prop
  | none, n => n = 0
  | some inner, n => ∃ m, n = m + 1 ∧ ReportsPhrase inner m

theorem ReportsInner.readAtom {inner : Option (Reader Term)} (hinner : ReportsInner inner n) :
    ReportsAtom (readAtom inner) n := by
  intro c
  rw [run_readAtom]
  refine .of_skipBlanks ?_
  generalize c.skipBlanks = start
  dsimp only
  split
  · rename_i rest hrest
    refine reports_built ['U', 'S', 'E'] (fun v : Nat × Nat × Nat => Term.fuse v.1 v.2.1 v.2.2)
      hrest (by simp [Char.utf8Size_eq_one_iff]) ?_
    refine reports_readTriple.weaken_good ?_
    rintro v text ⟨p, q, r, rfl, htext⟩
    exact ⟨.fuse p q r, rfl, rfl, (spaced_token ['F', 'U', 'S', 'E']).append htext⟩
  · rename_i rest hrest
    refine reports_built [] Term.nounOf hrest (List.forall_mem_singleton.2 rfl) ?_
    refine reports_readArgument.weaken_good ?_
    rintro v text ⟨n, rfl, htext⟩
    exact ⟨.noun n, rfl, rfl, (spaced_token ['N']).append htext⟩
  · rename_i rest hrest
    refine reports_built [] Term.adjOf hrest (List.forall_mem_singleton.2 rfl) ?_
    refine reports_readArgument.weaken_good ?_
    rintro v text ⟨n, rfl, htext⟩
    exact ⟨.adj n, rfl, rfl, (spaced_token ['A']).append htext⟩
  · rename_i rest hrest
    cases inner with
    | none =>
      subst hinner
      exact reports_fail (.refl start) ⟨[], .start, .nil nofun, '[', by simp, by rw [hrest]; rfl⟩
    | some inner =>
      obtain ⟨m, rfl, hinner⟩ := hinner
      have hopened := hinner.opened rfl Awaits.start.square hrest
      refine Reports.closed .sentence rfl (hopened.weaken_good ?_)
      rintro t text ⟨e, os, u, he, hparts, rfl, htext⟩
      refine ⟨.sentence e, ['['] :: e.tokens, Nat.succ_le_succ he, ?_, rfl, htext⟩
      rw [Atom.meaning, hparts]
      rfl
  · rename_i rest hrest
    cases inner with
    | none =>
      subst hinner
      exact reports_fail (.refl start) ⟨[], .start, .nil nofun, '(', by simp, by rw [hrest]; rfl⟩
    | some inner =>
      obtain ⟨m, rfl, hinner⟩ := hinner
      dsimp only
      rw [← bind_assoc]
      have hopened := hinner.opened rfl Awaits.start.round hrest
      refine Reports.closed id rfl (hopened.bind ?_)
      rintro _ d text - ⟨e, os, u, he, hparts, rfl, htext⟩
      exact reports_runJoin hinner he hparts htext d
  · exact reports_fail (.refl start) trivial

theorem reportsAtom_atomReader (n : Nat) : ReportsAtom (atomReader n) n := by
  induction n with
  | zero => exact (show ReportsInner none 0 from rfl).readAtom
  | succ n ih => exact (show ReportsInner (some _) (n + 1) from ⟨n, rfl, ih.readTerm⟩).readAtom

end Atoms

/-! ## Whole texts -/

/-- A text is refused behind characters of one byte each.  Either those are a term and more text
follows, or an atom is blamed, or something is missing. -/
theorem Term.parseChars_eq_error {text : List Char} {err : ParseError}
    (h : Term.parseChars text = .error err) :
    ∃ before after, text = before ++ after ∧ (∀ x ∈ before, x.utf8Size = 1) ∧
      err.position = before.length ∧
      (err.fault = .trailing ∧ after ≠ [] ∧ (∃ t, Term.parseChars before = .ok t) ∨
        Blamed maxNesting err.fault before after) := by
  have hread := (reportsAtom_atomReader maxNesting).readTerm ⟨0, text⟩
  rw [Term.parseChars_eq, bind_eq_error_iff] at h
  rcases h with herror | ⟨⟨t, d⟩, hok, htrailing⟩
  · rw [herror] at hread
    obtain ⟨before, d, hread, hposition, hblamed⟩ := hread
    refine ⟨before, d.rest, hread.rest_eq, hread.utf8Size, ?_, .inr hblamed⟩
    rw [hposition, hread.position_eq, Nat.zero_add]
  · rw [hok] at hread
    obtain ⟨read, hread, e, os, u, he, hparts, hu, hspaced⟩ := hread
    obtain ⟨blanks, hblanks, hend⟩ := d.reads_skipBlanks
    dsimp only at htrailing
    by_cases hrest : d.skipBlanks.rest = []
    · rw [if_pos hrest] at htrailing
      cases htrailing
    · rw [if_neg hrest] at htrailing
      cases htrailing
      have hbefore := hread.trans hblanks
      have hmeaning : e.meaning = some t := by
        rw [Phrase.meaning, hparts, ← hu]
        rfl
      have hparse : Term.parseChars (read ++ blanks) = .ok t := by
        rw [List.append_nil] at hspaced
        refine Term.parseChars_eq_ok_iff.2 ⟨e, ?_, he, hmeaning⟩
        rw [← List.append_nil e.tokens]
        exact hspaced.append hend
      refine ⟨_, _, hbefore.rest_eq, hbefore.utf8Size, ?_, .inl ⟨rfl, hrest, t, hparse⟩⟩
      rw [hbefore.position_eq, Nat.zero_add]

/-- The bytes of a text. -/
def bytes (s : String) : List UInt8 := s.toUTF8.data.toList

theorem bytes_append (s t : String) : bytes (s ++ t) = bytes s ++ bytes t := by
  simp [bytes]

theorem length_bytes (s : String) : (bytes s).length = s.utf8ByteSize := by
  simp [bytes]

theorem bytes_lt {text : List Char} (h : ∀ x ∈ text, x.utf8Size = 1) :
    ∀ b ∈ bytes (String.ofList text), b < 128 := by
  induction text with
  | nil => nofun
  | cons x text ih =>
    obtain ⟨hx, htext⟩ := List.forall_mem_cons.1 h
    rw [String.ofList_cons, bytes_append]
    refine List.forall_mem_append.2 ⟨?_, ih htext⟩
    have hbytes : bytes (String.singleton x) = [x.val.toUInt8] := by
      simp [bytes, List.utf8Encode_singleton, String.utf8EncodeChar_eq_singleton hx]
    have hle : x.val.toNat ≤ 127 := UInt32.le_iff_toNat_le.1 (Char.utf8Size_eq_one_iff.1 hx)
    rw [hbytes, List.forall_mem_singleton, UInt8.lt_iff_toNat_lt, UInt32.toNat_toUInt8]
    exact Nat.lt_of_le_of_lt (Nat.mod_le ..) (Nat.lt_succ_of_le hle)

/-- **Parse errors point at a real place.**  A text that is no term is refused with a fault and a
place; the refusal of a constructor is such a fault, too.  The place is a byte offset into the text,
at most its length, with only ASCII bytes in front of it, so that it is the boundary of a character.
If the fault is that more text follows, some does, and the text in front of the place is a term on
its own.  If a constructor refuses its numbers, its atom begins at the place, and if groups nest too
deep, the group that is one too many does; in both cases the text in front awaits an atom there. -/
theorem parse_error_place {s : String} {err : ParseError} (h : Term.parse s = .error err) :
    err.position ≤ s.utf8ByteSize ∧
    (∀ b ∈ (bytes s).take err.position, b < 128) ∧
    (String.Pos.Raw.mk err.position).IsValid s ∧
    ∃ before after : String, s = before ++ after ∧ before.utf8ByteSize = err.position ∧
      (err.fault = .trailing → err.position < s.utf8ByteSize ∧ ∃ t, Term.parse before = .ok t) ∧
      (∀ e, err.fault = .invalid e → ∃ n k, n ≤ maxNesting ∧ Awaits n k ∧
        Spaced k before.toList ∧ RefusedAtom e after.toList) ∧
      (err.fault = .tooDeep → ∃ k, Awaits maxNesting k ∧ Spaced k before.toList ∧
        BeginsGroup after.toList) := by
  obtain ⟨before, after, htext, hascii, hposition, hfault⟩ := Term.parseChars_eq_error h
  have hs : s = String.ofList before ++ String.ofList after := by
    rw [← String.ofList_append, ← htext, String.ofList_toList]
  have hsize : (String.ofList before).utf8ByteSize = err.position := by
    rw [utf8ByteSize_ofList hascii, hposition]
  have hlength : s.utf8ByteSize = err.position + (String.ofList after).utf8ByteSize := by
    rw [hs, String.utf8ByteSize_append, hsize]
  refine ⟨by omega, ?_, ?_, String.ofList before, String.ofList after, hs, hsize, ?_, ?_, ?_⟩
  · have htake : (bytes s).take err.position = bytes (String.ofList before) := by
      rw [hs, bytes_append, ← hsize, ← length_bytes, List.take_left]
    rw [htake]
    exact bytes_lt hascii
  · rw [hs, ← hsize]
    exact String.Pos.Raw.isValid_rawEndPos.append_right _
  · intro htrailing
    rcases hfault with ⟨_, hne, t, ht⟩ | hblamed
    · obtain ⟨x, rest, rfl⟩ := List.exists_cons_of_ne_nil hne
      have hpos : 0 < (String.ofList (x :: rest)).utf8ByteSize := by
        rw [String.ofList_cons, String.utf8ByteSize_append, String.utf8ByteSize_singleton]
        exact Nat.add_pos_left x.utf8Size_pos _
      refine ⟨by omega, t, ?_⟩
      rwa [Term.parse, String.toList_ofList]
    · rw [htrailing] at hblamed
      exact hblamed.elim
  · intro e he
    rw [he] at hfault
    rw [String.toList_ofList, String.toList_ofList]
    rcases hfault with ⟨htrailing, _⟩ | hblamed
    · cases htrailing
    · exact hblamed
  · intro hdeep
    rw [hdeep] at hfault
    rw [String.toList_ofList, String.toList_ofList]
    rcases hfault with ⟨htrailing, _⟩ | hblamed
    · cases htrailing
    · exact hblamed

/-- The second atom is refused, for its number. -/
theorem parse_error_place_second :
    let e : InvalidPrime := ⟨9, .notPrime⟩
    Term.parse "A(3) N(9)" = .error ⟨5, .invalid e⟩ ∧
    ∃ before after : String, "A(3) N(9)" = before ++ after ∧ before.utf8ByteSize = 5 ∧
      RefusedAtom e after.toList := by
  intro e
  have hparse : Term.parse "A(3) N(9)" = .error ⟨5, .invalid e⟩ := by
    have hfirst : (atomReader maxNesting).run ⟨0, "A(3) N(9)".toList⟩ =
        .ok (.adj .three, ⟨4, " N(9)".toList⟩) := rfl
    rw [Term.parse, Term.parseChars_eq, run_readTerm, hfirst]
    change runAtoms (atomReader maxNesting) [] _ _ >>= _ = _
    rw [runAtoms_eq]
    rfl
  obtain ⟨_, _, _, before, after, hs, hsize, _, hinvalid, _⟩ := parse_error_place hparse
  obtain ⟨_, _, _, _, _, hrefused⟩ := hinvalid e rfl
  exact ⟨hparse, before, after, hs, hsize, hrefused⟩

end PrimeLanguage
