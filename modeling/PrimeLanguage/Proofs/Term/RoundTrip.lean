import PrimeLanguage.Proofs.Term.Acceptance
import PrimeLanguage.Proofs.Term.Printing

/-!
# Reading back what was printed

A reader reads back the printed form of every term whose groups nest as deep as it goes, and refuses
that of every other term at the first group that is too deep.

* `Fits`, `FitsTerm` — a reader reads a text as a term, whatever follows it, or in front of what no
  atom begins with;
* `Refuses` — a reader refuses a text, whatever follows it, at the first group that is too deep;
* `runFrom` — reading the atoms of a term in a row.

`fits_atomText_text` and `refuses_atomText_text` go along the text of a term
(`Term.printed_induction`), one lemma for each kind of group and one for atoms in a row.

Principal result: `parse_signature`.
-/

namespace PrimeLanguage

open Grammar

/-! ## Calls -/

section Calls

variable {p : Nat} {x : Char} {text rest : List Char}

theorem run_readToken_cons (hx : isBlank x = false) :
    (readToken x).run ⟨p, x :: rest⟩ = .ok ((), ⟨p + 1, rest⟩) := by
  rw [run_readToken, Cursor.skipBlanks_of_head hx]
  exact if_pos rfl

theorem run_readInteger_digits (n : Prime) (hx : x.isDigit = false) :
    readInteger.run ⟨p, n.digits ++ x :: rest⟩ =
      .ok (n.val, ⟨p + n.digits.length, x :: rest⟩) := by
  have hdigits : ∀ c ∈ n.digits, c.isDigit = true := fun _ => Prime.isDigit_of_mem_digits
  have hne : n.digits ≠ [] := Nat.toDigits_ne_nil
  have hstart : (Cursor.mk p (n.digits ++ x :: rest)).skipBlanks =
      ⟨p, n.digits ++ x :: rest⟩ := by
    obtain ⟨c, cs, hcs⟩ := List.exists_cons_of_ne_nil hne
    have hblank := isBlank_eq_false_of_isDigit (hdigits c (by simp [hcs]))
    rw [hcs, List.cons_append, Cursor.skipBlanks_of_head hblank]
  obtain ⟨htake, hdrop⟩ := span_digits hdigits
    (show ∀ c ∈ (x :: rest).head?, c.isDigit = false by simpa using hx)
  have hvalue : Nat.ofDigitChars 10 n.digits 0 = n.val := Nat.ofDigitChars_ten_toDigits
  have hread : readDigits 0 n.digits = .ok n.val :=
    (readDigits_eq_ok_iff hdigits (by decide)).2 ⟨hvalue, hvalue ▸ n.lt_wordLimit⟩
  rw [run_readInteger, hstart]
  simp only [htake, if_neg hne, hread, Cursor.skip, hdrop]

theorem run_readArgument_digits (n : Prime) :
    readArgument.run ⟨p, '(' :: (n.digits ++ ')' :: rest)⟩ =
      .ok (n.val, ⟨p + 1 + n.digits.length + 1, rest⟩) := by
  simp only [run_readArgument, run_readToken_cons (x := '(') rfl, run_readToken_cons (x := ')') rfl,
    run_readInteger_digits n (x := ')') rfl, bind, Except.bind, pure, Except.pure]

theorem run_readTriple_digits (a b c : Prime) :
    readTriple.run ⟨p, '(' :: (a.digits ++ ',' :: (b.digits ++ ',' :: (c.digits ++ ')' :: rest)))⟩ =
      .ok ((a.val, b.val, c.val),
        ⟨p + 1 + a.digits.length + 1 + b.digits.length + 1 + c.digits.length + 1, rest⟩) := by
  simp only [run_readTriple, run_readToken_cons (x := '(') rfl, run_readToken_cons (x := ')') rfl,
    run_readToken_cons (x := ',') rfl, run_readInteger_digits _ (x := ')') rfl,
    run_readInteger_digits _ (x := ',') rfl, bind, Except.bind, pure, Except.pure]

end Calls

/-! ## Readers on texts -/

/-- The reader reads the text as the term, whatever follows. -/
def Fits (run : Cursor → Except ParseError (Term × Cursor)) (text : List Char) (t : Term) : Prop :=
  ∀ p rest, run ⟨p, text ++ rest⟩ = .ok (t, ⟨p + text.length, rest⟩)

/-- The reader reads the text as the term, and the blanks behind it, in front of what no atom begins
with. -/
def FitsTerm (run : Cursor → Except ParseError (Term × Cursor)) (text : List Char) (t : Term) :
    Prop :=
  ∀ p rest, (rest.dropWhile isBlank).head?.any startsAtom = false →
    run ⟨p, text ++ rest⟩ = .ok (t, (Cursor.mk (p + text.length) rest).skipBlanks)

/-- The reader refuses the text, whatever follows, at the first group with `n` open brackets around
it. -/
def Refuses (n : Nat) (run : Cursor → Except ParseError (Term × Cursor)) (text : List Char) :
    Prop :=
  ∃ before c after, text = before ++ c :: after ∧ Exceeds n before c ∧
    ∀ p rest, run ⟨p, text ++ rest⟩ = .error ⟨p + before.length, .tooDeep⟩

section Calls

variable {inner : Option (Reader Term)}

theorem run_noun (p : Nat) (text : List Char) :
    (readAtom inner).run ⟨p, 'N' :: text⟩ =
      readArgument.run ⟨p + 1, text⟩ >>= fun (n, d) =>
        (Cursor.mk p ('N' :: text)).built d (Term.nounOf n) := by
  rw [run_readAtom, Cursor.skipBlanks_of_head rfl]
  rfl

theorem run_adj (p : Nat) (text : List Char) :
    (readAtom inner).run ⟨p, 'A' :: text⟩ =
      readArgument.run ⟨p + 1, text⟩ >>= fun (n, d) =>
        (Cursor.mk p ('A' :: text)).built d (Term.adjOf n) := by
  rw [run_readAtom, Cursor.skipBlanks_of_head rfl]
  rfl

theorem run_fuse (p : Nat) (text : List Char) :
    (readAtom inner).run ⟨p, 'F' :: 'U' :: 'S' :: 'E' :: text⟩ =
      readTriple.run ⟨p + 4, text⟩ >>= fun (n, d) =>
        (Cursor.mk p ('F' :: 'U' :: 'S' :: 'E' :: text)).built d (Term.fuse n.1 n.2.1 n.2.2) := by
  rw [run_readAtom, Cursor.skipBlanks_of_head rfl]
  rfl

/-- A name in front of a prime is read as what is made of the prime. -/
theorem fits_argument {x : Char} {make : Nat → Except InvalidPrime Term} {t : Term} (q : Prime)
    (hrun : ∀ p text, (readAtom inner).run ⟨p, x :: text⟩ =
      readArgument.run ⟨p + 1, text⟩ >>= fun (n, d) =>
        (Cursor.mk p (x :: text)).built d (make n))
    (hmake : make q.val = .ok t) :
    Fits (readAtom inner).run (x :: '(' :: (q.digits ++ [')'])) t := by
  intro p rest
  rw [List.cons_append, List.cons_append, List.append_assoc, List.singleton_append, hrun,
    run_readArgument_digits]
  simp only [bind, Except.bind, hmake, Cursor.built, List.length_cons, List.length_append,
    List.length_nil]
  congr 3
  omega

theorem fits_noun (q : Prime) : Fits (readAtom inner).run (Term.noun q).atomText (.noun q) :=
  fits_argument q run_noun (by rw [Term.nounOf, Prime.ofNat_val]; rfl)

theorem fits_adj (q : Prime) : Fits (readAtom inner).run (Term.adj q).atomText (.adj q) :=
  fits_argument q run_adj (by rw [Term.adjOf, Prime.ofNat_val]; rfl)

theorem fits_fusion (f : Fusion) :
    Fits (readAtom inner).run (Term.fusion f).atomText (.fusion f) := by
  intro p rest
  have htext : (Term.fusion f).atomText ++ rest = 'F' :: 'U' :: 'S' :: 'E' :: '(' ::
      (f.p.digits ++ ',' :: (f.q.digits ++ ',' :: (f.r.digits ++ ')' :: rest))) := by
    simp [Term.atomText, enclosed, Term.isChain, Term.print, Fusion.print]
  have hlength : (Term.fusion f).atomText.length =
      f.p.digits.length + f.q.digits.length + f.r.digits.length + 8 := by
    simp only [Term.atomText, enclosed, Term.isChain, Term.print, Fusion.print_eq]
    simp
    omega
  rw [htext, hlength, run_fuse, run_readTriple_digits]
  simp only [bind, Except.bind, Term.fuse, Fusion.ofNats_val, Except.map, Cursor.built]
  congr 3
  omega

end Calls

/-! ## Groups -/

section Groups

variable {inner : Reader Term} {p : Nat} {text : List Char}

theorem run_readAtom_skipBlanks (inner : Option (Reader Term)) (c : Cursor) :
    (readAtom inner).run c.skipBlanks = (readAtom inner).run c := by
  rw [run_readAtom, run_readAtom, Cursor.skipBlanks_skipBlanks]

theorem run_readTerm_skipBlanks (n : Nat) (c : Cursor) :
    (readTerm (atomReader n)).run c.skipBlanks = (readTerm (atomReader n)).run c := by
  rw [run_readTerm, run_readTerm]
  cases n <;> rw [atomReader, run_readAtom_skipBlanks]

theorem run_square (p : Nat) (text : List Char) :
    (readAtom (some inner)).run ⟨p, '[' :: text⟩ =
      inner.run ⟨p + 1, text⟩ >>= fun (e, d) =>
        (readToken ']').run d >>= fun (_, d) => .ok (.sentence e, d) := by
  rw [run_readAtom, Cursor.skipBlanks_of_head rfl]
  rfl

theorem run_round (p : Nat) (text : List Char) :
    (readAtom (some inner)).run ⟨p, '(' :: text⟩ =
      inner.run ⟨p + 1, text⟩ >>= fun (l, d) =>
        runJoin inner l d >>= fun (t, d) =>
          (readToken ')').run d >>= fun (_, d) => .ok (t, d) := by
  rw [run_readAtom, Cursor.skipBlanks_of_head rfl]
  rfl

theorem runJoin_closing (left : Term) (p : Nat) (text : List Char) :
    runJoin inner left ⟨p, ')' :: text⟩ = .ok (left, ⟨p, ')' :: text⟩) := by
  rw [runJoin, Cursor.skipBlanks_of_head rfl]
  rfl

/-- Behind the symbol of a connective the second term is read. -/
theorem runJoin_symbol (n : Nat) (left : Term) (c : Connective) (p : Nat) (text : List Char) :
    runJoin (readTerm (atomReader n)) left (Cursor.mk p (c.symbol ++ text)).skipBlanks =
      (readTerm (atomReader n)).run ⟨p + c.symbol.length, text⟩ >>= fun (r, d) =>
        .ok (.join c left r, d) := by
  have hblank : ∀ q, (readTerm (atomReader n)).run ⟨q, ' ' :: text⟩ =
      (readTerm (atomReader n)).run ⟨q + 1, text⟩ := by
    intro q
    rw [← run_readTerm_skipBlanks, Cursor.skipBlanks_of_blank rfl, run_readTerm_skipBlanks]
  have hstart : ∀ x s, isBlank x = false →
      (Cursor.mk p (' ' :: x :: s)).skipBlanks = ⟨p + 1, x :: s⟩ := by
    intro x s hx
    rw [Cursor.skipBlanks_of_blank rfl, Cursor.skipBlanks_of_head hx]
  cases c with
  | seq =>
    have htext : Connective.seq.symbol ++ text = ' ' :: ';' :: ' ' :: text := rfl
    rw [htext, hstart _ _ rfl, runJoin, Cursor.skipBlanks_of_head rfl]
    exact congrArg (· >>= _) (hblank (p + 2))
  | imp =>
    have htext : Connective.imp.symbol ++ text = ' ' :: '=' :: '>' :: ' ' :: text := rfl
    rw [htext, hstart _ _ rfl, runJoin, Cursor.skipBlanks_of_head rfl]
    exact congrArg (· >>= _) (hblank (p + 3))

theorem fits_square {t : Term} (h : FitsTerm inner.run text t) :
    Fits (readAtom (some inner)).run ('[' :: (text ++ [']'])) (.sentence t) := by
  intro p rest
  have hbody : inner.run ⟨p + 1, text ++ ']' :: rest⟩ =
      .ok (t, ⟨p + 1 + text.length, ']' :: rest⟩) := by
    rw [h _ _ rfl, Cursor.skipBlanks_of_head rfl]
  have htext : '[' :: (text ++ [']']) ++ rest = '[' :: (text ++ ']' :: rest) := by simp
  rw [htext, run_square, hbody]
  simp only [bind, Except.bind, run_readToken_cons (x := ']') rfl, List.length_cons,
    List.length_append, List.length_nil]
  congr 3
  omega

theorem fits_round {t : Term} (h : FitsTerm inner.run text t) :
    Fits (readAtom (some inner)).run ('(' :: (text ++ [')'])) t := by
  intro p rest
  have hbody : inner.run ⟨p + 1, text ++ ')' :: rest⟩ =
      .ok (t, ⟨p + 1 + text.length, ')' :: rest⟩) := by
    rw [h _ _ rfl, Cursor.skipBlanks_of_head rfl]
  have htext : '(' :: (text ++ [')']) ++ rest = '(' :: (text ++ ')' :: rest) := by simp
  rw [htext, run_round, hbody]
  simp only [bind, Except.bind, runJoin_closing, run_readToken_cons (x := ')') rfl,
    List.length_cons, List.length_append, List.length_nil]
  congr 3
  omega

/-- Behind the first term and the symbol of a connective the second term is read. -/
theorem run_join {n : Nat} {l : Term} (hl : FitsTerm (readTerm (atomReader n)).run l.text l)
    (c : Connective) (p : Nat) (text : List Char) :
    (atomReader (n + 1)).run ⟨p, '(' :: (l.text ++ (c.symbol ++ text))⟩ =
      (readTerm (atomReader n)).run ⟨p + 1 + l.text.length + c.symbol.length, text⟩ >>=
        fun (r, d) => (readToken ')').run d >>= fun (_, d) => .ok (.join c l r, d) := by
  have hends : ((c.symbol ++ text).dropWhile isBlank).head?.any startsAtom = false := by
    cases c <;> rfl
  rw [atomReader, run_round, hl _ _ hends]
  simp only [bind, Except.bind, runJoin_symbol]
  cases (readTerm (atomReader n)).run ⟨p + 1 + l.text.length + c.symbol.length, text⟩ <;> rfl

theorem fits_join {n : Nat} {l r : Term} (hl : FitsTerm (readTerm (atomReader n)).run l.text l)
    (hr : FitsTerm (readTerm (atomReader n)).run r.text r) (c : Connective) :
    Fits (atomReader (n + 1)).run (Term.join c l r).atomText (.join c l r) := by
  intro p rest
  have htext : (Term.join c l r).atomText ++ rest =
      '(' :: (l.text ++ (c.symbol ++ (r.text ++ ')' :: rest))) := by
    rw [Term.atomText_join]
    simp
  rw [htext, run_join hl, hr _ _ rfl, Cursor.skipBlanks_of_head rfl, Term.atomText_join]
  simp only [bind, Except.bind, run_readToken_cons (x := ')') rfl, List.length_cons,
    List.length_append, List.length_nil]
  congr 3
  omega

end Groups

/-! ## Atoms in a row -/

section Rows

variable {atom : Reader Term} {before : List Term} {p n : Nat} {t : Term} {rest : List Char}

/-- Reads an atom and then the loop over further atoms. -/
def runFrom (atom : Reader Term) (before : List Term) (c : Cursor) :
    Except ParseError (Term × Cursor) :=
  atom.run c >>= fun (t, d) => runAtoms atom before t d

theorem isBlank_of_startsAtom {x : Char} (h : startsAtom x = true) : isBlank x = false := by
  simp only [startsAtom, Bool.or_eq_true, beq_iff_eq] at h
  rcases h with (((rfl | rfl) | rfl) | rfl) | rfl <;> rfl

theorem atomText_starts (t : Term) (rest : List Char) :
    ∃ x s, t.atomText ++ rest = x :: s ∧ startsAtom x = true := by
  cases t with
  | noun | adj | fusion | sentence | join | chain => exact ⟨_, _, rfl, rfl⟩

theorem runAtoms_of_starts {x : Char} {s : List Char} (h : startsAtom x = true) (last : Term) :
    runAtoms atom before last ⟨p, x :: s⟩ = runFrom atom (last :: before) ⟨p, x :: s⟩ := by
  rw [runAtoms_eq, Cursor.skipBlanks_of_head (isBlank_of_startsAtom h)]
  exact if_pos h

theorem runFrom_of_fits (h : Fits atom.run t.atomText t) :
    runFrom atom before ⟨p, t.atomText ++ rest⟩ =
      runAtoms atom before t ⟨p + t.atomText.length, rest⟩ := by
  rw [runFrom, h p rest]
  rfl

/-- An atom that is read, with more atoms behind it, is an operator. -/
theorem runFrom_cons {ts : List Term} (h : Fits atom.run t.atomText t) (hts : ts ≠ []) :
    runFrom atom before ⟨p, t.atomText ++ (ts.flatMap Term.atomText ++ rest)⟩ =
      runFrom atom (t :: before) ⟨p + t.atomText.length, ts.flatMap Term.atomText ++ rest⟩ := by
  obtain ⟨u, us, rfl⟩ := List.exists_cons_of_ne_nil hts
  rw [List.flatMap_cons, List.append_assoc]
  obtain ⟨x, s, hxs, hx⟩ := atomText_starts u (us.flatMap Term.atomText ++ rest)
  rw [runFrom_of_fits h, hxs, runAtoms_of_starts hx]

theorem runFrom_flatMap {os : List Term} (hos : ∀ o ∈ os, Fits atom.run o.atomText o) (t : Term) :
    runFrom atom before ⟨p, os.flatMap Term.atomText ++ (t.atomText ++ rest)⟩ =
      runFrom atom (os.reverse ++ before)
        ⟨p + (os.flatMap Term.atomText).length, t.atomText ++ rest⟩ := by
  induction os generalizing before p with
  | nil => rfl
  | cons o os ih =>
    obtain ⟨ho, hos⟩ := List.forall_mem_cons.1 hos
    have hnext :
        runFrom atom before ⟨p, o.atomText ++ ((os ++ [t]).flatMap Term.atomText ++ rest)⟩ =
          runFrom atom (o :: before)
            ⟨p + o.atomText.length, (os ++ [t]).flatMap Term.atomText ++ rest⟩ :=
      runFrom_cons ho (by simp)
    simp only [List.flatMap_append, List.flatMap_singleton, List.append_assoc] at hnext
    rw [List.flatMap_cons, List.append_assoc, hnext, ih hos]
    simp [Nat.add_assoc]

/-- A term is read if its atoms are. -/
theorem fitsTerm_text (h : ∀ q ∈ t.pieces, Fits atom.run q.atomText q) :
    FitsTerm (readTerm atom).run t.text t := by
  intro p rest hrest
  obtain ⟨hos, ht⟩ := List.forall_mem_append.1 h
  have htext : t.text = t.operators.reverse.flatMap Term.atomText ++ t.position.atomText := by
    rw [t.text_eq, Term.pieces, List.flatMap_append, List.flatMap_singleton]
  have hlength : p + (t.operators.reverse.flatMap Term.atomText).length +
      t.position.atomText.length = p + t.text.length := by
    rw [htext, List.length_append, Nat.add_assoc]
  have hstops :
      ¬ (Cursor.mk (p + t.text.length) rest).skipBlanks.rest.head?.any startsAtom = true := by
    rw [Cursor.skipBlanks_rest, hrest]
    exact Bool.false_ne_true
  calc (readTerm atom).run ⟨p, t.text ++ rest⟩
      = runFrom atom [] ⟨p, t.operators.reverse.flatMap Term.atomText ++
          (t.position.atomText ++ rest)⟩ := by
        rw [run_readTerm, htext, List.append_assoc]
        rfl
    _ = runAtoms atom t.operators t.position ⟨p + t.text.length, rest⟩ := by
        rw [runFrom_flatMap hos, runFrom_of_fits (ht _ List.mem_cons_self), hlength,
          List.reverse_reverse, List.append_nil]
    _ = .ok (t, (Cursor.mk (p + t.text.length) rest).skipBlanks) := by
        rw [runAtoms_eq, if_neg hstops, Term.ofOperators_operators]

end Rows

/-- **A printed term is read back** by the readers for its depth and more. -/
theorem fits_atomText_text (t : Term) :
    (∀ n, t.atomDepth ≤ n → Fits (atomReader n).run t.atomText t) ∧
    ∀ n, t.groupDepth ≤ n → FitsTerm (readTerm (atomReader n)).run t.text t := by
  refine Term.printed_induction
    (A := fun t => ∀ n, t.atomDepth ≤ n → Fits (atomReader n).run t.atomText t)
    (P := fun t => ∀ n, t.groupDepth ≤ n → FitsTerm (readTerm (atomReader n)).run t.text t)
    ?_ ?_ ?_ ?_ ?_ ?_ ?_ t
  · intro q n _
    cases n <;> exact fits_noun q
  · intro q n _
    cases n <;> exact fits_adj q
  · intro f n _
    cases n <;> exact fits_fusion f
  · intro e he n hdepth
    cases n with
    | zero => exact absurd hdepth (Nat.not_succ_le_zero _)
    | succ n =>
      rw [Term.atomText_sentence]
      exact fits_square (he n (Nat.le_of_succ_le_succ hdepth))
  · intro c l r hl hr n hdepth
    cases n with
    | zero => exact absurd hdepth (Nat.not_succ_le_zero _)
    | succ n =>
      obtain ⟨hln, hrn⟩ := Nat.max_le.1 (Nat.le_of_succ_le_succ hdepth)
      exact fits_join (hl n hln) (hr n hrn) c
  · intro o os e ht n hdepth
    cases n with
    | zero => exact absurd hdepth (Nat.not_succ_le_zero _)
    | succ n =>
      rw [Term.atomText_chain]
      exact fits_round (ht n (Nat.le_of_succ_le_succ hdepth))
  · intro t ht n hdepth
    exact fitsTerm_text fun q hq => ht q hq n (Term.groupDepth_le_iff.1 hdepth q hq)

/-! ## Groups that are too deep -/

section Depth

variable {n m : Nat} {run run' : Cursor → Except ParseError (Term × Cursor)}
  {a text after : List Char}

/-- What refuses part of a text refuses the text, if it gets there. -/
theorem Refuses.behind (h : Refuses n run text) (ha : Shallow m a) (hnesting : nesting a + n = m)
    (hlast : ∀ x ∈ a.getLast?, x.isAlpha = false)
    (hrun : ∀ p rest e, run ⟨p + a.length, text ++ rest⟩ = .error e →
      run' ⟨p, a ++ (text ++ rest)⟩ = .error e) :
    Refuses m run' (a ++ (text ++ after)) := by
  obtain ⟨before, c, s, rfl, hexceeds, hrefuses⟩ := h
  refine ⟨a ++ before, c, s ++ after, by simp, hexceeds.append ha hnesting hlast, ?_⟩
  intro p rest
  have herror := hrun p (after ++ rest) _ (hrefuses _ _)
  simpa [Nat.add_assoc] using herror

/-- Where no group may be opened, the first bracket is refused. -/
theorem refuses_zero {c : Char} (hc : c = '[' ∨ c = '(') (text : List Char) :
    Refuses 0 (atomReader 0).run (c :: text) := by
  refine ⟨[], c, text, rfl, ⟨?_, rfl, ?_⟩, fun p rest => ?_⟩
  · exact hc.imp_right fun h => ⟨h, nofun⟩
  · exact shallow_of_bracket nofun
  · rw [atomReader, List.cons_append, run_readAtom]
    rcases hc with rfl | rfl <;> rw [Cursor.skipBlanks_of_head rfl] <;> rfl

theorem refuses_square {inner : Reader Term} (h : Refuses n inner.run text) :
    Refuses (n + 1) (readAtom (some inner)).run ('[' :: (text ++ after)) := by
  refine h.behind (shallow_singleton (Nat.succ_pos n)) (Int.add_comm 1 n) ?_ fun p rest e he => ?_
  · simp
  · rw [List.singleton_append, run_square, show inner.run ⟨p + 1, text ++ rest⟩ = .error e from he]
    rfl

theorem refuses_round {inner : Reader Term} (h : Refuses n inner.run text) :
    Refuses (n + 1) (readAtom (some inner)).run ('(' :: (text ++ after)) := by
  refine h.behind (shallow_singleton (Nat.succ_pos n)) (Int.add_comm 1 n) ?_ fun p rest e he => ?_
  · simp
  · rw [List.singleton_append, run_round, show inner.run ⟨p + 1, text ++ rest⟩ = .error e from he]
    rfl

/-- The second term of a round group is reached if the first is read. -/
theorem refuses_right {l r : Term} (hl : l.groupDepth ≤ n)
    (hr : Refuses n (readTerm (atomReader n)).run r.text) (c : Connective) :
    Refuses (n + 1) (atomReader (n + 1)).run (Term.join c l r).atomText := by
  have htext : (Term.join c l r).atomText =
      ('(' :: (l.text ++ c.symbol)) ++ (r.text ++ [')']) := by
    rw [Term.atomText_join]
    simp
  have hleft : Shallow n (l.text ++ c.symbol) :=
    (Term.shallow_text hl).append (Term.shallow_symbol c (n := 0)) (by simp [l.nesting_text])
  have hopen : Shallow (n + 1) ('(' :: (l.text ++ c.symbol)) :=
    (shallow_singleton (Nat.succ_pos n)).append hleft (Int.le_of_eq (Int.add_comm 1 n))
  have hnesting : nesting ('(' :: (l.text ++ c.symbol)) + n = (n + 1 : Nat) := by
    rw [nesting_cons, nesting_append, l.nesting_text, Term.nesting_symbol]
    exact Int.add_comm 1 n
  rw [htext]
  refine hr.behind hopen hnesting ?_ fun p rest e he => ?_
  · rw [← List.cons_append, List.getLast?_append]
    cases c <;> simp [Connective.symbol]
  · have hat : (readTerm (atomReader n)).run
        ⟨p + 1 + l.text.length + c.symbol.length, r.text ++ rest⟩ = .error e := by
      rw [← he]
      congr 2
      simp only [List.length_cons, List.length_append]
      omega
    rw [List.cons_append, List.append_assoc, run_join ((fits_atomText_text l).2 n hl), hat]
    rfl

/-- Of atoms in a row, the first that is too deep is refused. -/
theorem refuses_flatMap {ts : List Term}
    (h : ∀ t ∈ ts, n < t.atomDepth → Refuses n (atomReader n).run t.atomText)
    (hdeep : ∃ t ∈ ts, n < t.atomDepth) (before : List Term) :
    Refuses n (runFrom (atomReader n) before) (ts.flatMap Term.atomText) := by
  induction ts generalizing before with
  | nil =>
    obtain ⟨t, ht, _⟩ := hdeep
    cases ht
  | cons t ts ih =>
    obtain ⟨ht, hts⟩ := List.forall_mem_cons.1 h
    by_cases htn : n < t.atomDepth
    · rw [List.flatMap_cons]
      refine (ht htn).behind (a := []) (shallow_of_bracket nofun) (Int.zero_add _) nofun
        fun p rest e he => ?_
      rw [List.nil_append, runFrom, show (atomReader n).run ⟨p, t.atomText ++ rest⟩ = _ from he]
      rfl
    · have hdeep : ∃ u ∈ ts, n < u.atomDepth := by
        obtain ⟨u, hu, hun⟩ := hdeep
        rcases List.mem_cons.1 hu with rfl | hu
        · exact absurd hun htn
        · exact ⟨u, hu, hun⟩
      have hne : ts ≠ [] := by
        rintro rfl
        obtain ⟨u, hu, _⟩ := hdeep
        cases hu
      have hfits := (fits_atomText_text t).1 n (Nat.le_of_not_lt htn)
      rw [List.flatMap_cons, ← List.append_nil (ts.flatMap Term.atomText)]
      refine (ih hts hdeep (t :: before)).behind (Term.shallow_atomText (Nat.le_of_not_lt htn)) ?_
        t.isAlpha_getLast_atomText fun p rest e he => ?_
      · rw [t.nesting_atomText, Int.zero_add]
      · rw [runFrom_cons hfits hne, he]

/-- **A printed term that is too deep is refused** at the first group that is. -/
theorem refuses_atomText_text (t : Term) :
    (∀ n, n < t.atomDepth → Refuses n (atomReader n).run t.atomText) ∧
    ∀ n, n < t.groupDepth → Refuses n (readTerm (atomReader n)).run t.text := by
  refine Term.printed_induction
    (A := fun t => ∀ n, n < t.atomDepth → Refuses n (atomReader n).run t.atomText)
    (P := fun t => ∀ n, n < t.groupDepth → Refuses n (readTerm (atomReader n)).run t.text)
    nofun nofun nofun ?_ ?_ ?_ ?_ t
  · intro e he n hdepth
    rw [Term.atomText_sentence]
    cases n with
    | zero => exact refuses_zero (.inl rfl) _
    | succ n => exact refuses_square (he n (Nat.lt_of_succ_lt_succ hdepth))
  · intro c l r hl hr n hdepth
    cases n with
    | zero =>
      rw [Term.atomText_join]
      exact refuses_zero (.inr rfl) _
    | succ n =>
      by_cases hln : n < l.groupDepth
      · rw [Term.atomText_join, List.append_assoc]
        exact refuses_round (hl n hln)
      · have hrn : n < r.groupDepth := by
          rw [Term.atomDepth_join] at hdepth
          omega
        exact refuses_right (Nat.le_of_not_lt hln) (hr n hrn) c
  · intro o os e ht n hdepth
    rw [Term.atomText_chain]
    cases n with
    | zero => exact refuses_zero (.inr rfl) _
    | succ n => exact refuses_round (ht n (Nat.lt_of_succ_lt_succ hdepth))
  · intro t ht n hdepth
    have hdeep : ∃ q ∈ t.pieces, n < q.atomDepth := by
      by_contra hall
      have hle : t.groupDepth ≤ n :=
        Term.groupDepth_le_iff.2 fun q hq => Nat.le_of_not_lt fun hlt => hall ⟨q, hq, hlt⟩
      exact absurd hdepth (Nat.not_lt_of_le hle)
    rw [t.text_eq]
    have hrun : (readTerm (atomReader n)).run = runFrom (atomReader n) [] :=
      funext fun c => run_readTerm _ c
    rw [hrun]
    exact refuses_flatMap (fun q hq => ht q hq n) hdeep []

end Depth

/-! ## What is read is not too deep -/

theorem Term.groupDepth_ofOperators_le {os : List Term} {t : Term} {n : Nat}
    (hos : ∀ o ∈ os, o.atomDepth ≤ n) (ht : t.atomDepth ≤ n) :
    (Term.ofOperators os t).groupDepth ≤ n := by
  cases os with
  | nil => exact Nat.le_trans t.groupDepth_le_atomDepth ht
  | cons o os =>
    refine Term.groupDepth_le_iff.2 fun q hq => ?_
    rcases Term.mem_pieces_chain.1 hq with rfl | hq | rfl
    · exact hos _ List.mem_cons_self
    · exact hos q (List.mem_cons_of_mem _ hq)
    · exact ht

namespace Grammar

mutual

/-- The meaning of an atom nests no deeper than the atom. -/
theorem Atom.atomDepth_le (a : Atom) {t : Term} (h : a.meaning = some t) :
    t.atomDepth ≤ a.depth := by
  match a with
  | .noun n =>
    obtain ⟨p, _, rfl⟩ := map_eq_ok_iff.1 (toOption_eq_some_iff.1 h)
    exact Nat.le_refl 0
  | .adj n =>
    obtain ⟨p, _, rfl⟩ := map_eq_ok_iff.1 (toOption_eq_some_iff.1 h)
    exact Nat.le_refl 0
  | .fuse p q r =>
    obtain ⟨f, _, rfl⟩ := map_eq_ok_iff.1 (toOption_eq_some_iff.1 h)
    exact Nat.le_refl 0
  | .sentence e =>
    obtain ⟨⟨os, u⟩, hparts, rfl⟩ := Option.map_eq_some_iff.1 h
    exact Nat.succ_le_succ (e.groupDepth_le hparts)
  | .group e =>
    obtain ⟨⟨os, u⟩, hparts, rfl⟩ := Option.map_eq_some_iff.1 h
    exact Nat.le_trans (Term.atomDepth_le_succ _) (Nat.succ_le_succ (e.groupDepth_le hparts))
  | .join c l r =>
    simp only [Atom.meaning, bind, pure, Option.bind_eq_some_iff] at h
    obtain ⟨⟨os, u⟩, hleft, ⟨os', u'⟩, hright, heq⟩ := h
    cases heq
    have hl := l.groupDepth_le hleft
    have hr := r.groupDepth_le hright
    exact Nat.succ_le_succ (Nat.max_le.2
      ⟨Nat.le_trans hl (Nat.le_max_left ..), Nat.le_trans hr (Nat.le_max_right ..)⟩)

/-- The operators and the noun position of a term nest no deeper than the term. -/
theorem Phrase.atomDepth_le (e : Phrase) {os : List Term} {t : Term} (h : e.parts = some (os, t)) :
    (∀ o ∈ os, o.atomDepth ≤ e.depth) ∧ t.atomDepth ≤ e.depth := by
  match e with
  | .last a =>
    obtain ⟨u, hu, heq⟩ := Option.map_eq_some_iff.1 h
    cases heq
    exact ⟨nofun, a.atomDepth_le hu⟩
  | .operator a e =>
    simp only [Phrase.parts, bind, pure, Option.bind_eq_some_iff] at h
    obtain ⟨o, ho, ⟨os, t⟩, hparts, heq⟩ := h
    cases heq
    obtain ⟨hos, ht⟩ := e.atomDepth_le hparts
    have ha : o.atomDepth ≤ (Phrase.operator a e).depth :=
      Nat.le_trans (a.atomDepth_le ho) (Nat.le_max_left ..)
    have he : e.depth ≤ (Phrase.operator a e).depth := Nat.le_max_right ..
    exact ⟨List.forall_mem_cons.2 ⟨ha, fun q hq => Nat.le_trans (hos q hq) he⟩,
      Nat.le_trans ht he⟩

theorem Phrase.groupDepth_le (e : Phrase) {os : List Term} {t : Term}
    (h : e.parts = some (os, t)) : (written os t).groupDepth ≤ e.depth := by
  obtain ⟨hos, ht⟩ := e.atomDepth_le h
  exact Term.groupDepth_ofOperators_le (fun o ho => hos o (List.mem_reverse.1 ho)) ht

end

end Grammar

/-! ## Whole texts -/

theorem Term.parse_signature_eq (t : Term) : Term.parse t.signature = Term.parseChars t.text := by
  rw [Term.parse, Term.signature, String.toList_ofList]
  rfl

theorem Term.parse_of_groupDepth_le {t : Term} (h : t.groupDepth ≤ maxNesting) :
    Term.parse t.signature = .ok t := by
  have hrun := (fits_atomText_text t).2 maxNesting h 0 [] rfl
  rw [List.append_nil] at hrun
  rw [t.parse_signature_eq, Term.parseChars_eq, hrun]
  rfl

theorem utf8ByteSize_ofList {text : List Char} (h : ∀ c ∈ text, c.utf8Size = 1) :
    (String.ofList text).utf8ByteSize = text.length := by
  induction text with
  | nil => rfl
  | cons c text ih =>
    obtain ⟨hc, htext⟩ := List.forall_mem_cons.1 h
    rw [String.ofList_cons, String.utf8ByteSize_append, String.utf8ByteSize_singleton, hc, ih htext,
      List.length_cons, Nat.add_comm]

/-- **Printing and reading are inverse.**  A term whose groups nest at most `maxNesting` deep is
read back from its printed form.  The printed form of any other term is refused at the byte of the
first bracket that opens a group with `maxNesting` open brackets around it.  What is read from any
text is of the first kind. -/
theorem parse_signature :
    (∀ t : Term, t.groupDepth ≤ maxNesting → Term.parse t.signature = .ok t) ∧
    (∀ t : Term, maxNesting < t.groupDepth → ∃ before c after,
      t.signature.toList = before ++ c :: after ∧ Exceeds maxNesting before c ∧
      Term.parse t.signature = .error ⟨(String.ofList before).utf8ByteSize, .tooDeep⟩) ∧
    ∀ (s : String) (t : Term), Term.parse s = .ok t →
      t.groupDepth ≤ maxNesting ∧ Term.parse t.signature = .ok t := by
  refine ⟨fun t => Term.parse_of_groupDepth_le, fun t h => ?_, fun s t h => ?_⟩
  · obtain ⟨before, c, after, htext, hexceeds, hrun⟩ := (refuses_atomText_text t).2 maxNesting h
    refine ⟨before, c, after, ?_, hexceeds, ?_⟩
    · rw [Term.signature, String.toList_ofList]
      exact htext
    · have hascii : ∀ x ∈ before, x.utf8Size = 1 :=
        fun x hx => Term.utf8Size_text x (htext ▸ List.mem_append_left _ hx)
      have herror := hrun 0 []
      rw [List.append_nil, Nat.zero_add] at herror
      rw [t.parse_signature_eq, Term.parseChars_eq, herror, utf8ByteSize_ofList hascii]
      rfl
  · obtain ⟨e, _, hdepth, hmeaning⟩ := Term.parseChars_eq_ok_iff.1 h
    obtain ⟨⟨os, u⟩, hparts, rfl⟩ := Option.map_eq_some_iff.1 hmeaning
    have hle := Nat.le_trans (e.groupDepth_le hparts) hdepth
    exact ⟨hle, Term.parse_of_groupDepth_le hle⟩

theorem Term.groupDepth_repeat_sentence (n : Nat) (t : Term) :
    (n.repeat Term.sentence t).groupDepth = t.groupDepth + n := by
  induction n with
  | zero => rfl
  | succ n ih => exact congrArg (· + 1) ih

/-- A sentence of sentences, once around for each group that may be open, and once more. -/
theorem parse_signature_deep :
    let t : Term := .chain (.adj .three) [] (.chain (.adj .three) [] (.noun .three))
    let deep : Term := (maxNesting + 1).repeat Term.sentence (.noun .three)
    t.groupDepth = 1 ∧ Term.parse t.signature = .ok t ∧ maxNesting < deep.groupDepth ∧
    ∃ before c after, deep.signature.toList = before ++ c :: after ∧ Exceeds maxNesting before c ∧
      Term.parse deep.signature = .error ⟨(String.ofList before).utf8ByteSize, .tooDeep⟩ := by
  intro t deep
  have ht : Term.parse t.signature = .ok t := parse_signature.1 t (by decide)
  have hdeep : maxNesting < deep.groupDepth := by
    rw [Term.groupDepth_repeat_sentence]
    decide
  exact ⟨rfl, (parse_signature.2.2 _ t ht).2, hdeep, parse_signature.2.1 deep hdeep⟩

end PrimeLanguage
