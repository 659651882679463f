import PrimeLanguage.Proofs.Term.Reading
import PrimeLanguage.Proofs.Term.Grammar

/-!
# What the reader accepts

The reader accepts a text exactly if the text spells a derivation of the grammar whose groups nest
at most `maxNesting` deep and whose numbers pass the checks of their places; it answers the meaning
of the derivation.

* `Succeeds` — a computation succeeds with an answer, and at a place, that have a property.  As in a
  calculus of weakest preconditions, one equivalence for each reader says what the text in front
  must spell (`succeeds_readToken`, …, `succeeds_runAtoms`);
* `ReadsAtom`, `ReadsPhrase` — a reader reads the atoms, the terms, of the grammar up to a depth.

An equivalence for each reader settles soundness and completeness at once.

Principal result: `parse_grammar`.
-/

namespace PrimeLanguage

open Grammar

/-! ## Digits -/

theorem readDigits_eq_ok_iff {acc n : Nat} {digits : List Char}
    (hdigits : ∀ c ∈ digits, c.isDigit = true) (hacc : acc < wordLimit) :
    readDigits acc digits = .ok n ↔
      Nat.ofDigitChars 10 digits acc = n ∧ Nat.ofDigitChars 10 digits acc < wordLimit := by
  induction digits generalizing acc with
  | nil => simp [readDigits, hacc]
  | cons c digits ih =>
    have hc : c.isDigit = true := hdigits c List.mem_cons_self
    have hvalue : digitValue? c = some (c.toNat - '0'.toNat) := by simp [digitValue?, hc]
    simp only [readDigits, hvalue, Nat.ofDigitChars_cons, Nat.mul_comm 10]
    by_cases hlt : acc * 10 + (c.toNat - '0'.toNat) < wordLimit
    · rw [if_pos hlt]
      exact ih (fun c hc => hdigits c (List.mem_cons_of_mem _ hc)) hlt
    · -- further digits only make the number larger
      have hle : acc * 10 + (c.toNat - '0'.toNat) ≤
          Nat.ofDigitChars 10 digits (acc * 10 + (c.toNat - '0'.toNat)) := by
        rw [Nat.ofDigitChars_eq_ofDigitChars_zero]
        exact Nat.le_add_right_of_le (Nat.le_mul_of_pos_left _ (Nat.pow_pos (by decide)))
      rw [if_neg hlt]
      constructor
      · intro h
        cases h
      · intro h
        omega

/-! ## Success with a property -/

section Succeeds

variable {α β ι : Type} {a : α} {c d : Cursor} {x : Except ParseError (α × Cursor)}
  {f : α × Cursor → Except ParseError (β × Cursor)} {P Q : α → Cursor → Prop}

/-- A computation succeeds with a value, at a place, that have the property. -/
def Succeeds (x : Except ParseError (α × Cursor)) (P : α → Cursor → Prop) : Prop :=
  ∃ a d, x = .ok (a, d) ∧ P a d

@[simp] theorem succeeds_ok : Succeeds (.ok (a, d)) P ↔ P a d := by
  constructor
  · rintro ⟨_, _, heq, h⟩
    cases heq
    exact h
  · exact fun h => ⟨a, d, rfl, h⟩

@[simp] theorem not_succeeds_fail {fault : ParseFault} : ¬ Succeeds (c.fail fault) P := by
  rintro ⟨_, _, heq, _⟩
  cases heq

theorem succeeds_congr (h : ∀ a d, x = .ok (a, d) → (P a d ↔ Q a d)) :
    Succeeds x P ↔ Succeeds x Q := by
  constructor
  · rintro ⟨a, d, hx, hp⟩
    exact ⟨a, d, hx, (h a d hx).1 hp⟩
  · rintro ⟨a, d, hx, hq⟩
    exact ⟨a, d, hx, (h a d hx).2 hq⟩

theorem succeeds_bind {P : β → Cursor → Prop} :
    Succeeds (x >>= f) P ↔ Succeeds x fun a d => Succeeds (f (a, d)) P := by
  constructor
  · rintro ⟨b, e, heq, h⟩
    obtain ⟨⟨a, d⟩, hx, hf⟩ := bind_eq_ok_iff.1 heq
    exact ⟨a, d, hx, b, e, hf, h⟩
  · rintro ⟨a, d, hx, b, e, hf, h⟩
    exact ⟨b, e, bind_eq_ok_iff.2 ⟨(a, d), hx, hf⟩, h⟩

theorem succeeds_or : Succeeds x (fun a d => P a d ∨ Q a d) ↔ Succeeds x P ∨ Succeeds x Q := by
  simp only [Succeeds, and_or_left, exists_or]

theorem succeeds_exists {P : ι → α → Cursor → Prop} :
    Succeeds x (fun a d => ∃ i, P i a d) ↔ ∃ i, Succeeds x (P i) := by
  constructor
  · rintro ⟨a, d, hx, i, h⟩
    exact ⟨i, a, d, hx, h⟩
  · rintro ⟨i, a, d, hx, h⟩
    exact ⟨a, d, hx, i, h⟩

theorem succeeds_and {p : Prop} : Succeeds x (fun a d => p ∧ P a d) ↔ p ∧ Succeeds x P := by
  constructor
  · rintro ⟨a, d, hx, hp, h⟩
    exact ⟨hp, a, d, hx, h⟩
  · rintro ⟨hp, a, d, hx, h⟩
    exact ⟨a, d, hx, hp, h⟩

end Succeeds

/-! ## Tokens, numbers and arguments -/

section Readers

variable {x y : Char} {cs text : List Char} {k : List (List Char)} {c : Cursor}

/-- Leading blanks do not change which tokens a text spells. -/
theorem spaced_skipBlanks (hx : isBlank x = false) :
    Spaced ((x :: cs) :: k) c.skipBlanks.rest ↔ Spaced ((x :: cs) :: k) c.rest := by
  rw [spaced_cons_iff hx, spaced_cons_iff hx, ← c.skipBlanks_rest, ← Cursor.skipBlanks_rest,
    Cursor.skipBlanks_skipBlanks]

/-- A token is spelled at the front by what follows the blanks. -/
theorem spaced_front (cs : List Char) (hx : isBlank x = false)
    (hrest : c.skipBlanks.rest = x :: (cs ++ text)) :
    Spaced ((x :: cs) :: k) c.rest ↔ Spaced k (c.skipBlanks.advance (cs.length + 1)).rest := by
  have hadvance : (c.skipBlanks.advance (cs.length + 1)).rest = text := by
    simp [Cursor.advance, hrest]
  rw [spaced_cons_iff hx, ← c.skipBlanks_rest, hrest, hadvance]
  constructor
  · rintro ⟨rest, heq, h⟩
    rwa [List.append_cancel_left (List.cons.inj heq).2]
  · exact fun h => ⟨text, rfl, h⟩

theorem succeeds_readToken (hx : isBlank x = false) :
    Succeeds ((readToken x).run c) (fun _ d => Spaced k d.rest) ↔ Spaced ([x] :: k) c.rest := by
  rw [run_readToken]
  split
  · rename_i hhead
    obtain ⟨text, hrest⟩ := List.head?_eq_some_iff.1 hhead
    rw [succeeds_ok, spaced_front [] hx hrest]
    rfl
  · rename_i hhead
    rw [iff_false_left not_succeeds_fail, spaced_cons_iff hx, ← c.skipBlanks_rest]
    rintro ⟨rest, hrest, _⟩
    exact hhead (by rw [hrest]; rfl)

/-- The reader of integers reads a number in front of a token that begins with no digit. -/
theorem succeeds_readInteger {Q : Nat → Prop} (hx : x.isDigit = false) :
    Succeeds (readInteger.run c) (fun n d => Q n ∧ Spaced ((x :: cs) :: k) d.rest) ↔
      ∃ n : Numeral, Q n.value ∧ Spaced (n.digits :: (x :: cs) :: k) c.rest := by
  have hdigits : ∀ ch ∈ c.skipBlanks.rest.takeWhile Char.isDigit, ch.isDigit = true :=
    fun ch hch => List.mem_takeWhile_imp hch
  have hread := fun n => readDigits_eq_ok_iff (n := n) hdigits (show 0 < wordLimit by decide)
  rw [run_readInteger]
  constructor
  · intro h
    split at h
    · exact absurd h not_succeeds_fail
    · rename_i hne
      split at h
      · exact absurd h not_succeeds_fail
      · rename_i n hn
        obtain ⟨rfl, hlt⟩ := (hread n).1 hn
        obtain ⟨hq, hspaced⟩ := succeeds_ok.1 h
        refine ⟨⟨_, hne, hdigits, hlt⟩, hq, ?_⟩
        obtain ⟨ch, digits, hcons⟩ := List.exists_cons_of_ne_nil hne
        have hblank := isBlank_eq_false_of_isDigit (hdigits ch (by simp [hcons]))
        dsimp only
        rw [hcons, spaced_cons_iff hblank]
        refine ⟨_, ?_, hspaced⟩
        rw [← List.cons_append, ← hcons]
        exact List.takeWhile_append_dropWhile.symm
  · rintro ⟨n, hq, hspaced⟩
    obtain ⟨htake, hrest⟩ := hspaced.numeral hx
    rw [← c.skipBlanks_rest] at htake hrest
    have hn : readDigits 0 n.digits = .ok n.value := by
      rw [htake] at hread
      exact (hread n.value).2 ⟨rfl, n.lt_wordLimit⟩
    rw [htake, if_neg n.ne_nil, hn, succeeds_ok]
    exact ⟨hq, hrest⟩

theorem succeeds_readArgument {Q : Nat → Prop} :
    Succeeds (readArgument.run c) (fun n d => Q n ∧ Spaced k d.rest) ↔
      ∃ n : Numeral, Q n.value ∧ Spaced (['('] :: n.digits :: [')'] :: k) c.rest := by
  simp only [run_readArgument, succeeds_bind, pure, Except.pure, succeeds_ok, succeeds_and,
    succeeds_exists, succeeds_readToken (x := ')') rfl, succeeds_readInteger (x := ')') rfl,
    succeeds_readToken (x := '(') rfl]

theorem succeeds_readTriple {Q : Nat → Nat → Nat → Prop} :
    Succeeds (readTriple.run c) (fun n d => Q n.1 n.2.1 n.2.2 ∧ Spaced k d.rest) ↔
      ∃ p q r : Numeral, Q p.value q.value r.value ∧
        Spaced (['('] :: p.digits :: [','] :: q.digits :: [','] :: r.digits :: [')'] :: k)
          c.rest := by
  simp only [run_readTriple, succeeds_bind, pure, Except.pure, succeeds_ok, succeeds_and,
    succeeds_exists, succeeds_readToken (x := ')') rfl, succeeds_readInteger (x := ')') rfl,
    succeeds_readToken (x := ',') rfl, succeeds_readInteger (x := ',') rfl,
    succeeds_readToken (x := '(') rfl]
  constructor
  · rintro ⟨r, q, p, h⟩
    exact ⟨p, q, r, h⟩
  · rintro ⟨p, q, r, h⟩
    exact ⟨r, q, p, h⟩

end Readers

/-! ## What stands in front of a text -/

/-- The text spells an atom whose groups nest at most `n` deep, with a meaning that has the
property, in front of the tokens `k`. -/
def AtomAt (n : Nat) (Q : Term → Prop) (k : List (List Char)) (text : List Char) : Prop :=
  ∃ (a : Atom) (t : Term), a.depth ≤ n ∧ a.meaning = some t ∧ Q t ∧ Spaced (a.tokens ++ k) text

/-- The text spells a term whose groups nest at most `n` deep, with operators and a noun position
that have the property, in front of the tokens `k`. -/
def PhraseAt (n : Nat) (Q : List Term → Term → Prop) (k : List (List Char)) (text : List Char) :
    Prop :=
  ∃ (e : Phrase) (os : List Term) (t : Term), e.depth ≤ n ∧ e.parts = some (os, t) ∧ Q os t ∧
    Spaced (e.tokens ++ k) text

section Front

variable {n : Nat} {c : Cursor} {k : List (List Char)} {text : List Char} {Q : Term → Prop}

/-- A term is one atom, or an operator in front of a term. -/
theorem phraseAt_iff {Q : List Term → Term → Prop} :
    PhraseAt n Q k text ↔
      AtomAt n (Q []) k text ∨
      ∃ (e : Phrase) (os : List Term) (t : Term), e.depth ≤ n ∧ e.parts = some (os, t) ∧
        AtomAt n (fun o => Q (o :: os) t) (e.tokens ++ k) text := by
  constructor
  · rintro ⟨e, os, t, hdepth, hparts, hq, hspaced⟩
    cases e with
    | last a =>
      obtain ⟨u, hu, heq⟩ := Option.map_eq_some_iff.1 hparts
      cases heq
      exact .inl ⟨a, t, hdepth, hu, hq, hspaced⟩
    | operator a e =>
      obtain ⟨ha, he⟩ := Nat.max_le.1 hdepth
      simp only [Phrase.parts, bind, pure, Option.bind_eq_some_iff] at hparts
      obtain ⟨o, ho, ⟨os, t⟩, hparts, heq⟩ := hparts
      cases heq
      rw [Phrase.tokens, List.append_assoc] at hspaced
      exact .inr ⟨e, os, t, he, hparts, a, o, ha, ho, hq, hspaced⟩
  · rintro (⟨a, t, ha, ht, hq, hspaced⟩ | ⟨e, os, t, he, hparts, a, o, ha, ho, hq, hspaced⟩)
    · exact ⟨.last a, [], t, ha, by rw [Phrase.parts, ht]; rfl, hq, hspaced⟩
    · refine ⟨.operator a e, o :: os, t, Nat.max_le.2 ⟨ha, he⟩, ?_, hq, ?_⟩
      · rw [Phrase.parts, ho, hparts]
        rfl
      · rwa [Phrase.tokens, List.append_assoc]

theorem phraseAt_skipBlanks {Q : List Term → Term → Prop} :
    PhraseAt n Q k c.skipBlanks.rest ↔ PhraseAt n Q k c.rest := by
  have hspaced : ∀ e : Phrase,
      Spaced (e.tokens ++ k) c.skipBlanks.rest ↔ Spaced (e.tokens ++ k) c.rest := by
    intro e
    obtain ⟨a, l, hl⟩ : ∃ (a : Atom) (l : List (List Char)), e.tokens ++ k = a.tokens ++ l := by
      cases e with
      | last a => exact ⟨a, k, rfl⟩
      | operator a e => exact ⟨a, e.tokens ++ k, List.append_assoc ..⟩
    obtain ⟨cs, l', hl'⟩ := a.tokens_eq
    rw [hl, hl', List.cons_append]
    exact spaced_skipBlanks a.isBlank_initial
  simp only [PhraseAt, hspaced]

theorem initial_of_front {a : Atom} {x : Char} (h : Spaced (a.tokens ++ k) c.rest)
    (hrest : c.skipBlanks.rest = x :: text) : a.initial = x := by
  have hhead := Atom.head_of_spaced h
  rw [← c.skipBlanks_rest, hrest] at hhead
  exact (Option.some.inj hhead).symm

theorem atomAt_noun (hrest : c.skipBlanks.rest = 'N' :: text) :
    AtomAt n Q k c.rest ↔
      ∃ m : Numeral, (∃ t, (Term.nounOf m.value).toOption = some t ∧ Q t) ∧
        Spaced (['('] :: m.digits :: [')'] :: k) (c.skipBlanks.advance 1).rest := by
  constructor
  · rintro ⟨a, t, _, ht, hq, hspaced⟩
    have hinitial := initial_of_front hspaced hrest
    cases a with
    | noun m => exact ⟨m, ⟨t, ht, hq⟩, (spaced_front [] rfl hrest).1 hspaced⟩
    | adj | fuse | sentence | group | join => simp [Atom.initial] at hinitial
  · rintro ⟨m, ⟨t, ht, hq⟩, hspaced⟩
    exact ⟨.noun m, t, Nat.zero_le _, ht, hq, (spaced_front [] rfl hrest).2 hspaced⟩

theorem atomAt_adj (hrest : c.skipBlanks.rest = 'A' :: text) :
    AtomAt n Q k c.rest ↔
      ∃ m : Numeral, (∃ t, (Term.adjOf m.value).toOption = some t ∧ Q t) ∧
        Spaced (['('] :: m.digits :: [')'] :: k) (c.skipBlanks.advance 1).rest := by
  constructor
  · rintro ⟨a, t, _, ht, hq, hspaced⟩
    have hinitial := initial_of_front hspaced hrest
    cases a with
    | adj m => exact ⟨m, ⟨t, ht, hq⟩, (spaced_front [] rfl hrest).1 hspaced⟩
    | noun | fuse | sentence | group | join => simp [Atom.initial] at hinitial
  · rintro ⟨m, ⟨t, ht, hq⟩, hspaced⟩
    exact ⟨.adj m, t, Nat.zero_le _, ht, hq, (spaced_front [] rfl hrest).2 hspaced⟩

theorem atomAt_fuse (hrest : c.skipBlanks.rest = 'F' :: 'U' :: 'S' :: 'E' :: text) :
    AtomAt n Q k c.rest ↔
      ∃ p q r : Numeral, (∃ t, (Term.fuse p.value q.value r.value).toOption = some t ∧ Q t) ∧
        Spaced (['('] :: p.digits :: [','] :: q.digits :: [','] :: r.digits :: [')'] :: k)
          (c.skipBlanks.advance 4).rest := by
  constructor
  · rintro ⟨a, t, _, ht, hq, hspaced⟩
    have hinitial := initial_of_front hspaced hrest
    cases a with
    | fuse p q r =>
      exact ⟨p, q, r, ⟨t, ht, hq⟩, (spaced_front ['U', 'S', 'E'] rfl hrest).1 hspaced⟩
    | noun | adj | sentence | group | join => simp [Atom.initial] at hinitial
  · rintro ⟨p, q, r, ⟨t, ht, hq⟩, hspaced⟩
    exact ⟨.fuse p q r, t, Nat.zero_le _, ht, hq,
      (spaced_front ['U', 'S', 'E'] rfl hrest).2 hspaced⟩

theorem atomAt_sentence (hrest : c.skipBlanks.rest = '[' :: text) :
    AtomAt (n + 1) Q k c.rest ↔
      PhraseAt n (fun os t => Q (.sentence (written os t))) ([']'] :: k)
        (c.skipBlanks.advance 1).rest := by
  constructor
  · rintro ⟨a, t, ha, ht, hq, hspaced⟩
    have hinitial := initial_of_front hspaced hrest
    cases a with
    | sentence e =>
      obtain ⟨⟨os, u⟩, hparts, rfl⟩ := Option.map_eq_some_iff.1 ht
      rw [Atom.tokens_sentence_append] at hspaced
      exact ⟨e, os, u, Nat.le_of_succ_le_succ ha, hparts, hq,
        (spaced_front [] rfl hrest).1 hspaced⟩
    | noun | adj | fuse | group | join => simp [Atom.initial] at hinitial
  · rintro ⟨e, os, t, he, hparts, hq, hspaced⟩
    refine ⟨.sentence e, _, Nat.succ_le_succ he, by rw [Atom.meaning, hparts]; rfl, hq, ?_⟩
    rw [Atom.tokens_sentence_append]
    exact (spaced_front [] rfl hrest).2 hspaced

/-- A round group holds a term, or two terms around a connective. -/
theorem atomAt_round (hrest : c.skipBlanks.rest = '(' :: text) :
    AtomAt (n + 1) Q k c.rest ↔
      PhraseAt n (fun os t => Q (written os t)) ([')'] :: k) (c.skipBlanks.advance 1).rest ∨
      ∃ (o : Connective) (r : Phrase) (os' : List Term) (t' : Term), r.depth ≤ n ∧
        r.parts = some (os', t') ∧
        PhraseAt n (fun os t => Q (.join o (written os t) (written os' t')))
          (token o :: (r.tokens ++ [')'] :: k)) (c.skipBlanks.advance 1).rest := by
  constructor
  · rintro ⟨a, t, ha, ht, hq, hspaced⟩
    have hinitial := initial_of_front hspaced hrest
    cases a with
    | group e =>
      obtain ⟨⟨os, u⟩, hparts, rfl⟩ := Option.map_eq_some_iff.1 ht
      rw [Atom.tokens_group_append] at hspaced
      exact .inl ⟨e, os, u, Nat.le_of_succ_le_succ ha, hparts, hq,
        (spaced_front [] rfl hrest).1 hspaced⟩
    | join o l r =>
      obtain ⟨hl, hr⟩ := Nat.max_le.1 (Nat.le_of_succ_le_succ ha)
      simp only [Atom.meaning, bind, pure, Option.bind_eq_some_iff] at ht
      obtain ⟨⟨os, u⟩, hleft, ⟨os', u'⟩, hright, heq⟩ := ht
      cases heq
      rw [Atom.tokens_join_append] at hspaced
      exact .inr ⟨o, r, os', u', hr, hright, l, os, u, hl, hleft, hq,
        (spaced_front [] rfl hrest).1 hspaced⟩
    | noun | adj | fuse | sentence => simp [Atom.initial] at hinitial
  · rintro (⟨e, os, t, he, hparts, hq, hspaced⟩ |
      ⟨o, r, os', t', hr, hright, l, os, t, hl, hleft, hq, hspaced⟩)
    · refine ⟨.group e, _, Nat.succ_le_succ he, by rw [Atom.meaning, hparts]; rfl, hq, ?_⟩
      rw [Atom.tokens_group_append]
      exact (spaced_front [] rfl hrest).2 hspaced
    · refine ⟨.join o l r, _, Nat.succ_le_succ (Nat.max_le.2 ⟨hl, hr⟩),
        by rw [Atom.meaning, hleft, hright]; rfl, hq, ?_⟩
      rw [Atom.tokens_join_append]
      exact (spaced_front [] rfl hrest).2 hspaced

/-- Where no group may be opened, no atom begins with a bracket. -/
theorem not_atomAt_zero {x : Char} (hrest : c.skipBlanks.rest = x :: text)
    (hx : x = '[' ∨ x = '(') : ¬ AtomAt 0 Q k c.rest := by
  rintro ⟨a, t, ha, _, _, hspaced⟩
  have hinitial := initial_of_front hspaced hrest
  cases a with
  | sentence | group | join => exact absurd ha (Nat.not_succ_le_zero _)
  | noun | adj | fuse => rcases hx with rfl | rfl <;> simp [Atom.initial] at hinitial

end Front

/-! ## Atoms and terms -/

/-- The reader reads exactly the atoms whose groups nest at most `n` deep. -/
def ReadsAtom (reader : Reader Term) (n : Nat) : Prop :=
  ∀ (c : Cursor) (k : List (List Char)) (Q : Term → Prop),
    Succeeds (reader.run c) (fun t d => Q t ∧ Spaced k d.rest) ↔ AtomAt n Q k c.rest

/-- In front of what no atom begins with, the reader reads exactly the terms whose groups nest at
most `n` deep. -/
def ReadsPhrase (reader : Reader Term) (n : Nat) : Prop :=
  ∀ (c : Cursor) (k : List (List Char)) (Q : Term → Prop), Stops k →
    (Succeeds (reader.run c) (fun t d => Q t ∧ Spaced k d.rest) ↔
      PhraseAt n (fun os t => Q (written os t)) k c.rest)

section Terms

variable {atom inner : Reader Term} {n : Nat} {c : Cursor} {k : List (List Char)}
  {Q : Term → Prop}

theorem Grammar.Stops.spaced_skipBlanks (hk : Stops k) :
    Spaced k c.skipBlanks.rest ↔ Spaced k c.rest := by
  cases hk with
  | nil =>
    rw [spaced_nil_iff, spaced_nil_iff, ← c.skipBlanks_rest, ← Cursor.skipBlanks_rest,
      Cursor.skipBlanks_skipBlanks]
  | cons hx _ => exact PrimeLanguage.spaced_skipBlanks hx

/-- Reading an atom and going on with a term, or stopping, is reading a term. -/
theorem ReadsAtom.phraseAt (hatom : ReadsAtom atom n) (R : List Term → Term → Prop) :
    Succeeds (atom.run c) (fun u d => R [] u ∧ Spaced k d.rest ∨
        PhraseAt n (fun os t => R (u :: os) t) k d.rest) ↔
      PhraseAt n R k c.rest := by
  rw [succeeds_or, phraseAt_iff, hatom c k (R [])]
  simp only [PhraseAt, succeeds_exists, succeeds_and, hatom c (_ ++ k) fun u => R (u :: _) _]

/-- The loop over atoms either stops at once or reads a whole term more. -/
theorem succeeds_runAtoms (hatom : ReadsAtom atom n) (hk : Stops k) (before : List Term)
    (last : Term) (c : Cursor) :
    Succeeds (runAtoms atom before last c) (fun t d => Q t ∧ Spaced k d.rest) ↔
      Q (.ofOperators before last) ∧ Spaced k c.rest ∨
      PhraseAt n (fun os t => Q (.ofOperators (os.reverse ++ last :: before) t)) k c.rest := by
  -- by induction on the text that is left: every atom takes some of it
  induction hlength : c.remaining using Nat.strong_induction_on generalizing before last c with
  | _ length ih =>
    subst hlength
    rw [runAtoms_eq]
    by_cases hstart : c.skipBlanks.rest.head?.any startsAtom = true
    · have hstops : ¬ Spaced k c.rest := by
        intro h
        rw [c.skipBlanks_rest, (hk.spaced h).2] at hstart
        cases hstart
      have hrest : ∀ t d, atom.run c.skipBlanks = .ok (t, d) → d.remaining < c.remaining :=
        fun t d hrun =>
          Nat.lt_of_lt_of_le (Reader.remaining_of_run hrun) c.remaining_skipBlanks
      rw [if_pos hstart, succeeds_bind,
        succeeds_congr fun t d hrun => ih d.remaining (hrest t d hrun) (last :: before) t d rfl,
        iff_false_intro (mt And.right hstops), false_or, ← phraseAt_skipBlanks,
        ← hatom.phraseAt fun os t => Q (.ofOperators (os.reverse ++ last :: before) t)]
      simp
    · have hcontinues : ∀ e : Phrase, ¬ Spaced (e.tokens ++ k) c.rest :=
        fun e h => hstart (Phrase.starts_of_spaced h)
      rw [if_neg hstart, succeeds_ok, hk.spaced_skipBlanks]
      simp only [PhraseAt, iff_false_intro (hcontinues _), and_false, exists_false, or_false]

/-- A reader of atoms makes a reader of the terms over them. -/
theorem ReadsAtom.readTerm (hatom : ReadsAtom atom n) : ReadsPhrase (readTerm atom) n := by
  intro c k Q hk
  rw [run_readTerm, succeeds_bind, ← hatom.phraseAt fun os t => Q (written os t)]
  simp only [succeeds_runAtoms hatom hk, written, List.reverse_cons, List.reverse_nil]

/-! ## Groups -/

/-- The connective that a text spells is the one that is found there. -/
theorem connectiveAt?_of_spaced {o : Connective} (h : Spaced (token o :: k) c.rest) :
    connectiveAt? c.skipBlanks.rest = some (o, (token o).length) := by
  cases o <;>
  · obtain ⟨rest, hrest, _⟩ := (spaced_cons_iff rfl).1 h
    rw [c.skipBlanks_rest, hrest]
    rfl

theorem connectiveAt?_of_closing (h : Spaced ([')'] :: k) c.rest) :
    connectiveAt? c.skipBlanks.rest = none := by
  obtain ⟨rest, hrest, _⟩ := (spaced_cons_iff rfl).1 h
  rw [c.skipBlanks_rest, hrest]
  rfl

theorem spaced_connective {o : Connective} {m : Nat}
    (h : connectiveAt? c.skipBlanks.rest = some (o, m)) :
    Spaced (token o :: k) c.rest ↔ Spaced k (c.skipBlanks.advance m).rest := by
  unfold connectiveAt? at h
  split at h
  · rename_i hrest
    cases h
    exact spaced_front [] rfl hrest
  · rename_i hrest
    cases h
    exact spaced_front ['>'] rfl hrest
  · cases h

/-- Behind the first term of a round group stands the closing bracket, or a connective and another
term. -/
theorem succeeds_runJoin (hinner : ReadsPhrase inner n) (left : Term) (c : Cursor) :
    Succeeds (runJoin inner left c) (fun t d => Q t ∧ Spaced ([')'] :: k) d.rest) ↔
      Q left ∧ Spaced ([')'] :: k) c.rest ∨
      ∃ (o : Connective) (r : Phrase) (os : List Term) (t : Term), r.depth ≤ n ∧
        r.parts = some (os, t) ∧ Q (.join o left (written os t)) ∧
        Spaced (token o :: (r.tokens ++ [')'] :: k)) c.rest := by
  unfold runJoin
  cases hat : connectiveAt? c.skipBlanks.rest with
  | none =>
    have hnone : ∀ (o : Connective) (l : List (List Char)), ¬ Spaced (token o :: l) c.rest := by
      intro o l h
      rw [connectiveAt?_of_spaced h] at hat
      cases hat
    simp only [succeeds_ok, iff_false_intro (hnone _ _), and_false, exists_false, or_false]
  | some found =>
    obtain ⟨o, m⟩ := found
    have hclosing : ¬ Spaced ([')'] :: k) c.rest := by
      intro h
      rw [connectiveAt?_of_closing h] at hat
      cases hat
    simp only [succeeds_bind, pure, Except.pure, succeeds_ok, iff_false_intro hclosing, and_false,
      false_or]
    rw [hinner (c.skipBlanks.advance m) ([')'] :: k) (fun u => Q (.join o left u)) (.cons rfl rfl)]
    constructor
    · rintro ⟨r, os, t, hr, hparts, hq, hspaced⟩
      exact ⟨o, r, os, t, hr, hparts, hq, (spaced_connective hat).2 hspaced⟩
    · rintro ⟨o', r, os, t, hr, hparts, hq, hspaced⟩
      have heq : (o, m) = (o', (token o').length) := by
        rw [connectiveAt?_of_spaced hspaced] at hat
        exact (Option.some.inj hat).symm
      cases heq
      exact ⟨r, os, t, hr, hparts, hq, (spaced_connective hat).1 hspaced⟩

/-- What is made of arguments is read if the check of their place accepts them. -/
theorem succeeds_built {start d : Cursor} {made : Except InvalidPrime Term} :
    Succeeds (start.built d made) (fun t e => Q t ∧ Spaced k e.rest) ↔
      (∃ t, made.toOption = some t ∧ Q t) ∧ Spaced k d.rest := by
  unfold Cursor.built
  cases made <;> simp [Except.toOption]

/-- What may read inside the groups of atoms that nest at most so deep: nothing at depth 0. -/
def ReadsInner : Option (Reader Term) → Nat → Prop
  | none, n => n = 0
  | some inner, n => ∃ m, n = m + 1 ∧ ReadsPhrase inner m

/-- A reader of what stands inside groups makes a reader of atoms. -/
theorem ReadsInner.readAtom {inner : Option (Reader Term)} (hinner : ReadsInner inner n) :
    ReadsAtom (readAtom inner) n := by
  intro c k Q
  rw [run_readAtom]
  dsimp only
  split
  · rename_i text hrest
    simp only [succeeds_bind, succeeds_built, atomAt_fuse hrest,
      succeeds_readTriple (Q := fun p q r => ∃ t, (Term.fuse p q r).toOption = some t ∧ Q t)]
  · rename_i text hrest
    simp only [succeeds_bind, succeeds_built, atomAt_noun hrest,
      succeeds_readArgument (Q := fun n => ∃ t, (Term.nounOf n).toOption = some t ∧ Q t)]
  · rename_i text hrest
    simp only [succeeds_bind, succeeds_built, atomAt_adj hrest,
      succeeds_readArgument (Q := fun n => ∃ t, (Term.adjOf n).toOption = some t ∧ Q t)]
  · rename_i text hrest
    cases inner with
    | none =>
      subst hinner
      exact iff_of_false not_succeeds_fail (not_atomAt_zero hrest (.inl rfl))
    | some inner =>
      obtain ⟨m, rfl, hinner⟩ := hinner
      simp only [succeeds_bind, pure, Except.pure, succeeds_ok, succeeds_and,
        succeeds_readToken (x := ']') rfl]
      rw [atomAt_sentence hrest]
      exact hinner _ _ (fun t => Q (.sentence t)) (.cons rfl rfl)
  · rename_i text hrest
    cases inner with
    | none =>
      subst hinner
      exact iff_of_false not_succeeds_fail (not_atomAt_zero hrest (.inr rfl))
    | some inner =>
      obtain ⟨m, rfl, hinner⟩ := hinner
      simp only [succeeds_bind, pure, Except.pure, succeeds_ok, succeeds_and,
        succeeds_readToken (x := ')') rfl]
      simp only [succeeds_runJoin hinner, succeeds_or, succeeds_exists, succeeds_and,
        atomAt_round hrest, hinner (c.skipBlanks.advance 1) ([')'] :: k) Q (.cons rfl rfl),
        hinner (c.skipBlanks.advance 1) (token _ :: _) (fun t => Q (.join _ t _)) (stops_token _)]
  · rename_i hfuse hnoun hadj hsentence hround
    refine iff_of_false not_succeeds_fail ?_
    rintro ⟨a, t, _, _, _, hspaced⟩
    cases a <;>
    · obtain ⟨rest, hrest, _⟩ := (spaced_cons_iff rfl).1 hspaced
      rw [← c.skipBlanks_rest] at hrest
      simp_all

/-- The reader of atoms up to a depth reads the atoms up to that depth. -/
theorem readsAtom_atomReader (n : Nat) : ReadsAtom (atomReader n) n := by
  induction n with
  | zero => exact (show ReadsInner none 0 from rfl).readAtom
  | succ n ih => exact (show ReadsInner (some _) (n + 1) from ⟨n, rfl, ih.readTerm⟩).readAtom

end Terms

/-! ## Whole texts -/

/-- A text is read as a term if a derivation that it spells stands for the term. -/
theorem Term.parseChars_eq_ok_iff {text : List Char} {t : Term} :
    Term.parseChars text = .ok t ↔
      ∃ e : Phrase, Spaced e.tokens text ∧ e.depth ≤ maxNesting ∧ e.meaning = some t := by
  have hread := (readsAtom_atomReader maxNesting).readTerm ⟨0, text⟩ [] (· = t) .nil
  have hparse : Term.parseChars text = .ok t ↔
      Succeeds ((readTerm (atomReader maxNesting)).run ⟨0, text⟩)
        (fun u d => u = t ∧ Spaced [] d.rest) := by
    rw [Term.parseChars_eq, bind_eq_ok_iff]
    constructor
    · rintro ⟨⟨u, d⟩, hrun, hend⟩
      dsimp only at hend
      by_cases hrest : d.skipBlanks.rest = []
      · rw [if_pos hrest] at hend
        cases hend
        exact ⟨t, d, hrun, rfl, spaced_nil_iff.2 hrest⟩
      · rw [if_neg hrest] at hend
        cases hend
    · rintro ⟨_, d, hrun, rfl, hspaced⟩
      exact ⟨(_, d), hrun, if_pos (spaced_nil_iff.1 hspaced)⟩
  rw [hparse, hread]
  constructor
  · rintro ⟨e, os, u, hdepth, hparts, rfl, hspaced⟩
    rw [List.append_nil] at hspaced
    exact ⟨e, hspaced, hdepth, by rw [Phrase.meaning, hparts]; rfl⟩
  · rintro ⟨e, hspaced, hdepth, hmeaning⟩
    obtain ⟨⟨os, u⟩, hparts, hu⟩ := Option.map_eq_some_iff.1 hmeaning
    rw [← List.append_nil e.tokens] at hspaced
    exact ⟨e, os, u, hdepth, hparts, hu, hspaced⟩

/-- **The reader accepts exactly its grammar.**  A text is read as a term exactly if it spells a
derivation whose groups nest at most `maxNesting` deep and which stands for that term, every number
passing the check of its place.  The grammar is unambiguous: a text spells at most one
derivation. -/
theorem parse_grammar :
    (∀ (s : String) (t : Term), Term.parse s = .ok t ↔
      ∃ e : Phrase, Spaced e.tokens s.toList ∧ e.depth ≤ maxNesting ∧ e.meaning = some t) ∧
    ∀ (s : String) (e e' : Phrase), Spaced e.tokens s.toList → Spaced e'.tokens s.toList →
      e = e' :=
  ⟨fun _ _ => Term.parseChars_eq_ok_iff, fun _ _ _ => Phrase.unique⟩

/-- A number may have leading zeros, blanks may stand between tokens, and round brackets around a
term that is no chain leave no trace. -/
theorem parse_grammar_group :
    let three : Numeral := ⟨['0', '3'], nofun, List.all_eq_true.1 rfl, by decide⟩
    let e : Phrase := .operator (.adj three) (.last (.group (.last (.noun three))))
    Term.parse " A( 03)\n(N(03) )" = .ok (.chain (.adj .three) [] (.noun .three)) ∧
      Spaced e.tokens " A( 03)\n(N(03) )".toList ∧
      ∀ e' : Phrase, Spaced e'.tokens " A( 03)\n(N(03) )".toList → e' = e := by
  intro three e
  have hspaced : Spaced e.tokens " A( 03)\n(N(03) )".toList := by
    iterate 10 refine (spaced_cons_iff rfl).2 ⟨_, rfl, ?_⟩
    exact spaced_nil_iff.2 rfl
  exact ⟨(parse_grammar.1 _ _).2 ⟨e, hspaced, by decide, rfl⟩, hspaced,
    fun e' h => parse_grammar.2 _ e' e h hspaced⟩

end PrimeLanguage
