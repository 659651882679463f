import Mathlib.Data.List.TakeWhile
import PrimeLanguage.Term.Parse

/-!
# The grammar of written terms

A text is a term if it spells the tokens of a derivation of the grammar, with blanks in front of
tokens and at the end.

* `Numeral` — a number as it is written;
* `Atom`, `Phrase` — the derivations of an atom and of a term; `tokens` is what they are spelled
  with, `depth` how deep their groups nest, and `meaning` the term they stand for, if every number
  passes the check of its place;
* `Spaced` — a text that spells a sequence of tokens.

Principal result: `Phrase.unique` — the grammar is unambiguous: a text spells the tokens of at most
one derivation, whatever its depth and its numbers are.  It holds because an atom ends with its
closing bracket, a run of digits in front of a character that is no digit, and the atoms of a term
in front of a token with which no atom begins (`Stops`).
-/

namespace PrimeLanguage

namespace Grammar

/-! ## Derivations -/

/-- A number as it is written: decimal digits, at least one, whose value is a word. -/
structure Numeral where
  digits : List Char
  ne_nil : digits ≠ []
  isDigit : ∀ c ∈ digits, c.isDigit = true
  lt_wordLimit : Nat.ofDigitChars 10 digits 0 < wordLimit

def Numeral.value (n : Numeral) : Nat := Nat.ofDigitChars 10 n.digits 0

mutual

/-- The derivations of an atom. -/
inductive Atom where
  | noun (n : Numeral)
  | adj (n : Numeral)
  | fuse (p q r : Numeral)
  | sentence (e : Phrase)
  | group (e : Phrase)
  | join (c : Connective) (l r : Phrase)

/-- The derivations of a term: one atom or more. -/
inductive Phrase where
  | last (a : Atom)
  | operator (a : Atom) (e : Phrase)

end

/-- How a connective is spelled. -/
def token : Connective → List Char
  | .seq => [';']
  | .imp => ['=', '>']

mutual

/-- The tokens of an atom. -/
def Atom.tokens : Atom → List (List Char)
  | .noun n => [['N'], ['('], n.digits, [')']]
  | .adj n => [['A'], ['('], n.digits, [')']]
  | .fuse p q r =>
    [['F', 'U', 'S', 'E'], ['('], p.digits, [','], q.digits, [','], r.digits, [')']]
  | .sentence e => ['['] :: (e.tokens ++ [[']']])
  | .group e => ['('] :: (e.tokens ++ [[')']])
  | .join c l r => ['('] :: (l.tokens ++ token c :: (r.tokens ++ [[')']]))

/-- The tokens of a term. -/
def Phrase.tokens : Phrase → List (List Char)
  | .last a => a.tokens
  | .operator a e => a.tokens ++ e.tokens

end

section

variable (k : List (List Char))

theorem Atom.tokens_sentence_append (e : Phrase) :
    (Atom.sentence e).tokens ++ k = ['['] :: (e.tokens ++ [']'] :: k) := by
  simp [Atom.tokens]

theorem Atom.tokens_group_append (e : Phrase) :
    (Atom.group e).tokens ++ k = ['('] :: (e.tokens ++ [')'] :: k) := by
  simp [Atom.tokens]

theorem Atom.tokens_join_append (c : Connective) (l r : Phrase) :
    (Atom.join c l r).tokens ++ k =
      ['('] :: (l.tokens ++ token c :: (r.tokens ++ [')'] :: k)) := by
  simp [Atom.tokens]

end

mutual

/-- How deep the groups of an atom nest. -/
def Atom.depth : Atom → Nat
  | .noun _ | .adj _ | .fuse .. => 0
  | .sentence e | .group e => e.depth + 1
  | .join _ l r => max l.depth r.depth + 1

/-- How deep the groups of a term nest. -/
def Phrase.depth : Phrase → Nat
  | .last a => a.depth
  | .operator a e => max a.depth e.depth

end

/-- Operators in written order over a noun position; the noun position itself without operators. -/
def written (operators : List Term) (noun : Term) : Term := .ofOperators operators.reverse noun

mutual

/-- The term that an atom stands for. -/
def Atom.meaning : Atom → Option Term
  | .noun n => (Term.nounOf n.value).toOption
  | .adj n => (Term.adjOf n.value).toOption
  | .fuse p q r => (Term.fuse p.value q.value r.value).toOption
  | .sentence e => e.parts.map fun (os, t) => .sentence (written os t)
  | .group e => e.parts.map fun (os, t) => written os t
  | .join c l r => do
    let (os, t) ← l.parts
    let (os', u) ← r.parts
    return .join c (written os t) (written os' u)

/-- The operators of a term, in written order, and its noun position. -/
def Phrase.parts : Phrase → Option (List Term × Term)
  | .last a => a.meaning.map ([], ·)
  | .operator a e => do
    let o ← a.meaning
    let (os, t) ← e.parts
    return (o :: os, t)

end

/-- The term that a derivation stands for. -/
def Phrase.meaning (e : Phrase) : Option Term := e.parts.map fun (os, t) => written os t

/-! ## Spelling -/

/-- The text spells the tokens, with blanks in front of each of them and at the end. -/
inductive Spaced : List (List Char) → List Char → Prop where
  | nil {blanks : List Char} (h : ∀ c ∈ blanks, isBlank c = true) : Spaced [] blanks
  | cons {blanks token text : List Char} {tokens : List (List Char)}
    (h : ∀ c ∈ blanks, isBlank c = true) (rest : Spaced tokens text) :
    Spaced (token :: tokens) (blanks ++ (token ++ text))

variable {x y : Char} {cs ds text : List Char} {k l : List (List Char)}

theorem dropWhile_blanks {blanks : List Char} (h : ∀ c ∈ blanks, isBlank c = true)
    (hx : isBlank x = false) : (blanks ++ x :: text).dropWhile isBlank = x :: text := by
  rw [List.dropWhile_append_of_pos h, List.dropWhile_cons_of_neg (by simp [hx])]

/-- What spells a token is the token, behind the leading blanks. -/
theorem spaced_cons_iff (hx : isBlank x = false) :
    Spaced ((x :: cs) :: k) text ↔
      ∃ rest, text.dropWhile isBlank = x :: (cs ++ rest) ∧ Spaced k rest := by
  constructor
  · intro h
    cases h with
    | cons hblanks rest => exact ⟨_, dropWhile_blanks hblanks hx, rest⟩
  · rintro ⟨rest, htext, hrest⟩
    have hsplit : text = text.takeWhile isBlank ++ (x :: cs ++ rest) := by
      rw [List.cons_append, ← htext, List.takeWhile_append_dropWhile]
    rw [hsplit]
    exact .cons (fun c hc => List.mem_takeWhile_imp hc) hrest

/-- What spells no token is blank. -/
theorem spaced_nil_iff : Spaced [] text ↔ text.dropWhile isBlank = [] := by
  rw [List.dropWhile_eq_nil_iff]
  constructor
  · intro h
    cases h with
    | nil hblanks => exact hblanks
  · exact .nil

theorem isBlank_eq_false_of_isDigit (h : x.isDigit = true) : isBlank x = false := by
  simp only [isBlank, Bool.or_eq_false_iff, beq_eq_false_iff_ne]
  refine ⟨⟨⟨⟨?_, ?_⟩, ?_⟩, ?_⟩, ?_⟩ <;> (rintro rfl; revert h; decide)

/-- A run of digits ends in front of a character that is no digit. -/
theorem span_digits {digits rest : List Char} (hdigits : ∀ c ∈ digits, c.isDigit = true)
    (hrest : ∀ c ∈ rest.head?, c.isDigit = false) :
    (digits ++ rest).takeWhile Char.isDigit = digits ∧
      (digits ++ rest).dropWhile Char.isDigit = rest := by
  rw [List.takeWhile_append_of_pos hdigits, List.dropWhile_append_of_pos hdigits]
  cases rest with
  | nil => simp
  | cons c rest => simp [hrest c rfl]

/-- What spells a token that does not begin with a digit does not begin with a digit. -/
theorem Spaced.head_not_isDigit (h : Spaced ((x :: cs) :: k) text) (hx : x.isDigit = false) :
    ∀ c ∈ text.head?, c.isDigit = false := by
  intro c hc
  cases h with
  | @cons blanks _ rest _ hblanks _ =>
    cases blanks with
    | nil =>
      have heq : x = c := by simpa using hc
      rw [← heq]
      exact hx
    | cons b blanks =>
      have heq : b = c := by simpa using hc
      have hb : isBlank b = true := hblanks b List.mem_cons_self
      rw [← heq]
      by_contra hdigit
      rw [isBlank_eq_false_of_isDigit (by simpa using hdigit)] at hb
      cases hb

/-- The digits of a number are all the digits there, and what follows them spells the rest. -/
theorem Spaced.numeral {n : Numeral} (h : Spaced (n.digits :: (x :: cs) :: k) text)
    (hx : x.isDigit = false) :
    (text.dropWhile isBlank).takeWhile Char.isDigit = n.digits ∧
      Spaced ((x :: cs) :: k) ((text.dropWhile isBlank).dropWhile Char.isDigit) := by
  obtain ⟨d, ds, hds⟩ := List.exists_cons_of_ne_nil n.ne_nil
  have hd : isBlank d = false := isBlank_eq_false_of_isDigit (n.isDigit d (by simp [hds]))
  rw [hds] at h
  obtain ⟨rest, htext, hrest⟩ := (spaced_cons_iff hd).1 h
  rw [← List.cons_append, ← hds] at htext
  obtain ⟨htake, hdrop⟩ := span_digits n.isDigit (hrest.head_not_isDigit hx)
  rw [htext, htake, hdrop]
  exact ⟨rfl, hrest⟩

/-! ## One derivation at most -/

/-- One text that spells the same token first spells the rest with the same text. -/
theorem Spaced.tail (hx : isBlank x = false) (h : Spaced ((x :: cs) :: k) text)
    (h' : Spaced ((x :: cs) :: l) text) : ∃ rest, Spaced k rest ∧ Spaced l rest := by
  obtain ⟨rest, htext, hrest⟩ := (spaced_cons_iff hx).1 h
  obtain ⟨rest', htext', hrest'⟩ := (spaced_cons_iff hx).1 h'
  have heq : cs ++ rest = cs ++ rest' := by
    rw [htext] at htext'
    exact (List.cons.inj htext').2
  rw [List.append_cancel_left heq] at hrest
  exact ⟨rest', hrest, hrest'⟩

/-- One text spells tokens with the same first character first. -/
theorem Spaced.head_eq (hx : isBlank x = false) (hy : isBlank y = false)
    (h : Spaced ((x :: cs) :: k) text) (h' : Spaced ((y :: ds) :: l) text) : x = y := by
  obtain ⟨rest, htext, _⟩ := (spaced_cons_iff hx).1 h
  obtain ⟨rest', htext', _⟩ := (spaced_cons_iff hy).1 h'
  rw [htext] at htext'
  exact (List.cons.inj htext').1

theorem Numeral.ext {n m : Numeral} (h : n.digits = m.digits) : n = m := by
  cases n; cases m; cases h; rfl

/-- One text that spells a number first, and then a token that begins with no digit, spells the
rest with the same text. -/
theorem Spaced.numeral_eq {n m : Numeral} (hx : x.isDigit = false) (hy : y.isDigit = false)
    (h : Spaced (n.digits :: (x :: cs) :: k) text) (h' : Spaced (m.digits :: (y :: ds) :: l) text) :
    n = m ∧ ∃ rest, Spaced ((x :: cs) :: k) rest ∧ Spaced ((y :: ds) :: l) rest := by
  obtain ⟨hdigits, hrest⟩ := h.numeral hx
  obtain ⟨hdigits', hrest'⟩ := h'.numeral hy
  exact ⟨Numeral.ext (hdigits.symm.trans hdigits'), _, hrest, hrest'⟩

/-- No atom begins with the first of the tokens. -/
inductive Stops : List (List Char) → Prop where
  | nil : Stops []
  | cons {x : Char} {cs : List Char} {k : List (List Char)} (hx : isBlank x = false)
    (hstart : startsAtom x = false) : Stops ((x :: cs) :: k)

theorem stops_token (c : Connective) : Stops (token c :: k) := by
  cases c <;> exact .cons rfl rfl

/-- What spells the tokens does so behind its leading blanks, and no atom begins there. -/
theorem Stops.spaced (hk : Stops k) (h : Spaced k text) :
    Spaced k (text.dropWhile isBlank) ∧ (text.dropWhile isBlank).head?.any startsAtom = false := by
  cases hk with
  | nil =>
    rw [spaced_nil_iff.1 h]
    exact ⟨spaced_nil_iff.2 rfl, rfl⟩
  | @cons x cs _ hx hstart =>
    obtain ⟨rest, htext, hrest⟩ := (spaced_cons_iff hx).1 h
    have hdrop : (x :: (cs ++ rest)).dropWhile isBlank = x :: (cs ++ rest) :=
      List.dropWhile_cons_of_neg (by simp [hx])
    rw [htext]
    exact ⟨(spaced_cons_iff hx).2 ⟨rest, hdrop, hrest⟩, hstart⟩

/-- The first character of an atom. -/
def Atom.initial : Atom → Char
  | .noun _ => 'N'
  | .adj _ => 'A'
  | .fuse .. => 'F'
  | .sentence _ => '['
  | .group _ | .join .. => '('

theorem Atom.tokens_eq (a : Atom) : ∃ cs k, a.tokens = (a.initial :: cs) :: k := by
  cases a <;> exact ⟨_, _, rfl⟩

theorem Atom.startsAtom_initial (a : Atom) : startsAtom a.initial = true := by
  cases a <;> rfl

theorem Atom.isBlank_initial (a : Atom) : isBlank a.initial = false := by
  cases a <;> rfl

/-- What spells an atom begins with its first character. -/
theorem Atom.head_of_spaced {a : Atom} (h : Spaced (a.tokens ++ k) text) :
    (text.dropWhile isBlank).head? = some a.initial := by
  obtain ⟨cs, l, hl⟩ := a.tokens_eq
  rw [hl] at h
  obtain ⟨rest, htext, _⟩ := (spaced_cons_iff a.isBlank_initial).1 h
  rw [htext]
  rfl

theorem Phrase.starts_of_spaced {e : Phrase} (h : Spaced (e.tokens ++ k) text) :
    (text.dropWhile isBlank).head?.any startsAtom = true := by
  have hhead : ∃ a : Atom, (text.dropWhile isBlank).head? = some a.initial := by
    cases e with
    | last a => exact ⟨a, Atom.head_of_spaced h⟩
    | operator a e =>
      rw [Phrase.tokens, List.append_assoc] at h
      exact ⟨a, Atom.head_of_spaced h⟩
  obtain ⟨a, ha⟩ := hhead
  rw [ha]
  exact a.startsAtom_initial

theorem not_stops_of_spaced {e : Phrase} (h : Spaced (e.tokens ++ k) text) (hl : Spaced l text) :
    ¬ Stops l := by
  intro hstops
  have hstart := Phrase.starts_of_spaced h
  rw [(hstops.spaced hl).2] at hstart
  cases hstart

/-- One text spells one number as an argument. -/
theorem Spaced.argument_eq {n m : Numeral} (h : Spaced (['('] :: n.digits :: [')'] :: k) text)
    (h' : Spaced (['('] :: m.digits :: [')'] :: l) text) :
    n = m ∧ ∃ rest, Spaced k rest ∧ Spaced l rest := by
  obtain ⟨_, h, h'⟩ := h.tail rfl h'
  obtain ⟨hn, _, h, h'⟩ := Spaced.numeral_eq rfl rfl h h'
  exact ⟨hn, h.tail rfl h'⟩

/-- One text spells one connective. -/
theorem Spaced.token_eq {c d : Connective} (h : Spaced (token c :: k) text)
    (h' : Spaced (token d :: l) text) : c = d ∧ ∃ rest, Spaced k rest ∧ Spaced l rest := by
  cases c <;> cases d
  · exact ⟨rfl, h.tail rfl h'⟩
  · exact absurd (h.head_eq rfl rfl h') (by decide)
  · exact absurd (h.head_eq rfl rfl h') (by decide)
  · exact ⟨rfl, h.tail rfl h'⟩

/-- No text spells both a closing bracket and a connective first. -/
theorem Spaced.closing_ne_token {c : Connective} (h : Spaced ([')'] :: k) text)
    (h' : Spaced (token c :: l) text) : False := by
  cases c <;> exact absurd (h.head_eq rfl rfl h') (by decide)

mutual

/-- A text begins with at most one atom. -/
theorem Atom.eq_of_spaced (a b : Atom) (k l : List (List Char)) (text : List Char)
    (h : Spaced (a.tokens ++ k) text) (h' : Spaced (b.tokens ++ l) text) :
    a = b ∧ ∃ rest, Spaced k rest ∧ Spaced l rest := by
  have hinitial : a.initial = b.initial := by
    have ha := Atom.head_of_spaced h
    rw [Atom.head_of_spaced h'] at ha
    exact (Option.some.inj ha).symm
  match a with
  | .noun n =>
    cases b with
    | noun m =>
      obtain ⟨_, h, h'⟩ := h.tail rfl h'
      obtain ⟨rfl, hrest⟩ := h.argument_eq h'
      exact ⟨rfl, hrest⟩
    | adj | fuse | sentence | group | join => simp [Atom.initial] at hinitial
  | .adj n =>
    cases b with
    | adj m =>
      obtain ⟨_, h, h'⟩ := h.tail rfl h'
      obtain ⟨rfl, hrest⟩ := h.argument_eq h'
      exact ⟨rfl, hrest⟩
    | noun | fuse | sentence | group | join => simp [Atom.initial] at hinitial
  | .fuse p q r =>
    cases b with
    | fuse p' q' r' =>
      obtain ⟨_, h, h'⟩ := h.tail rfl h'
      obtain ⟨_, h, h'⟩ := h.tail rfl h'
      obtain ⟨rfl, _, h, h'⟩ := Spaced.numeral_eq rfl rfl h h'
      obtain ⟨_, h, h'⟩ := h.tail rfl h'
      obtain ⟨rfl, _, h, h'⟩ := Spaced.numeral_eq rfl rfl h h'
      obtain ⟨_, h, h'⟩ := h.tail rfl h'
      obtain ⟨rfl, _, h, h'⟩ := Spaced.numeral_eq rfl rfl h h'
      exact ⟨rfl, h.tail rfl h'⟩
    | noun | adj | sentence | group | join => simp [Atom.initial] at hinitial
  | .sentence e =>
    cases b with
    | sentence e' =>
      rw [Atom.tokens_sentence_append] at h h'
      obtain ⟨_, h, h'⟩ := h.tail rfl h'
      obtain ⟨rfl, _, h, h'⟩ :=
        Phrase.eq_of_spaced e e' _ _ _ (.cons rfl rfl) (.cons rfl rfl) h h'
      exact ⟨rfl, h.tail rfl h'⟩
    | noun | adj | fuse | group | join => simp [Atom.initial] at hinitial
  | .group e =>
    cases b with
    | group e' =>
      rw [Atom.tokens_group_append] at h h'
      obtain ⟨_, h, h'⟩ := h.tail rfl h'
      obtain ⟨rfl, _, h, h'⟩ :=
        Phrase.eq_of_spaced e e' _ _ _ (.cons rfl rfl) (.cons rfl rfl) h h'
      exact ⟨rfl, h.tail rfl h'⟩
    | join c l' r' =>
      rw [Atom.tokens_group_append] at h
      rw [Atom.tokens_join_append] at h'
      obtain ⟨_, h, h'⟩ := h.tail rfl h'
      obtain ⟨_, _, h, h'⟩ :=
        Phrase.eq_of_spaced e l' _ _ _ (.cons rfl rfl) (stops_token c) h h'
      exact (h.closing_ne_token h').elim
    | noun | adj | fuse | sentence => simp [Atom.initial] at hinitial
  | .join c l r =>
    cases b with
    | group e' =>
      rw [Atom.tokens_join_append] at h
      rw [Atom.tokens_group_append] at h'
      obtain ⟨_, h, h'⟩ := h.tail rfl h'
      obtain ⟨_, _, h, h'⟩ :=
        Phrase.eq_of_spaced l e' _ _ _ (stops_token c) (.cons rfl rfl) h h'
      exact (h'.closing_ne_token h).elim
    | join d l' r' =>
      rw [Atom.tokens_join_append] at h h'
      obtain ⟨_, h, h'⟩ := h.tail rfl h'
      obtain ⟨rfl, _, h, h'⟩ :=
        Phrase.eq_of_spaced l l' _ _ _ (stops_token c) (stops_token d) h h'
      obtain ⟨rfl, _, h, h'⟩ := h.token_eq h'
      obtain ⟨rfl, _, h, h'⟩ :=
        Phrase.eq_of_spaced r r' _ _ _ (.cons rfl rfl) (.cons rfl rfl) h h'
      exact ⟨rfl, h.tail rfl h'⟩
    | noun | adj | fuse | sentence => simp [Atom.initial] at hinitial

/-- A text begins with at most one term. -/
theorem Phrase.eq_of_spaced (e e' : Phrase) (k l : List (List Char)) (text : List Char)
    (hk : Stops k) (hl : Stops l) (h : Spaced (e.tokens ++ k) text)
    (h' : Spaced (e'.tokens ++ l) text) : e = e' ∧ ∃ rest, Spaced k rest ∧ Spaced l rest := by
  match e with
  | .last a =>
    cases e' with
    | last b =>
      obtain ⟨rfl, hrest⟩ := Atom.eq_of_spaced a b _ _ _ h h'
      exact ⟨rfl, hrest⟩
    | operator b e' =>
      rw [Phrase.tokens, List.append_assoc] at h'
      obtain ⟨_, rest, h, h'⟩ := Atom.eq_of_spaced a b _ _ _ h h'
      exact absurd hk (not_stops_of_spaced h' h)
  | .operator a e =>
    rw [Phrase.tokens, List.append_assoc] at h
    cases e' with
    | last b =>
      obtain ⟨_, rest, h, h'⟩ := Atom.eq_of_spaced a b _ _ _ h h'
      exact absurd hl (not_stops_of_spaced h h')
    | operator b e' =>
      rw [Phrase.tokens, List.append_assoc] at h'
      obtain ⟨rfl, _, h, h'⟩ := Atom.eq_of_spaced a b _ _ _ h h'
      obtain ⟨rfl, hrest⟩ := Phrase.eq_of_spaced e e' _ _ _ hk hl h h'
      exact ⟨rfl, hrest⟩

end

/-- **The grammar is unambiguous**: a text spells the tokens of at most one derivation. -/
theorem Phrase.unique {e e' : Phrase} (h : Spaced e.tokens text) (h' : Spaced e'.tokens text) :
    e = e' := by
  rw [← List.append_nil e.tokens] at h
  rw [← List.append_nil e'.tokens] at h'
  exact (Phrase.eq_of_spaced e e' [] [] text .nil .nil h h').1

end Grammar

end PrimeLanguage
