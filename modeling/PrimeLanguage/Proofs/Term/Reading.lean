import PrimeLanguage.Term.Parse
import PrimeLanguage.Proofs.Results

/-!
# What readers answer

A reader proves with every answer that it has read something.  `Reader.run` forgets that proof; in
its terms each reader is an ordinary sequence of computations that may fail, one equation for each
reader (`run_readToken`, …, `run_readAtom`, `runAtoms_eq`, `run_readTerm`).

* `Reader.run` — the value that a reader answers and the place behind it;
* `runAtoms` — the same for the loop over the atoms of a term;
* `Cursor.built` — a value made from arguments, or its refusal at the start of the atom.

`Term.parseChars_eq` is the whole reader in these terms.
-/

namespace PrimeLanguage

variable {α β γ : Type} {c : Cursor}

/-- The value that was read and the place behind it. -/
def Parsed.view (p : Parsed α c) : α × Cursor := (p.value, p.next)

/-- What a reader answers: a value and the place behind it. -/
def Reader.run (reader : Reader α) (c : Cursor) : Except ParseError (α × Cursor) :=
  (reader c).map Parsed.view

/-- A reader that answers has read something. -/
theorem Reader.remaining_of_run {reader : Reader α} {a : α} {d : Cursor}
    (h : reader.run c = .ok (a, d)) : d.remaining < c.remaining := by
  obtain ⟨p, _, hp⟩ := map_eq_ok_iff.1 h
  cases hp
  exact p.shorter

/-- The answer `made` for what has been read up to `d`; a refusal is a fault at `start`. -/
def Cursor.built (start d : Cursor) (made : Except InvalidPrime Term) :
    Except ParseError (Term × Cursor) :=
  match made with
  | .error e => start.fail (.invalid e)
  | .ok t => .ok (t, d)

/-! ## Blanks -/

namespace Cursor

theorem skipBlanks_rest (c : Cursor) : c.skipBlanks.rest = c.rest.dropWhile isBlank := rfl

theorem skipBlanks_of_head {x : Char} {text : List Char} {p : Nat} (h : isBlank x = false) :
    (Cursor.mk p (x :: text)).skipBlanks = ⟨p, x :: text⟩ := by
  simp [skipBlanks, skip, h]

theorem skipBlanks_of_blank {x : Char} {text : List Char} {p : Nat} (h : isBlank x = true) :
    (Cursor.mk p (x :: text)).skipBlanks = (Cursor.mk (p + 1) text).skipBlanks := by
  simp only [skipBlanks, skip, List.takeWhile_cons_of_pos h, List.dropWhile_cons_of_pos h,
    List.length_cons]
  congr 1
  omega

/-- Blanks are skipped once. -/
@[simp] theorem skipBlanks_skipBlanks (c : Cursor) : c.skipBlanks.skipBlanks = c.skipBlanks := by
  cases h : c.rest.dropWhile isBlank with
  | nil => simp [skipBlanks, skip, h]
  | cons x text =>
    have hx : isBlank x = false := by
      have hhead := List.head?_dropWhile_not isBlank c.rest
      rwa [h] at hhead
    have hcursor : c.skipBlanks = ⟨c.skipBlanks.position, x :: text⟩ := by
      rw [← h]
      rfl
    rw [hcursor, skipBlanks_of_head hx]

end Cursor

/-! ## Views of sequences -/

section View

variable {d : Cursor}

theorem view_bind {x : Except ParseError (Parsed α c)}
    {f : Parsed α c → Except ParseError (Parsed β d)}
    {g : α × Cursor → Except ParseError (β × Cursor)} (h : ∀ p, (f p).map Parsed.view = g p.view) :
    (x >>= f).map Parsed.view = x.map Parsed.view >>= g := by
  cases x with
  | error err => rfl
  | ok p => exact h p

theorem view_andThen (p : Parsed α c) (reader : Reader β) (f : α → β → γ) :
    (p.andThen reader f).map Parsed.view =
      reader.run p.next >>= fun (b, e) => .ok (f p.value b, e) := by
  unfold Parsed.andThen Reader.run
  cases reader p.next <;> rfl

theorem view_build (p : Parsed α c) (start : Cursor) (make : α → Except InvalidPrime Term) :
    (p.build start make).map Parsed.view = start.built p.next (make p.value) := by
  unfold Parsed.build Cursor.built
  cases make p.value <;> rfl

end View

/-! ## Tokens and integers -/

theorem run_readToken (token : Char) (c : Cursor) :
    (readToken token).run c =
      if c.skipBlanks.rest.head? = some token then .ok ((), c.skipBlanks.advance 1)
      else c.skipBlanks.fail (.expectedToken token) := by
  unfold Reader.run readToken
  split
  · rename_i t text h
    have hhead : c.skipBlanks.rest.head? = some token ↔ t = token := by simp [h]
    by_cases ht : t = token
    · rw [if_pos ht, if_pos (hhead.2 ht)]
      rfl
    · rw [if_neg ht, if_neg (mt hhead.1 ht)]
      rfl
  · rename_i h
    have hhead : c.skipBlanks.rest.head? ≠ some token := by simp [h]
    rw [if_neg hhead]
    rfl

theorem run_readInteger (c : Cursor) :
    readInteger.run c =
      if c.skipBlanks.rest.takeWhile Char.isDigit = [] then c.skipBlanks.fail .expectedInteger
      else
        match readDigits 0 (c.skipBlanks.rest.takeWhile Char.isDigit) with
        | .error _ => c.skipBlanks.fail (.outOfRange (c.skipBlanks.rest.takeWhile Char.isDigit))
        | .ok n => .ok (n, c.skipBlanks.skip Char.isDigit) := by
  unfold Reader.run readInteger
  by_cases h : c.skipBlanks.rest.takeWhile Char.isDigit = []
  · simp only [dif_pos h, if_pos h]
    rfl
  · simp only [dif_neg h, if_neg h]
    cases readDigits 0 (c.skipBlanks.rest.takeWhile Char.isDigit) <;> rfl

/-! ## Arguments -/

theorem run_readArgument (c : Cursor) :
    readArgument.run c = do
      let (_, d) ← (readToken '(').run c
      let (n, d) ← readInteger.run d
      let (_, d) ← (readToken ')').run d
      return (n, d) := by
  unfold readArgument
  refine view_bind fun opened => ?_
  rw [view_bind (g := fun (n, d) => (readToken ')').run d >>= fun (_, e) => .ok (n, e))]
  · rw [view_andThen, bind_assoc]
    rfl
  · intro n
    rw [view_andThen]
    rfl

theorem run_readTriple (c : Cursor) :
    readTriple.run c = do
      let (_, d) ← (readToken '(').run c
      let (p, d) ← readInteger.run d
      let (_, d) ← (readToken ',').run d
      let (q, d) ← readInteger.run d
      let (_, d) ← (readToken ',').run d
      let (r, d) ← readInteger.run d
      let (_, d) ← (readToken ')').run d
      return ((p, q, r), d) := by
  unfold readTriple Reader.run Parsed.andThen
  dsimp only
  rcases readToken '(' c with e | x
  · rfl
  simp only [Parsed.view, Except.map, bind, Except.bind, pure, Except.pure]
  rcases readInteger x.next with e | x
  · rfl
  dsimp only
  rcases readToken ',' x.next with e | x
  · rfl
  dsimp only
  rcases readInteger x.next with e | x
  · rfl
  dsimp only
  rcases readToken ',' x.next with e | x
  · rfl
  dsimp only
  rcases readInteger x.next with e | x
  · rfl
  dsimp only
  rcases readToken ')' x.next with e | x
  · rfl
  · rfl

/-! ## Atoms -/

/-- The second part of a round group: a connective and another term, if one follows. -/
def runJoin (inner : Reader Term) (left : Term) (d : Cursor) : Except ParseError (Term × Cursor) :=
  match connectiveAt? d.skipBlanks.rest with
  | none => .ok (left, d)
  | some (connective, n) => do
    let (right, d) ← inner.run (d.skipBlanks.advance n)
    return (.join connective left right, d)

theorem view_readJoin (inner : Reader Term) (left : Parsed Term c) :
    (readJoin inner left).map Parsed.view = runJoin inner left.value left.next := by
  unfold readJoin runJoin
  cases connectiveAt? left.next.skipBlanks.rest with
  | none => rfl
  | some x =>
    simp only [Parsed.andThen, Reader.run]
    cases inner (left.next.skipBlanks.advance x.2) <;> rfl

theorem run_readAtom (inner : Option (Reader Term)) (c : Cursor) :
    (readAtom inner).run c =
      let start := c.skipBlanks
      match start.rest with
      | 'F' :: 'U' :: 'S' :: 'E' :: _ => do
        let ((p, q, r), d) ← readTriple.run (start.advance 4)
        start.built d (Term.fuse p q r)
      | 'N' :: _ => do
        let (n, d) ← readArgument.run (start.advance 1)
        start.built d (Term.nounOf n)
      | 'A' :: _ => do
        let (n, d) ← readArgument.run (start.advance 1)
        start.built d (Term.adjOf n)
      | '[' :: _ =>
        match inner with
        | none => start.fail .tooDeep
        | some inner => do
          let (body, d) ← inner.run (start.advance 1)
          let (_, d) ← (readToken ']').run d
          return (.sentence body, d)
      | '(' :: _ =>
        match inner with
        | none => start.fail .tooDeep
        | some inner => do
          let (left, d) ← inner.run (start.advance 1)
          let (t, d) ← runJoin inner left d
          let (_, d) ← (readToken ')').run d
          return (t, d)
      | _ => start.fail .expectedTerm := by
  unfold Reader.run readAtom
  dsimp only
  generalize c.skipBlanks.rest = text
  split
  · refine view_bind fun args => ?_
    exact view_build ..
  · refine view_bind fun arg => ?_
    exact view_build ..
  · refine view_bind fun arg => ?_
    exact view_build ..
  · cases inner with
    | none => rfl
    | some inner =>
      refine view_bind fun body => ?_
      exact view_andThen ..
  · cases inner with
    | none => rfl
    | some inner =>
      refine view_bind fun left => ?_
      rw [view_bind (g := fun (t, d) => (readToken ')').run d >>= fun (_, e) => .ok (t, e)),
        view_readJoin]
      · rfl
      · exact fun group => view_andThen ..
  · simp only [Cursor.fail, Except.map]

/-! ## Terms -/

/-- What the loop over the atoms of a term answers. -/
def runAtoms (atom : Reader Term) (before : List Term) (last : Term) (c : Cursor) :
    Except ParseError (Term × Cursor) :=
  (readAtoms atom before last c).map fun (t, d) => (t, d.val)

theorem runAtoms_eq (atom : Reader Term) (before : List Term) (last : Term) (c : Cursor) :
    runAtoms atom before last c =
      if c.skipBlanks.rest.head?.any startsAtom then
        atom.run c.skipBlanks >>= fun (t, d) => runAtoms atom (last :: before) t d
      else .ok (Term.ofOperators before last, c.skipBlanks) := by
  unfold runAtoms
  rw [readAtoms]
  by_cases h : c.skipBlanks.rest.head?.any startsAtom = true
  · simp only [if_pos h, Reader.run]
    cases atom c.skipBlanks with
    | error e => rfl
    | ok a =>
      simp only [Except.map, Parsed.view, bind, Except.bind]
      cases readAtoms atom (last :: before) a.value a.next <;> rfl
  · simp only [if_neg h]
    rfl

theorem run_readTerm (atom : Reader Term) (c : Cursor) :
    (readTerm atom).run c = atom.run c >>= fun (t, d) => runAtoms atom [] t d := by
  unfold readTerm Reader.run runAtoms
  dsimp only
  cases atom c with
  | error e => rfl
  | ok a =>
    simp only [Except.map, Parsed.view, bind, Except.bind]
    cases readAtoms atom [] a.value a.next <;> rfl

theorem Term.parseChars_eq (text : List Char) :
    Term.parseChars text =
      (readTerm (atomReader maxNesting)).run ⟨0, text⟩ >>= fun (t, d) =>
        if d.skipBlanks.rest = [] then .ok t else d.skipBlanks.fail .trailing := by
  unfold Term.parseChars Reader.run
  cases readTerm (atomReader maxNesting) ⟨0, text⟩ <;> rfl

end PrimeLanguage
