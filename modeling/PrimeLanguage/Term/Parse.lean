import PrimeLanguage.Term.Print

/-!
# Reading terms

```
term  := atom+                      one atom, or operators and then a noun position
atom  := "N(" int ")" | "A(" int ")" | "FUSE(" int "," int "," int ")"
       | "[" term "]"
       | "(" term ")" | "(" term ";" term ")" | "(" term "=>" term ")"
```

Blanks may stand between tokens.  Groups nest at most `maxNesting` deep.  An integer is a word in
decimal digits.

* `Cursor` — a position in the text and what is left of it;
* `Parsed` — a value together with the cursor behind it, with the proof that something was read;
* `readAtom` — one atom, given a reader for what stands inside a group, or none when no further
  group may be opened;
* `Term.parse` — a whole text.

Everything that is read before an error is ASCII, so the number of characters in front of a
position is also its byte offset.
-/

namespace PrimeLanguage

/-- How deep groups may nest. -/
def maxNesting : Nat := 256

/-- What is wrong at a place of a text. -/
inductive ParseFault where
  | expectedTerm
  | expectedToken (token : Char)
  | expectedInteger
  | outOfRange (digits : List Char)
  | tooDeep
  | trailing
  | invalid (e : InvalidPrime)
  deriving DecidableEq, Repr

def ParseFault.message : ParseFault → String
  | .expectedTerm => "expected a term"
  | .expectedToken token => s!"expected '{token}'"
  | .expectedInteger => "expected an integer"
  | .outOfRange digits => s!"integer {String.ofList digits} is out of range"
  | .tooDeep => s!"groups nested deeper than {maxNesting}"
  | .trailing => "unexpected trailing input"
  | .invalid e => e.message

/-- A fault and its place. -/
structure ParseError where
  position : Nat
  fault : ParseFault
  deriving DecidableEq, Repr

def ParseError.message (e : ParseError) : String :=
  s!"parse error at byte {e.position}: {e.fault.message}"

/-- The characters that may stand between tokens. -/
def isBlank (c : Char) : Bool :=
  c == ' ' || c == '\t' || c == '\n' || c == '\x0c' || c == '\r'

/-- The characters with which an atom may begin. -/
def startsAtom (c : Char) : Bool :=
  c == 'N' || c == 'A' || c == 'F' || c == '[' || c == '('

/-- A place in a text. -/
structure Cursor where
  position : Nat
  rest : List Char

namespace Cursor

/-- How much text is left. -/
def remaining (c : Cursor) : Nat := c.rest.length

/-- The place `n` characters further on. -/
def advance (n : Nat) (c : Cursor) : Cursor := ⟨c.position + n, c.rest.drop n⟩

/-- The place behind the leading characters that satisfy `p`. -/
def skip (p : Char → Bool) (c : Cursor) : Cursor :=
  ⟨c.position + (c.rest.takeWhile p).length, c.rest.dropWhile p⟩

def skipBlanks (c : Cursor) : Cursor := c.skip isBlank

/-- A fault at this place. -/
def fail {α : Type} (c : Cursor) (fault : ParseFault) : Except ParseError α :=
  .error ⟨c.position, fault⟩

theorem remaining_skip (p : Char → Bool) (c : Cursor) : (c.skip p).remaining ≤ c.remaining := by
  simp only [remaining, skip]
  exact (List.dropWhile_suffix p).length_le

theorem remaining_skipBlanks (c : Cursor) : c.skipBlanks.remaining ≤ c.remaining :=
  c.remaining_skip isBlank

theorem remaining_advance (n : Nat) (c : Cursor) :
    (c.advance n).remaining = c.remaining - n := by
  simp [remaining, advance]

theorem remaining_behind (c : Cursor) (n : Nat) :
    (c.skipBlanks.advance n).remaining ≤ c.remaining := by
  rw [remaining_advance]
  exact Nat.le_trans (Nat.sub_le _ _) c.remaining_skipBlanks

end Cursor

/-- A value read from `c`, and the place behind it. -/
structure Parsed (α : Type) (c : Cursor) where
  value : α
  next : Cursor
  shorter : next.remaining < c.remaining

/-- A reader: reads a value at a place, or says what is wrong. -/
abbrev Reader (α : Type) := (c : Cursor) → Except ParseError (Parsed α c)

/-- Reads one token, after blanks. -/
def readToken (token : Char) : Reader Unit := fun c =>
  match h : c.skipBlanks.rest with
  | t :: _ =>
    if t = token then
      .ok ⟨(), c.skipBlanks.advance 1, by
        have := c.remaining_skipBlanks
        have : 0 < c.skipBlanks.remaining := by simp [Cursor.remaining, h]
        rw [Cursor.remaining_advance]; omega⟩
    else c.skipBlanks.fail (.expectedToken token)
  | [] => c.skipBlanks.fail (.expectedToken token)

/-- Reads a word in decimal digits, after blanks. -/
def readInteger : Reader Nat := fun c =>
  let start := c.skipBlanks
  let digits := start.rest.takeWhile Char.isDigit
  if h : digits = [] then start.fail .expectedInteger
  else
    match readDigits 0 digits with
    | .error _ => start.fail (.outOfRange digits)
    | .ok n =>
      .ok ⟨n, start.skip Char.isDigit, by
        have hs : start.remaining ≤ c.remaining := c.remaining_skipBlanks
        have hd : start.rest = digits ++ start.rest.dropWhile Char.isDigit :=
          (List.takeWhile_append_dropWhile).symm
        have hl := congrArg List.length hd
        have : 0 < digits.length := List.length_pos_iff.2 h
        simp only [List.length_append] at hl
        simp only [Cursor.remaining, Cursor.skip] at *
        omega⟩

namespace Parsed

/-- What was read after something else has been read from `c`. -/
def after {α : Type} {c d : Cursor} (p : Parsed α d) (h : d.remaining ≤ c.remaining) :
    Parsed α c :=
  ⟨p.value, p.next, Nat.lt_of_lt_of_le p.shorter h⟩

/-- Goes on reading behind `p`. -/
def andThen {α β γ : Type} {c : Cursor} (p : Parsed α c) (reader : Reader β) (f : α → β → γ) :
    Except ParseError (Parsed γ c) :=
  match reader p.next with
  | .error e => .error e
  | .ok q => .ok ⟨f p.value q.value, q.next, Nat.lt_trans q.shorter p.shorter⟩

/-- The same place, another value. -/
def map {α β : Type} {c : Cursor} (f : α → β) (p : Parsed α c) : Parsed β c :=
  ⟨f p.value, p.next, p.shorter⟩

end Parsed

/-- Reads `(n)`. -/
def readArgument : Reader Nat := fun c => do
  let opened ← readToken '(' c
  let n ← opened.andThen readInteger fun _ n => n
  n.andThen (readToken ')') fun n _ => n

/-- Reads `(p,q,r)`. -/
def readTriple : Reader (Nat × Nat × Nat) := fun c => do
  let opened ← readToken '(' c
  let p ← opened.andThen readInteger fun _ p => p
  let p ← p.andThen (readToken ',') fun p _ => p
  let pq ← p.andThen readInteger Prod.mk
  let pq ← pq.andThen (readToken ',') fun pq _ => pq
  let pqr ← pq.andThen readInteger fun (p, q) r => (p, q, r)
  pqr.andThen (readToken ')') fun pqr _ => pqr

/-- What was read as arguments, made into a term; a refusal is a fault at `start`. -/
def Parsed.build {α : Type} {c : Cursor} (p : Parsed α c) (start : Cursor)
    (make : α → Except InvalidPrime Term) : Except ParseError (Parsed Term c) :=
  match make p.value with
  | .error e => start.fail (.invalid e)
  | .ok t => .ok (p.map fun _ => t)

/-- The connective at the front of a text, and how many characters it takes. -/
def connectiveAt? : List Char → Option (Connective × Nat)
  | ';' :: _ => some (.seq, 1)
  | '=' :: '>' :: _ => some (.imp, 2)
  | _ => none

/-- Reads what may follow the first term of a round group: a connective and another term. -/
def readJoin (inner : Reader Term) {c : Cursor} (left : Parsed Term c) :
    Except ParseError (Parsed Term c) :=
  match connectiveAt? left.next.skipBlanks.rest with
  | none => .ok left
  | some (connective, n) =>
    left.andThen (fun d => (inner (d.skipBlanks.advance n)).map (·.after (d.remaining_behind n)))
      (.join connective)

/-- Reads one atom, after blanks.  `inner` reads what stands inside a group; without it no group
may be opened. -/
def readAtom (inner : Option (Reader Term)) : Reader Term := fun c =>
  let start := c.skipBlanks
  match start.rest with
  | 'F' :: 'U' :: 'S' :: 'E' :: _ => do
    let args ← readTriple (start.advance 4)
    let args := args.after (c.remaining_behind 4)
    args.build start fun (p, q, r) => Term.fuse p q r
  | 'N' :: _ => do
    let arg ← readArgument (start.advance 1)
    let arg := arg.after (c.remaining_behind 1)
    arg.build start Term.nounOf
  | 'A' :: _ => do
    let arg ← readArgument (start.advance 1)
    let arg := arg.after (c.remaining_behind 1)
    arg.build start Term.adjOf
  | '[' :: _ =>
    match inner with
    | none => start.fail .tooDeep
    | some inner => do
      let body ← inner (start.advance 1)
      let body := body.after (c.remaining_behind 1)
      body.andThen (readToken ']') fun e _ => .sentence e
  | '(' :: _ =>
    match inner with
    | none => start.fail .tooDeep
    | some inner => do
      let left ← inner (start.advance 1)
      let left := left.after (c.remaining_behind 1)
      let group ← readJoin inner left
      group.andThen (readToken ')') fun t _ => t
  | _ => start.fail .expectedTerm

/-- Reads atoms as long as one follows.  The atoms in front of `last` are operators, the nearest
first. -/
def readAtoms (atom : Reader Term) (before : List Term) (last : Term) (c : Cursor) :
    Except ParseError (Term × { d : Cursor // d.remaining ≤ c.remaining }) :=
  let d := c.skipBlanks
  have blanks : d.remaining ≤ c.remaining := c.remaining_skipBlanks
  if d.rest.head?.any startsAtom then
    match atom d with
    | .error e => .error e
    | .ok a =>
      have := a.shorter
      match readAtoms atom (last :: before) a.value a.next with
      | .error e => .error e
      | .ok (t, ⟨d', h⟩) => .ok (t, ⟨d', by omega⟩)
  else .ok (Term.ofOperators before last, ⟨d, blanks⟩)
termination_by c.remaining

/-- Reads a term: at least one atom. -/
def readTerm (atom : Reader Term) : Reader Term := fun c =>
  match atom c with
  | .error e => .error e
  | .ok a =>
    match readAtoms atom [] a.value a.next with
    | .error e => .error e
    | .ok (t, ⟨d, h⟩) => .ok ⟨t, d, Nat.lt_of_le_of_lt h a.shorter⟩

/-- The reader of atoms in which groups may nest `n` deep. -/
def atomReader : (n : Nat) → Reader Term
  | 0 => readAtom none
  | n + 1 => readAtom (some (readTerm (atomReader n)))

namespace Term

/-- Reads a whole text as a term. -/
def parseChars (text : List Char) : Except ParseError Term :=
  match readTerm (atomReader maxNesting) ⟨0, text⟩ with
  | .error e => .error e
  | .ok p =>
    let d := p.next.skipBlanks
    if d.rest = [] then .ok p.value else d.fail .trailing

/-- Reads a whole text as a term. -/
def parse (text : String) : Except ParseError Term := parseChars text.toList

end Term

end PrimeLanguage
