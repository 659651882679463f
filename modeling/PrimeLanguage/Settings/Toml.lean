import PrimeLanguage.Settings.Toml.Scalar
import PrimeLanguage.Settings.Toml.Table

/-!
# Settings files

Settings are written in TOML: lines `key = value` with dotted and quoted keys, under headers
`[table]` and `[[array of tables]]`, with comments behind `#`.

* `Toml.readValue` — one value;
* `Toml.read` — a whole file; nothing if it is malformed or defines something twice.

Readers take the text that is left and return what is left behind them.  Values nest at most
`maxDepth` deep and a key has at most `maxDepth` parts.  Other recursion is bounded by the length of
the text, since every item of a list takes at least one character.
-/

namespace PrimeLanguage

namespace Toml

/-- How deep values nest, and how many parts a key has. -/
def maxDepth : Nat := 79

/-! ## Blanks and comments -/

/-- Skips a comment up to the end of its line. -/
def skipComment : List Char → List Char
  | '#' :: cs => cs.dropWhile fun c => !isControl c
  | cs => cs

/-- Skips spaces, a comment and the end of the line, or the end of the text. -/
def endLine (cs : List Char) : Option (List Char) :=
  match skipComment (skipSpaces cs) with
  | [] => some []
  | '\n' :: rest => some rest
  | '\r' :: '\n' :: rest => some rest
  | _ => none

/-- Skips spaces, line ends and comments, up to whatever else stands there. -/
def skipFiller (inComment : Bool) : List Char → List Char
  | [] => []
  | '\n' :: cs => skipFiller false cs
  | '\r' :: '\n' :: cs => skipFiller false cs
  | c :: cs =>
    if inComment then if isControl c then c :: cs else skipFiller true cs
    else if isSpace c then skipFiller false cs
    else if c == '#' then skipFiller true cs
    else c :: cs

/-! ## Keys -/

/-- One part of a key. -/
def readKeyPart (cs : List Char) : Option (String × List Char) :=
  match cs with
  | '"' :: cs => readString '"' [] cs
  | '\'' :: cs => readString '\'' [] cs
  | _ =>
    match cs.takeWhile isBareKey with
    | [] => none
    | name => some (String.ofList name, cs.dropWhile isBareKey)

/-- A key of at most so many parts between dots, and the spaces behind it. -/
def readKey : (parts : Nat) → List Char → Option (List String × List Char)
  | 0, _ => none
  | n + 1, cs => do
    let (part, cs) ← readKeyPart (skipSpaces cs)
    match skipSpaces cs with
    | '.' :: cs => do
      let (parts, cs) ← readKey n cs
      some (part :: parts, cs)
    | cs => some ([part], cs)

/-! ## Values -/

/-- A string of any form. -/
def readText (cs : List Char) : Option (String × List Char) :=
  match cs with
  | '"' :: '"' :: '"' :: cs => readLines '"' [] (skipLineEnd cs)
  | '\'' :: '\'' :: '\'' :: cs => readLines '\'' [] (skipLineEnd cs)
  | '"' :: cs => readString '"' [] cs
  | '\'' :: cs => readString '\'' [] cs
  | _ => none

mutual

/-- Reads one value, within which others may nest `depth` deep. -/
def readValue : (bound depth : Nat) → List Char → Option (Value × List Char)
  | 0, _, _ => none
  | n + 1, depth, cs =>
    match cs, depth with
    | '[' :: cs, depth + 1 => (readItems n depth [] cs).map fun (vs, cs) => (.array vs, cs)
    | '\x7b' :: cs, depth + 1 =>
      match skipSpaces cs with
      | '\x7d' :: cs => some (.table [], cs)
      | cs => (readInline n depth [] cs).map fun (es, cs) => (.table (entriesToValues es), cs)
    | cs, _ =>
      match readText cs with
      | some (s, cs) => some (.text s, cs)
      | none => readScalar cs

/-- Reads the items of an array up to its closing bracket. -/
def readItems : (bound depth : Nat) → (acc : List Value) → List Char →
    Option (List Value × List Char)
  | 0, _, _, _ => none
  | n + 1, depth, acc, cs =>
    match skipFiller false cs with
    | ']' :: cs => some (acc.reverse, cs)
    | cs => do
      let (v, cs) ← readValue n depth cs
      match skipFiller false cs with
      | ',' :: cs => readItems n depth (v :: acc) cs
      | ']' :: cs => some ((v :: acc).reverse, cs)
      | _ => none

/-- Reads the entries of an inline table up to its closing bracket. -/
def readInline : (bound depth : Nat) → (acc : Entries) → List Char →
    Option (Entries × List Char)
  | 0, _, _, _ => none
  | n + 1, depth, acc, cs => do
    let (keys, cs) ← readKey maxDepth cs
    match cs with
    | '=' :: cs => do
      let (v, cs) ← readValue n depth (skipSpaces cs)
      let acc ← setKey v true keys acc
      match skipSpaces cs with
      | ',' :: cs => readInline n depth acc cs
      | '\x7d' :: cs => some (acc, cs)
      | _ => none
    | _ => none

end

/-! ## Files -/

/-- Reads a header behind its first bracket: the table it names, and the entries with it. -/
def readHeader (es : Entries) (cs : List Char) : Option (List String × Entries × List Char) :=
  match cs with
  | '[' :: cs => do
    let (keys, cs) ← readKey maxDepth cs
    match cs with
    | ']' :: ']' :: cs => (appendTable keys es).map (keys, ·, cs)
    | _ => none
  | cs => do
    let (keys, cs) ← readKey maxDepth cs
    match cs with
    | ']' :: cs => (openTable keys es).map (keys, ·, cs)
    | _ => none

/-- Reads lines into the table of the current header. -/
def readFile : (bound : Nat) → (header : List String) → Entries → List Char → Option Entries
  | 0, _, _, _ => none
  | n + 1, header, es, cs =>
    match skipFiller false cs with
    | [] => some es
    | '[' :: cs => do
      let (header, es, cs) ← readHeader es cs
      readFile n header es (← endLine cs)
    | cs => do
      let (keys, cs) ← readKey maxDepth cs
      match cs with
      | '=' :: cs => do
        let (v, cs) ← readValue (cs.length + 1) maxDepth (skipSpaces cs)
        let cs ← endLine cs
        readFile n header (← setIn v keys header es) cs
      | _ => none

/-- The text behind a byte order mark, if there is one. -/
def skipMark : List Char → List Char
  | '\ufeff' :: cs => cs
  | cs => cs

/-- Reads a whole settings file as a table. -/
def read (text : String) : Option Value :=
  let cs := skipMark text.toList
  (readFile (cs.length + 1) [] [] cs).map fun es => .table (entriesToValues es)

end Toml

end PrimeLanguage
