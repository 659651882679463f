/-!
# Strings in settings files

A string stands between single or double quotes; between double quotes a backslash begins an
escape.  Three quotes begin a string of several lines: it may hold line ends, and up to two quotes
in a row; a line end right behind the opening quotes is dropped, and between double quotes a
backslash at the end of a line drops everything up to the next visible character.

* `readString` — a one-line string behind its opening quote;
* `readLines` — a string of several lines behind its opening quotes.

Readers take the text that is left and return what is left behind them.
-/

namespace PrimeLanguage

namespace Toml

/-! ## Characters -/

def isSpace (c : Char) : Bool := c == ' ' || c == '\t'

/-- Control characters may not stand in strings and comments, tabs apart. -/
def isControl (c : Char) : Bool := (c.toNat < 32 && c != '\t') || c.toNat == 127

def skipSpaces (cs : List Char) : List Char := cs.dropWhile isSpace

/-- Skips one line end, if there is one. -/
def skipLineEnd : List Char → List Char
  | '\n' :: cs => cs
  | '\r' :: '\n' :: cs => cs
  | cs => cs

/-- How many characters the spaces and line ends at the front take. -/
def blankLength : List Char → Nat
  | '\n' :: cs => blankLength cs + 1
  | '\r' :: '\n' :: cs => blankLength cs + 2
  | c :: cs => if isSpace c then blankLength cs + 1 else 0
  | [] => 0

/-! ## Escapes -/

/-- The value of a hexadecimal digit. -/
def hexValue? (c : Char) : Option Nat :=
  if c.isDigit then some (c.toNat - '0'.toNat)
  else if 'a' ≤ c ∧ c ≤ 'f' then some (c.toNat - 'a'.toNat + 10)
  else if 'A' ≤ c ∧ c ≤ 'F' then some (c.toNat - 'A'.toNat + 10)
  else none

/-- The character whose code the first `n` characters are, in hexadecimal digits. -/
def hexChar? (n : Nat) (cs : List Char) : Option Char := do
  let digits := cs.take n
  let code ← digits.foldlM (fun code c => (hexValue? c).map (16 * code + ·)) 0
  if digits.length = n ∧ code.isValidChar then some (Char.ofNat code) else none

/-- The character that an escape stands for, and how many characters it takes behind its
backslash. -/
def escape? : List Char → Option (Char × Nat)
  | 'b' :: _ => some ('\x08', 1)
  | 't' :: _ => some ('\t', 1)
  | 'n' :: _ => some ('\n', 1)
  | 'f' :: _ => some ('\x0c', 1)
  | 'r' :: _ => some ('\r', 1)
  | '"' :: _ => some ('"', 1)
  | '\\' :: _ => some ('\\', 1)
  | 'u' :: cs => (hexChar? 4 cs).map (·, 5)
  | 'U' :: cs => (hexChar? 8 cs).map (·, 9)
  | _ => none

/-- Whether a quote is one behind which escapes are read. -/
def hasEscapes (quote : Char) : Bool := quote == '"'

/-! ## Strings -/

/-- The rest of a one-line string, up to its closing quote. -/
def readString (quote : Char) (acc : List Char) : List Char → Option (String × List Char)
  | [] => none
  | c :: cs =>
    if c == quote then some (String.ofList acc.reverse, cs)
    else if c == '\\' && hasEscapes quote then
      match escape? cs with
      | some (x, n) => readString quote (x :: acc) (cs.drop n)
      | none => none
    else if isControl c then none
    else readString quote (c :: acc) cs
termination_by cs => cs.length
decreasing_by all_goals (simp; try omega)

/-- The rest of a string of several lines, up to its closing quotes. -/
def readLines (quote : Char) (acc : List Char) : List Char → Option (String × List Char)
  | [] => none
  | c :: cs =>
    if c == quote && cs.take 2 == [quote, quote] then
      let more := ((cs.drop 2).take 2).takeWhile (· == quote)
      some (String.ofList (more ++ acc).reverse, cs.drop (2 + more.length))
    else if c == '\\' && hasEscapes quote then
      let spaces := (cs.takeWhile isSpace).length
      if spaces < blankLength cs then readLines quote acc (cs.drop (blankLength cs))
      else
        match escape? cs with
        | some (x, n) => readLines quote (x :: acc) (cs.drop n)
        | none => none
    else if c == '\n' then readLines quote ('\n' :: acc) cs
    else if c == '\r' && cs.head? == some '\n' then readLines quote ('\n' :: acc) (cs.drop 1)
    else if isControl c then none
    else readLines quote (c :: acc) cs
termination_by cs => cs.length
decreasing_by all_goals (simp; try omega)

end Toml

end PrimeLanguage
