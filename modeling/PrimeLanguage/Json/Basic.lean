/-!
# JSON documents

`Json` is what the programs print: booleans, natural numbers, strings, arrays and objects.
`Json.pretty` indents by two blanks and writes the keys of every object in the order of strings.
In strings only the quote, the backslash and control characters below a blank are escaped
(`escapeChar`).
-/

namespace PrimeLanguage

/-- A JSON document. -/
inductive Json where
  | null
  | boolean (b : Bool)
  | number (n : Nat)
  | text (s : String)
  | array (items : List Json)
  | object (fields : List (String × Json))

namespace Json

/-- The escaped form of a character in a string. -/
def escapeChar (c : Char) : List Char :=
  if c == '"' then ['\\', '"']
  else if c == '\\' then ['\\', '\\']
  else if c == '\n' then ['\\', 'n']
  else if c == '\t' then ['\\', 't']
  else if c == '\r' then ['\\', 'r']
  else if c == '\x08' then ['\\', 'b']
  else if c == '\x0c' then ['\\', 'f']
  else if c.toNat < 16 then "\\u000".toList ++ Nat.toDigits 16 c.toNat
  else if c.toNat < 32 then "\\u00".toList ++ Nat.toDigits 16 c.toNat
  else [c]

/-- A string in quotes. -/
def quote (s : String) : String :=
  "\"" ++ String.ofList (s.toList.flatMap escapeChar) ++ "\""

/-- Fields in the order of their keys. -/
def sortFields {α : Type} (fields : List (String × α)) : List (String × α) :=
  fields.mergeSort fun a b => decide (a.1 ≤ b.1)

/-- A line break, and the blanks in front of a line at a depth. -/
def newline (depth : Nat) : String := "\n".pushn ' ' (2 * depth)

/-- Parts between brackets, each on a line of its own at one more than `depth`. -/
def block (opening closing : String) (depth : Nat) (parts : List String) : String :=
  if parts.isEmpty then opening ++ closing
  else
    opening ++ newline (depth + 1) ++ ("," ++ newline (depth + 1)).intercalate parts ++
      newline depth ++ closing

mutual

/-- The text of a document that stands at a depth. -/
def prettyAt (depth : Nat) : Json → String
  | .null => "null"
  | .boolean b => if b then "true" else "false"
  | .number n => toString n
  | .text s => quote s
  | .array items => block "[" "]" depth (prettyItems (depth + 1) items)
  | .object fields =>
    let parts := sortFields (prettyFields (depth + 1) fields)
    block "\x7b" "\x7d" depth (parts.map fun (key, value) => quote key ++ ": " ++ value)

/-- The texts of the items of an array. -/
def prettyItems (depth : Nat) : List Json → List String
  | [] => []
  | j :: js => prettyAt depth j :: prettyItems depth js

/-- The keys of an object with the texts of their values. -/
def prettyFields (depth : Nat) : List (String × Json) → List (String × String)
  | [] => []
  | (key, j) :: fs => (key, prettyAt depth j) :: prettyFields depth fs

end

/-- The indented text of a document. -/
def pretty (j : Json) : String := prettyAt 0 j

end Json

end PrimeLanguage
