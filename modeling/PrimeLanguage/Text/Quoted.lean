import PrimeLanguage.Text.Printable

/-!
# Quoted text

`quoted s` shows a text between quotes.  The quote and the backslash are escaped, line ends, tabs
and the null character have escapes of their own, and any other character that is not printable
is written by its code in braces.
-/

namespace PrimeLanguage

/-- The form of a character in a quoted text. -/
def quotedChar (c : Char) : List Char :=
  if c == '"' then ['\\', '"']
  else if c == '\\' then ['\\', '\\']
  else if c == '\n' then ['\\', 'n']
  else if c == '\t' then ['\\', 't']
  else if c == '\r' then ['\\', 'r']
  else if c == '\x00' then ['\\', '0']
  else if isPrintable c then [c]
  else ['\\', 'u', '\x7b'] ++ Nat.toDigits 16 c.toNat ++ ['\x7d']

/-- A text in quotes. -/
def quoted (s : String) : String := "\"" ++ String.ofList (s.toList.flatMap quotedChar) ++ "\""

end PrimeLanguage
