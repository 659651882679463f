import PrimeLanguage.Settings.Value
import PrimeLanguage.Settings.Toml.Quoted

/-!
# Numbers, keywords, dates and times in settings files

* integers — decimal with an optional sign and without leading zeros, or behind `0x`, `0o`, `0b`;
  they have to be signed words;
* floating-point numbers — with a fraction, an exponent or both, also `inf` and `nan`;
* `true` and `false`;
* dates, times, and both together; they are checked but their value is not kept.

Single underscores may stand between digits.
-/

namespace PrimeLanguage

namespace Toml

/-! ## Digits -/

/-- Groups of digits between single underscores. -/
def digitGroups? (isDigit : Char → Bool) (cs : List Char) : Option (List Char) :=
  let groups := cs.splitOn '_'
  if groups.all fun g => !g.isEmpty && g.all isDigit then some groups.flatten else none

/-- A sign, and what follows it. -/
def splitSign : List Char → Bool × List Char
  | '-' :: cs => (true, cs)
  | '+' :: cs => (false, cs)
  | cs => (false, cs)

/-- A number in a base, for its digits. -/
def ofBase (base : Nat) (digits : List Char) : Nat :=
  digits.foldl (fun n c => base * n + (hexValue? c).getD 0) 0

/-! ## Numbers -/

/-- The integers that settings hold: signed words. -/
def integer? (negative : Bool) (n : Nat) : Option Value :=
  if negative then
    if n ≤ 9223372036854775808 then some (.integer (-(n : Int))) else none
  else
    if n < 9223372036854775808 then some (.integer n) else none

/-- The digits of a decimal integer: no zero in front of others. -/
def decimalDigits? (cs : List Char) : Option (List Char) := do
  let digits ← digitGroups? Char.isDigit cs
  match digits with
  | '0' :: _ :: _ => none
  | _ => some digits

/-- A floating-point number from its digits, those of its fraction, and its exponent.  A positive
number beyond all floating-point numbers is refused; a negative one counts as infinite. -/
def float? (negative : Bool) (whole fraction : List Char) (exponent : Int) : Option Value :=
  let mantissa := ofBase 10 (whole ++ fraction)
  let e := exponent - fraction.length
  let x := Float.ofScientific mantissa (e < 0) e.natAbs
  if negative then some (.float (-x)) else if x.isInf then none else some (.float x)

/-- The exponent in the part behind an `e`. -/
def exponent? (cs : List Char) : Option Int := do
  let (negative, digits) := splitSign cs
  let n := ofBase 10 (← digitGroups? Char.isDigit digits)
  some (if negative then -(n : Int) else n)

def isExponentMark (c : Char) : Bool := c == 'e' || c == 'E'

/-- A number without a base mark: an integer, or one with a fraction or an exponent. -/
def decimal? (negative : Bool) (cs : List Char) : Option Value := do
  let main := cs.takeWhile (!isExponentMark ·)
  let exponent ← match cs.dropWhile (!isExponentMark ·) with
    | [] => some none
    | _ :: cs => (exponent? cs).map some
  let whole ← decimalDigits? (main.takeWhile (· != '.'))
  match main.dropWhile (· != '.'), exponent with
  | [], none => integer? negative (ofBase 10 whole)
  | [], some e => float? negative whole [] e
  | _ :: fraction, e => do
    let fraction ← digitGroups? Char.isDigit fraction
    float? negative whole fraction (e.getD 0)

/-- An unsigned integer in another base than ten. -/
def basedInteger? (base : Nat) (isDigit : Char → Bool) (cs : List Char) : Option Value := do
  integer? false (ofBase base (← digitGroups? isDigit cs))

/-- A number or a keyword. -/
def plain? (cs : List Char) : Option Value :=
  match cs with
  | ['t', 'r', 'u', 'e'] => some (.boolean true)
  | ['f', 'a', 'l', 's', 'e'] => some (.boolean false)
  | '0' :: 'x' :: cs => basedInteger? 16 (fun c => (hexValue? c).isSome) cs
  | '0' :: 'o' :: cs => basedInteger? 8 (fun c => '0' ≤ c && c ≤ '7') cs
  | '0' :: 'b' :: cs => basedInteger? 2 (fun c => c == '0' || c == '1') cs
  | _ =>
    match splitSign cs with
    | (negative, ['i', 'n', 'f']) =>
      some (.float (if negative then -(1.0 / 0.0) else 1.0 / 0.0))
    | (negative, ['n', 'a', 'n']) =>
      some (.float (if negative then -(0.0 / 0.0) else 0.0 / 0.0))
    | (negative, digits) => decimal? negative digits

/-! ## Dates and times -/

/-- A number of exactly `n` digits within bounds, and what follows it. -/
def readField (n least greatest : Nat) (cs : List Char) : Option (Nat × List Char) :=
  let digits := cs.take n
  let value := ofBase 10 digits
  if digits.length = n ∧ digits.all Char.isDigit ∧ least ≤ value ∧ value ≤ greatest then
    some (value, cs.drop n)
  else none

/-- What follows a mark. -/
def readMark (mark : Char) : List Char → Option (List Char)
  | c :: cs => if c == mark then some cs else none
  | [] => none

/-- The number of days of a month. -/
def daysIn (year month : Nat) : Nat :=
  if month = 2 then
    if year % 4 = 0 ∧ (year % 100 ≠ 0 ∨ year % 400 = 0) then 29 else 28
  else if month ∈ [4, 6, 9, 11] then 30
  else 31

/-- What follows a date, `YYYY-MM-DD`. -/
def readDate (cs : List Char) : Option (List Char) := do
  let (year, cs) ← readField 4 0 9999 cs
  let (month, cs) ← readField 2 1 12 (← readMark '-' cs)
  let (_, cs) ← readField 2 1 (daysIn year month) (← readMark '-' cs)
  some cs

/-- What follows a time, `HH:MM:SS` with an optional fraction. -/
def readTime (cs : List Char) : Option (List Char) := do
  let (_, cs) ← readField 2 0 23 cs
  let (_, cs) ← readField 2 0 59 (← readMark ':' cs)
  let (_, cs) ← readField 2 0 60 (← readMark ':' cs)
  match cs with
  | '.' :: c :: rest => if c.isDigit then some (rest.dropWhile Char.isDigit) else some cs
  | _ => some cs

/-- What follows the offset of a time, if there is one. -/
def skipOffset (cs : List Char) : List Char :=
  let offset : Option (List Char) :=
    match cs with
    | c :: rest =>
      if c == 'Z' || c == 'z' then some rest
      else if c == '+' || c == '-' then do
        let (_, rest) ← readField 2 0 23 rest
        let (_, rest) ← readField 2 0 59 (← readMark ':' rest)
        some rest
      else none
    | [] => none
  offset.getD cs

/-- What follows a date, a time, or both with a `T` or a blank between them. -/
def readDateTime (cs : List Char) : Option (List Char) :=
  match readDate cs with
  | none => readTime cs
  | some rest =>
    match rest with
    | c :: time =>
      if c == 'T' || c == 't' || c == ' ' then
        match readTime time with
        | some rest' => some (skipOffset rest')
        | none => some rest
      else some rest
    | [] => some rest

/-! ## Scalars -/

/-- The characters of bare keys. -/
def isBareKey (c : Char) : Bool := c.isAlphanum || c == '_' || c == '-'

/-- The characters of numbers and keywords. -/
def isScalar (c : Char) : Bool := isBareKey c || c == '+' || c == '.'

/-- Reads a number, a keyword, a date or a time. -/
def readScalar (cs : List Char) : Option (Value × List Char) :=
  match readDateTime cs with
  | some rest => some (.dateTime, rest)
  | none => (plain? (cs.takeWhile isScalar)).map (·, cs.dropWhile isScalar)

end Toml

end PrimeLanguage
