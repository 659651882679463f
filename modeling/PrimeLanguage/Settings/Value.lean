import PrimeLanguage.Word

/-!
# Values in settings

A settings file, or settings from elsewhere, are a `Value`.  The readers of single values return
nothing for a value of another type; `entries?` finds the entries of settings, and `field` reads one
of them and takes a default when it is missing.

Settings come in two formats, TOML and JSON, and what is accepted differs in two places: what stands
behind a name without content (`isVacant`), and whether a list may be longer than the settings it
gives (`entries?`).
-/

namespace PrimeLanguage

/-- The formats that settings come in. -/
inductive SettingsFormat where
  | toml
  | json
  deriving DecidableEq

/-- A value in settings; of a date or a time nothing is kept. -/
inductive Value where
  | null
  | boolean (b : Bool)
  | integer (n : Int)
  | float (x : Float)
  | text (s : String)
  | dateTime
  | array (items : List Value)
  | table (entries : List (String × Value))

namespace Value

/-- An integer that is a word. -/
def word? : Value → Option Nat
  | .integer n => if 0 ≤ n ∧ n < wordLimit then some n.toNat else none
  | _ => none

/-- A floating-point number; an integer counts as one. -/
def number? : Value → Option Float
  | .float x => some x
  | .integer n =>
    let magnitude := if n.natAbs < wordLimit then n.natAbs.toUInt64.toFloat
      else Float.ofScientific n.natAbs false 0
    some (if n < 0 then -magnitude else magnitude)
  | _ => none

/-- Whether a value is what a format writes behind a name that has no content: null in JSON, an empty
array or table in TOML. -/
def isVacant (format : SettingsFormat) : Value → Bool
  | .null => format = .json
  | .array items => format = .toml ∧ items.isEmpty
  | .table entries => format = .toml ∧ entries.isEmpty
  | _ => false

/-- A name that `read` accepts, as a text or as the only key of a table. -/
def choice? {α : Type} (format : SettingsFormat) (read : String → Option α) : Value → Option α
  | .text s => read s
  | .table [(key, v)] => if v.isVacant format then read key else none
  | _ => none

/-- The entries of settings with the given keys.  A table has them by name; if it is `strict`, it has
no others.  An array has the values of the first keys in their order, and in JSON no more items than
there are keys.  A date has no entries. -/
def entries? (format : SettingsFormat) (strict : Bool) (keys : List String) :
    Value → Option (List (String × Value))
  | .table es => if strict && !es.all fun (k, _) => keys.contains k then none else some es
  | .array items =>
    if format = .json ∧ keys.length < items.length then none else some (keys.zip items)
  | .dateTime => if strict then none else some []
  | _ => none

/-- One entry, or the default when it is missing. -/
def field {α : Type} (es : List (String × Value)) (key : String) (read : Value → Option α)
    (default : α) : Option α :=
  match es.lookup key with
  | none => some default
  | some v => read v

end Value

end PrimeLanguage
