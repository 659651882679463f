import PrimeLanguage.Settings.Value

/-!
# Tables under construction

While a settings file is read, a `Node` remembers how a table came about: a table that was merely
implied by a longer header may still get a header of its own, and only tables that dotted keys have
made take further dotted keys.  An array of tables grows at its end; what is written into it goes
into its last table.

* `openTable`, `appendTable` — what a header does;
* `setIn` — what a key with its value does under a header;
* `Node.toValue` — the finished value.

Each gives nothing when a key or a table is defined twice.
-/

namespace PrimeLanguage

namespace Toml

/-- How a table came about. -/
inductive Origin where
  | implied
  | header
  | dotted
  deriving DecidableEq

/-- A finished value, a table under construction, or an array of tables, all finished but the
last. -/
inductive Node where
  | value (v : Value)
  | table (origin : Origin) (entries : List (String × Node))
  | tables (finished : List Value) (last : List (String × Node))

/-- The entries of a table under construction. -/
abbrev Entries := List (String × Node)

mutual

/-- The value that a node stands for. -/
def Node.toValue : Node → Value
  | .value v => v
  | .table _ es => .table (entriesToValues es)
  | .tables finished last => .array (finished ++ [.table (entriesToValues last)])

/-- Entries with their values. -/
def entriesToValues : List (String × Node) → List (String × Value)
  | [] => []
  | (key, node) :: es => (key, node.toValue) :: entriesToValues es

end

/-- The entries with a node for a key, in place of an earlier one. -/
def Entries.set (es : Entries) (key : String) (node : Node) : Entries :=
  match es.lookup key with
  | none => es ++ [(key, node)]
  | some _ => es.map fun (k, old) => if k == key then (k, node) else (k, old)

/-- Defines what a header names, from what stands there so far; the tables on the way to it are
implied where they are missing. -/
def define (finish : Option Node → Option Node) : List String → Entries → Option Entries
  | [], _ => none
  | [key], es => (finish (es.lookup key)).map (es.set key)
  | key :: keys, es =>
    match es.lookup key with
    | none => (define finish keys []).map fun sub => es.set key (.table .implied sub)
    | some (.table origin sub) =>
      (define finish keys sub).map fun sub => es.set key (.table origin sub)
    | some (.tables finished last) =>
      (define finish keys last).map fun last => es.set key (.tables finished last)
    | some (.value _) => none

/-- Gives a table its header. -/
def openTable (keys : List String) (es : Entries) : Option Entries :=
  define
    (fun
      | none => some (.table .header [])
      | some (.table .implied sub) => some (.table .header sub)
      | some _ => none)
    keys es

/-- Begins a further table of an array of tables. -/
def appendTable (keys : List String) (es : Entries) : Option Entries :=
  define
    (fun
      | none => some (.tables [] [])
      | some (.tables finished last) =>
        some (.tables (finished ++ [.table (entriesToValues last)]) [])
      | some _ => none)
    keys es

/-- Sets a key of a table.  The last part of the key goes into a table only if it is `accessible`;
the tables that dotted keys make are. -/
def setKey (v : Value) : (accessible : Bool) → List String → Entries → Option Entries
  | _, [], _ => none
  | accessible, [key], es =>
    if accessible && (es.lookup key).isNone then some (es.set key (.value v)) else none
  | _, key :: keys, es =>
    match es.lookup key with
    | none => (setKey v true keys []).map fun sub => es.set key (.table .dotted sub)
    | some (.table .header _) | some (.value _) => none
    | some (.table origin sub) =>
      (setKey v (origin = .dotted) keys sub).map fun sub => es.set key (.table origin sub)
    | some (.tables finished last) =>
      (setKey v false keys last).map fun last => es.set key (.tables finished last)

/-- Sets a key in the table of a header. -/
def setIn (v : Value) (keys : List String) : (header : List String) → Entries → Option Entries
  | [], es => setKey v true keys es
  | h :: hs, es =>
    match es.lookup h with
    | some (.table origin sub) =>
      (setIn v keys hs sub).map fun sub => es.set h (.table origin sub)
    | some (.tables finished last) =>
      (setIn v keys hs last).map fun last => es.set h (.tables finished last)
    | _ => none

end Toml

end PrimeLanguage
