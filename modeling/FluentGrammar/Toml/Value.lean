/-!
# TOML documents

The values of a configuration document and the rules by which its lines build them up. A table may
be stated once, by its own header; a header with a longer path implies the tables on its way, and a
dotted key makes tables that only dotted keys of the same table extend. Lists and tables that are
written as one value are closed.

Of a number and a date nothing but their presence is kept, since no setting has such a value.

* `Value`: texts, truth values, numbers, dates, lists and tables.
* `Entries.addPair`, `Entries.openTable`, `Entries.openElement`: what a line does to a table.
-/

namespace FluentGrammar.Toml

/-- How a table came about: by its own header, by a longer header, or by a dotted key. -/
inductive TableForm where
  | stated
  | implied
  | dotted
deriving DecidableEq

/-- A value of a document. -/
inductive Value where
  | string (text : String)
  | boolean (flag : Bool)
  /-- A number of any kind. -/
  | number
  /-- A date, a time, or both. -/
  | moment
  /-- A list written in brackets. -/
  | list (items : List Value)
  /-- A table written in braces. -/
  | inline (entries : List (String × Value))
  /-- A table made by headers or dotted keys. -/
  | table (form : TableForm) (entries : List (String × Value))
  /-- A list of tables made by headers. -/
  | tables (elements : List (List (String × Value)))

/-- The entries of a table in order of definition. -/
abbrev Entries := List (String × Value)

namespace Entries

/-- The entries with the value of a key replaced. -/
def set (es : Entries) (key : String) (value : Value) : Entries :=
  es.map fun e => if e.1 = key then (key, value) else e

/-- Apply a change to the table that a path leads to, making the tables that are missing on the
way. A dotted path does not lead through tables that have a header of their own, and no path leads
through a closed value. -/
def descend (dotted : Bool) (form : TableForm) (es : Entries)
    (change : TableForm → Entries → Option Entries) : List String → Option Entries
  | [] => change form es
  | key :: path =>
    let made := if dotted then TableForm.dotted else .implied
    match es.lookup key with
    | none => do
      let inner ← descend dotted made [] change path
      return es ++ [(key, .table made inner)]
    | some (.table form inner) => do
      guard (!dotted || form ≠ .stated)
      let inner ← descend dotted form inner change path
      return es.set key (.table form inner)
    | some (.tables elements) =>
      match elements.getLast? with
      | some last => do
        let last ← descend dotted .stated last change path
        return es.set key (.tables (elements.dropLast ++ [last]))
      | none => none
    | some _ => none

/-- The entries with one more pair, whose key has to be new. A dotted path ends in a table that
dotted keys have made. -/
def addPair (es : Entries) (path : List String) (key : String) (value : Value) : Option Entries :=
  descend true .stated es
    (fun form es => do
      guard (path.isEmpty || form = .dotted)
      guard (es.lookup key).isNone
      return es ++ [(key, value)])
    path

/-- The entries with a table stated by a header. -/
def openTable (es : Entries) (path : List String) (key : String) : Option Entries :=
  descend false .stated es
    (fun _ es =>
      match es.lookup key with
      | none => some (es ++ [(key, .table .stated [])])
      | some (.table .implied inner) => some (es.set key (.table .stated inner))
      | some _ => none)
    path

/-- The entries with one more element of a list of tables. -/
def openElement (es : Entries) (path : List String) (key : String) : Option Entries :=
  descend false .stated es
    (fun _ es =>
      match es.lookup key with
      | none => some (es ++ [(key, .tables [[]])])
      | some (.tables elements) => some (es.set key (.tables (elements ++ [[]])))
      | some _ => none)
    path

/-- The entries with one more pair in the table of the last header. -/
def addUnder (es : Entries) (header : List String) (path : List String) (key : String)
    (value : Value) : Option Entries :=
  descend false .stated es (fun _ es => addPair es path key value) header

end Entries

end FluentGrammar.Toml
