import FluentGrammar.Toml.Moment
import FluentGrammar.Toml.Text
import FluentGrammar.Toml.Value

/-!
# Reading of TOML documents

A document is a sequence of lines: pairs of a key and a value, and headers that say to which table
the following pairs belong. Lists, inline tables and keys are nested less than `nestingLimit` deep.

* `parse?`: the entries of a document, or nothing if it is malformed.
-/

namespace FluentGrammar.Toml

/-- The depth that nested values and the parts of a key do not reach. -/
def nestingLimit : Nat := 80

/-- A character of a key that is not quoted. -/
def isKeyChar (c : Char) : Bool :=
  c.isAlphanum || c = '_' || c = '-'

/-- A key without dots. -/
def simpleKey (cs : List Char) : Option (String × List Char) :=
  match cs with
  | '"' :: cs => basicText cs
  | '\'' :: cs => literalText cs
  | cs =>
    let (name, rest) := cs.span isKeyChar
    if name.isEmpty then none else some (String.ofList name, rest)

/-- A key with its parts between dots, the last one apart. -/
def dottedKey (cs : List Char) : Option ((List String × String) × List Char) :=
  match simpleKey cs with
  | none => none
  | some (key, rest) =>
    match skipBlanks rest with
    | '.' :: more =>
      if (skipBlanks more).length < cs.length then
        (dottedKey (skipBlanks more)).map fun ((path, last), rest) => ((key :: path, last), rest)
      else none
    | rest => some (([], key), rest)
termination_by cs.length

/-- A key whose parts do not reach the limit. -/
def limitedKey (cs : List Char) : Option ((List String × String) × List Char) := do
  let (key, rest) ← dottedKey cs
  guard (key.1.length + 1 < nestingLimit)
  return (key, rest)

/-- The characters after the sign of equality that follows a key. -/
def afterEquals? (cs : List Char) : Option (List Char) :=
  match skipBlanks cs with
  | '=' :: cs => some (skipBlanks cs)
  | _ => none

/-- A number or a date. -/
def plainValue (cs : List Char) : Option (Value × List Char) :=
  ((afterMoment? cs).map fun rest => (.moment, rest)).or
    ((afterNumber? cs).map fun rest => (.number, rest))

mutual

/-- A value within `depth` lists and inline tables. -/
def value (depth : Nat) (cs : List Char) : Option (Value × List Char) :=
  match cs with
  | '"' :: '"' :: '"' :: cs => (longBasicText cs).map fun (t, rest) => (.string t, rest)
  | '"' :: cs => (basicText cs).map fun (t, rest) => (.string t, rest)
  | '\'' :: '\'' :: '\'' :: cs => (longLiteralText cs).map fun (t, rest) => (.string t, rest)
  | '\'' :: cs => (literalText cs).map fun (t, rest) => (.string t, rest)
  | 't' :: 'r' :: 'u' :: 'e' :: cs => some (.boolean true, cs)
  | 'f' :: 'a' :: 'l' :: 's' :: 'e' :: cs => some (.boolean false, cs)
  | '[' :: cs =>
    if depth + 1 < nestingLimit then
      (items (depth + 1) [] cs).map fun (vs, rest) => (.list vs, rest)
    else none
  | '\x7b' :: cs =>
    if depth + 1 < nestingLimit then
      match skipBlanks cs with
      | '\x7d' :: rest => some (.inline [], rest)
      | _ => (pairs (depth + 1) [] cs).map fun (es, rest) => (.inline es, rest)
    else none
  | cs => plainValue cs
termination_by 2 * cs.length

/-- The rest of a list, of which the items `read` have been read. -/
def items (depth : Nat) (read : List Value) (cs : List Char) : Option (List Value × List Char) :=
  match skipFiller false cs with
  | ']' :: rest => some (read, rest)
  | start =>
    if start.length ≤ cs.length then
      match value depth start with
      | none => none
      | some (v, rest) =>
        match skipFiller false rest with
        | ',' :: rest => if rest.length < cs.length then items depth (read ++ [v]) rest else none
        | ']' :: rest => some (read ++ [v], rest)
        | _ => none
    else none
termination_by 2 * cs.length + 1

/-- The rest of an inline table with at least one pair, of which the entries `read` have been
read. -/
def pairs (depth : Nat) (read : Entries) (cs : List Char) : Option (Entries × List Char) :=
  match limitedKey (skipBlanks cs) with
  | none => none
  | some ((path, key), rest) =>
    match afterEquals? rest with
    | none => none
    | some start =>
      if start.length < cs.length then
        match value depth start with
        | none => none
        | some (v, rest) =>
          match read.addPair path key v with
          | none => none
          | some read =>
            match skipBlanks rest with
            | ',' :: rest => if rest.length < cs.length then pairs depth read rest else none
            | '\x7d' :: rest => some (read, rest)
            | _ => none
      else none
termination_by 2 * cs.length + 1

end

/-- What has been read of a document: its entries and the path of the last header. -/
structure Document where
  entries : Entries
  header : List String

/-- The key of a header between brackets, and the characters of the next line. -/
def headerKey (closing cs : List Char) : Option ((List String × String) × List Char) := do
  let (key, rest) ← limitedKey (skipBlanks cs)
  let rest := skipBlanks rest
  guard (closing.isPrefixOf rest)
  return (key, ← nextLine? (rest.drop closing.length))

/-- The document after one more line. -/
def line (d : Document) (cs : List Char) : Option (Document × List Char) :=
  match skipBlanks cs with
  | '[' :: '[' :: cs => do
    let ((path, key), rest) ← headerKey [']', ']'] cs
    return (⟨← d.entries.openElement path key, path ++ [key]⟩, rest)
  | '[' :: cs => do
    let ((path, key), rest) ← headerKey [']'] cs
    return (⟨← d.entries.openTable path key, path ++ [key]⟩, rest)
  | cs =>
    match nextLine? cs with
    | some rest => some (d, rest)
    | none => do
      let ((path, key), rest) ← limitedKey cs
      let (v, rest) ← value 0 (← afterEquals? rest)
      return ({ d with entries := ← d.entries.addUnder d.header path key v }, ← nextLine? rest)

/-- The document after all lines. -/
def lines (d : Document) (cs : List Char) : Option Document :=
  if cs.isEmpty then some d
  else
    match line d cs with
    | some (d, rest) => if rest.length < cs.length then lines d rest else none
    | none => none
termination_by cs.length

/-- The entries of a document, which may begin with a byte order mark. -/
def parse? (text : String) : Option Entries :=
  let cs := match text.toList with
    | '\ufeff' :: cs => cs
    | cs => cs
  (lines ⟨[], []⟩ cs).map Document.entries

end FluentGrammar.Toml
