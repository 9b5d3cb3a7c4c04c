import FluentGrammar.Text.Blank
import FluentGrammar.Text.Letter
import FluentGrammar.Text.Pieces

/-!
# Log levels

How much is logged. A *filter* is a list of items separated by commas: a level for everything, or a
level for one target. The levels of a configuration and of the environment are put together, unless
one of them cannot be read.

* `LogLevel.ofFilter?`: the most that a filter lets through.
* `LogLevel.effective`: the most that is logged under a configured level and an environment.
-/

namespace FluentGrammar

/-- How much is logged, from nothing to everything. -/
inductive LogLevel where
  | off
  | error
  | warn
  | info
  | debug
  | trace
deriving DecidableEq

namespace LogLevel

/-- The position of a level in the order from nothing to everything. -/
def rank : LogLevel → Nat
  | off => 0
  | error => 1
  | warn => 2
  | info => 3
  | debug => 4
  | trace => 5

/-- The wording of a level. -/
def text : LogLevel → String
  | off => "off"
  | error => "error"
  | warn => "warn"
  | info => "info"
  | debug => "debug"
  | trace => "trace"

/-- All levels, from nothing to everything. -/
def all : List LogLevel :=
  [off, error, warn, info, debug, trace]

/-- The text with the letters from `A` to `Z` in lower case. -/
def lowerCase (text : String) : String :=
  String.ofList (text.toList.map Char.toLower)

/-- The number that decimal digits give, which a plus may precede. -/
def number? (text : String) : Option Nat :=
  let digits := match text.toList with
    | '+' :: cs => cs
    | cs => cs
  if digits.isEmpty || !digits.all Char.isDigit then none
  else some (digits.foldl (fun n c => 10 * n + (c.toNat - '0'.toNat)) 0)

/-- The level of a name in any case, or of its position as a number. -/
def ofName? (name : String) : Option LogLevel :=
  all.find? fun level => level.text = lowerCase name || number? name = some level.rank

/-- The greater one of two levels. -/
def max (a b : LogLevel) : LogLevel :=
  if a.rank < b.rank then b else a

/-- A character with which an item of a filter may begin. -/
def isItemStart (c : Char) : Bool :=
  Text.isLetterOrNumeral c || c = '_' || c = ':' || c = '-'

/-- What one item of a filter lets through. Its beginning tells whether it is an item at all;
what stands before the first sign of equality is a target, whatever its characters are. A target
without a level lets everything through. Blanks count as parts of names, and a target after a blank
takes no level. -/
def ofItem? (item : String) : Option LogLevel :=
  match Text.trimStartChars item.toList with
  | [] => none
  | first :: others =>
    if !isItemStart first then none
    else
      match item.toList.dropWhile (· ≠ '=') with
      | [] => some ((ofName? item).getD trace)
      | _ :: level =>
        if item.toList ≠ first :: others then none
        else if level.isEmpty then some trace
        else ofName? (String.ofList level)

/-- The most that a filter lets through, if all of its items can be read. A filter without items
lets nothing through. -/
def ofFilter? (filter : String) : Option LogLevel := do
  let levels ← ((Text.split ',' filter).filter (· ≠ "")).mapM ofItem?
  return levels.foldl max off

/-- A configured level as a filter: blank means the usual level, and the names of levels may have
any case. -/
def normalize (level : String) : String :=
  let trimmed := Text.trim level
  let lower := lowerCase trimmed
  if trimmed.isEmpty then "info"
  else if lower = "warning" then "warn"
  else if lower ∈ ["trace", "debug", "info", "warn", "error"] then lower
  else trimmed

/-- The most that is logged under a configured level alone. -/
def configured (level : String) : LogLevel :=
  (ofFilter? (normalize level)).getD info

/-- The most that is logged under a configured level and the filter of the environment. -/
def effective (level : String) (environment : Option String) : LogLevel :=
  let filter := Text.trim (environment.getD "")
  let both := normalize level ++ "," ++ filter
  if filter.isEmpty then configured level
  else ((ofFilter? both).or (ofFilter? filter)).getD (configured level)

end LogLevel

end FluentGrammar
