/-!
# Pieces of texts

How texts are taken apart and put together: pieces between occurrences of one character, lines, and
what remains when a given beginning or end is taken off. A text is cut into lines after every line
feed; a carriage return right before the line feed belongs to the line's end, and nothing follows
the last line feed.

* `split`: the pieces between occurrences of a character, one more than there are occurrences.
* `joinWith`: pieces with a separator between them.
* `lines`: the lines of a text, without their ends.
* `indent`: every line that is not empty moved to the right.
* `dropFront`, `dropBack`: a list without a given beginning or end.
-/

namespace FluentGrammar.Text

/-! ## Between separators -/

/-- The pieces of a list of characters between occurrences of `sep`. -/
def splitChars (sep : Char) : List Char → List (List Char)
  | [] => [[]]
  | c :: cs =>
    if c = sep then [] :: splitChars sep cs
    else
      match splitChars sep cs with
      | [] => [[c]]
      | piece :: pieces => (c :: piece) :: pieces

/-- The pieces of a text between occurrences of `sep`. -/
def split (sep : Char) (text : String) : List String :=
  (splitChars sep text.toList).map String.ofList

theorem splitChars_ne_nil (sep : Char) (cs : List Char) : splitChars sep cs ≠ [] := by
  cases cs with
  | nil => simp [splitChars]
  | cons c cs =>
    rw [splitChars]
    split
    · simp
    · split <;> simp

/-- The pieces of a text one after the other, with `separator` between them. -/
def joinWith (separator : String) (pieces : List String) : String :=
  String.intercalate separator pieces

/-! ## Lines -/

/-- A line without the carriage return at its end. -/
def dropReturn (line : List Char) : List Char :=
  match line.reverse with
  | '\r' :: front => front.reverse
  | _ => line

/-- The lines of the characters to come, where the current line began with `line` reversed. -/
def linesFrom (line : List Char) : List Char → List (List Char)
  | [] => if line.isEmpty then [] else [line.reverse]
  | c :: cs =>
    if c = '\n' then dropReturn line.reverse :: linesFrom [] cs
    else linesFrom (c :: line) cs

/-- The lines of a list of characters. -/
def lineChars (cs : List Char) : List (List Char) :=
  linesFrom [] cs

/-- The lines of a text, without their ends. -/
def lines (text : String) : List String :=
  (lineChars text.toList).map String.ofList

/-- Every line of `text` that is not empty moved `width` columns to the right. The lines are
separated by single line feeds. -/
def indent (width : Nat) (text : String) : String :=
  joinWith "\n" ((lines text).map fun line =>
    if line.isEmpty then "" else String.ofList (List.replicate width ' ') ++ line)

/-! ## Beginnings and ends -/

/-- What follows `front`, if the list begins with it. -/
def afterFront? (front : List Char) (cs : List Char) : Option (List Char) :=
  if front.isPrefixOf cs then some (cs.drop front.length) else none

/-- What precedes `back`, if the list ends with it. -/
def beforeBack? (back : List Char) (cs : List Char) : Option (List Char) :=
  if back.isSuffixOf cs then some (cs.take (cs.length - back.length)) else none

/-- The list without `front` at its beginning. -/
def dropFront (front : List Char) (cs : List Char) : List Char :=
  (afterFront? front cs).getD cs

/-- The list without `back` at its end. -/
def dropBack (back : List Char) (cs : List Char) : List Char :=
  (beforeBack? back cs).getD cs

/-- A text that begins with `front`. -/
def beginsWith (text front : String) : Bool :=
  front.toList.isPrefixOf text.toList

end FluentGrammar.Text
