import FluentGrammar.Text.Doc

/-!
# Bodies of methods

The statements of a body without the braces around them and without the margin that all lines
share. The margin is measured in bytes of the encoded text; a line whose own margin cannot be cut
there loses all of it.

* `bodyText`: the statements of a body as it is written.
* `braced`: a body as it is printed.
-/

namespace FluentGrammar.Text

/-- The number of bytes of the encoded characters. -/
def byteLength (cs : List Char) : Nat :=
  cs.foldl (fun n c => n + c.utf8Size) 0

/-- What remains after the first `n` bytes, if a character begins there. -/
def dropBytes? : Nat → List Char → Option (List Char)
  | 0, cs => some cs
  | _ + 1, [] => none
  | n + 1, c :: cs => if c.utf8Size ≤ n + 1 then dropBytes? (n + 1 - c.utf8Size) cs else none

/-- The bytes of the blanks at the beginning of a line. -/
def marginOf (line : List Char) : Nat :=
  byteLength (line.takeWhile isBlank)

/-- The least margin of the lines that are not empty. -/
def sharedMargin (lines : List (List Char)) : Nat :=
  (((lines.filter fun line => !line.isEmpty).map marginOf).min?).getD 0

/-- A line without a margin of `n` bytes, or without any margin if it cannot be cut there. -/
def cutMargin (n : Nat) (line : List Char) : List Char :=
  (dropBytes? n line).getD (trimStartChars line)

/-- The characters between the outer braces, if they stand at both ends. -/
def withoutBraces (cs : List Char) : List Char :=
  ((afterFront? ['\x7b'] cs).bind (beforeBack? ['\x7d'])).getD cs

/-- The lines between the first and the last that are not empty. -/
def dropEmptyEnds (lines : List (List Char)) : List (List Char) :=
  ((lines.dropWhile List.isEmpty).reverse.dropWhile List.isEmpty).reverse

/-- The statements in the characters of a body. Code on the line of the opening brace is kept
without its margin. -/
def bodyChars (cs : List Char) : List Char :=
  match (lineChars (withoutBraces (trimChars cs))).map trimEndChars with
  | [] => []
  | first :: lines =>
    let lines := dropEmptyEnds lines
    let first := if first.isEmpty then [] else [trimStartChars first]
    joinLines (first ++ lines.map (cutMargin (sharedMargin lines)))

/-- The statements of a body as it is written. -/
def bodyText (image : String) : String :=
  String.ofList (bodyChars image.toList)

/-- A body as it is printed: its lines moved to the right, between braces. -/
def braced (body : String) : String :=
  "\x7b\n" ++ indent 4 body ++ "\n\x7d"

end FluentGrammar.Text
