import FluentGrammar.Text.Blank
import FluentGrammar.Text.Pieces

/-!
# Documentation blocks

Documentation is printed as a block between `/**` and `*/` with an asterisk before each line, and
read from such a block, whose delimiters and asterisks may be missing.

* `docBlock`: the block of a documentation text; blank documentation has none.
* `docText`: the documentation in a block.
-/

namespace FluentGrammar.Text

/-- One line of a block. -/
def docLine (line : List Char) : List Char :=
  if line.isEmpty then " *\n".toList else " * ".toList ++ line ++ ['\n']

/-- The block of documentation characters. -/
def docBlockChars (cs : List Char) : List Char :=
  if cs.all isBlank then []
  else "/**\n".toList ++ (lineChars cs).flatMap docLine ++ " */\n".toList

/-- The block that shows a documentation text. -/
def docBlock (comment : String) : String :=
  String.ofList (docBlockChars comment.toList)

/-- A line of a block without its margin and its asterisk. -/
def undocLine (line : List Char) : List Char :=
  let line := trimChars line
  match afterFront? ['*'] line with
  | some rest => trimStartChars rest
  | none => line

/-- Lines with line feeds between them. -/
def joinLines : List (List Char) → List Char
  | [] => []
  | [line] => line
  | line :: lines => line ++ '\n' :: joinLines lines

/-- The documentation in the characters of a block. -/
def docTextChars (cs : List Char) : List Char :=
  let inner := dropBack ['*', '/'] (dropFront ['/', '*', '*'] (trimChars cs))
  trimEndChars (joinLines (((lineChars inner).map undocLine).dropWhile List.isEmpty))

/-- The documentation in a block. -/
def docText (block : String) : String :=
  String.ofList (docTextChars block.toList)

end FluentGrammar.Text
