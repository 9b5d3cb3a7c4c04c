import FluentGrammar.Text.Blank
import FluentGrammar.Text.Letter

/-!
# Tokens of type expressions

A text is cut into words and marks. A word is as long as possible: it begins with a letter, `_` or
`$` and goes on with letters, numerals, `_` and `$`. Every other character that is not blank is a
mark of its own, and blanks separate tokens without belonging to one.

* `Token`: a word or a mark with the offsets of its first character and of the one after its last.
* `tokens`: the tokens of a text.
-/

namespace FluentGrammar

/-- What a token stands for. -/
inductive Lexeme where
  | word (name : String)
  | mark (char : Char)
deriving DecidableEq

/-- A lexeme and the stretch of text it covers, in characters. -/
structure Token where
  lexeme : Lexeme
  start : Nat
  stop : Nat
deriving DecidableEq

/-- A character that may begin a word. -/
def isWordStart (c : Char) : Bool :=
  Text.isLetter c || c == '_' || c == '$'

/-- A character that may continue a word. -/
def isWordPart (c : Char) : Bool :=
  Text.isLetterOrNumeral c || c == '_' || c == '$'

/-- A text that is one word. -/
def isWord (text : String) : Bool :=
  match text.toList with
  | [] => false
  | c :: cs => isWordStart c && cs.all isWordPart

theorem isWordPart_of_isWordStart {c : Char} (h : isWordStart c = true) : isWordPart c = true := by
  simp only [isWordStart, isWordPart, Text.isLetterOrNumeral, Bool.or_eq_true] at h ⊢
  grind

/-- The tokens of the characters from `offset` on. -/
def tokensFrom (offset : Nat) (cs : List Char) : List Token :=
  match cs with
  | [] => []
  | c :: cs =>
    if Text.isBlank c then tokensFrom (offset + 1) cs
    else if isWordStart c then
      let tail := cs.takeWhile isWordPart
      let stop := offset + 1 + tail.length
      ⟨.word (String.ofList (c :: tail)), offset, stop⟩ :: tokensFrom stop (cs.dropWhile isWordPart)
    else ⟨.mark c, offset, offset + 1⟩ :: tokensFrom (offset + 1) cs
termination_by cs.length
decreasing_by
  · simp
  · have := (List.dropWhile_suffix (l := cs) isWordPart).length_le
    simp only [List.length_cons]
    omega
  · simp

/-- The tokens of a text. -/
def tokens (text : String) : List Token :=
  tokensFrom 0 text.toList

end FluentGrammar
