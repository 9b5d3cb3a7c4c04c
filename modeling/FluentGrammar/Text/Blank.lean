/-!
# Blank characters

The characters with the Unicode property White_Space, and the texts that remain when blank
characters are taken off the ends.

* `isBlank`: the class, 25 characters.
* `trimStart`, `trimEnd`, `trim`: a text without the blanks at one end or at both.
-/

namespace FluentGrammar.Text

/-- A character with the property White_Space. -/
def isBlank (c : Char) : Bool :=
  let n := c.toNat
  (0x9 ≤ n && n ≤ 0xd) || n == 0x20 || n == 0x85 || n == 0xa0 || n == 0x1680 ||
    (0x2000 ≤ n && n ≤ 0x200a) || n == 0x2028 || n == 0x2029 || n == 0x202f || n == 0x205f ||
    n == 0x3000

theorem isBlank_of_isWhitespace {c : Char} (h : c.isWhitespace = true) : isBlank c = true := by
  simp only [Char.isWhitespace, Bool.or_eq_true, decide_eq_true_eq] at h
  rcases h with ((rfl | rfl) | rfl) | rfl <;> decide

/-- The characters after the leading blanks. -/
def trimStartChars (cs : List Char) : List Char :=
  cs.dropWhile isBlank

/-- The characters before the trailing blanks. -/
def trimEndChars (cs : List Char) : List Char :=
  (cs.reverse.dropWhile isBlank).reverse

/-- The characters between the leading and the trailing blanks. -/
def trimChars (cs : List Char) : List Char :=
  trimEndChars (trimStartChars cs)

/-- The text without its leading and trailing blanks. -/
def trim (text : String) : String :=
  String.ofList (trimChars text.toList)

/-- The text without its leading blanks. -/
def trimStart (text : String) : String :=
  String.ofList (trimStartChars text.toList)

/-- The text without its trailing blanks. -/
def trimEnd (text : String) : String :=
  String.ofList (trimEndChars text.toList)

/-- A text of blanks only. -/
def isAllBlank (text : String) : Bool :=
  text.toList.all isBlank

end FluentGrammar.Text
