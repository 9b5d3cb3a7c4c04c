import FluentGrammar.Toml.Number

/-!
# Texts in TOML documents

The parts of a document below the level of values: blanks, comments, line ends and the four forms
of quoted texts. Every function takes the characters to come and returns what it read with the
characters it left, or nothing if they do not have the form.

* `basicText`, `literalText`: texts within one line, with and without escapes.
* `longBasicText`, `longLiteralText`: texts that may have several lines.
-/

namespace FluentGrammar.Toml

/-- A character that may stand in comments and texts. -/
def isPlain (c : Char) : Bool :=
  c = '\t' || (0x20 ≤ c.toNat && c.toNat ≠ 0x7f)

/-- The characters after the blanks. -/
def skipBlanks (cs : List Char) : List Char :=
  cs.dropWhile fun c => c = ' ' || c = '\t'

/-- The characters after a comment, if one begins here. -/
def skipComment : List Char → List Char
  | '#' :: cs => cs.dropWhile isPlain
  | cs => cs

/-- The characters after a line end. -/
def afterLineEnd? : List Char → Option (List Char)
  | '\n' :: cs => some cs
  | '\r' :: '\n' :: cs => some cs
  | _ => none

/-- The characters of the next line, if nothing but blanks and a comment is left of this one. -/
def nextLine? (cs : List Char) : Option (List Char) :=
  match skipComment (skipBlanks cs) with
  | [] => some []
  | cs => afterLineEnd? cs

/-- The characters after blanks, line ends and comments. -/
def skipFiller (inComment : Bool) : List Char → List Char
  | [] => []
  | '\n' :: cs => skipFiller false cs
  | '\r' :: '\n' :: cs => skipFiller false cs
  | c :: cs =>
    if inComment then if isPlain c then skipFiller true cs else c :: cs
    else if c = ' ' || c = '\t' then skipFiller false cs
    else if c = '#' then skipFiller true cs
    else c :: cs

/-- The character whose code point a list of hexadecimal digits gives. -/
def charOfHex? (digits : List Char) : Option Char := do
  let n ← digits.foldlM (fun n c => do return 16 * n + (← hexDigit? c)) 0
  if h : n.isValidChar then some (Char.ofNatAux n h) else none

/-- The character that the escape after a backslash stands for. -/
def escape : List Char → Option (Char × List Char)
  | 'b' :: cs => some ('\x08', cs)
  | 't' :: cs => some ('\t', cs)
  | 'n' :: cs => some ('\n', cs)
  | 'f' :: cs => some ('\x0c', cs)
  | 'r' :: cs => some ('\r', cs)
  | '"' :: cs => some ('"', cs)
  | '\\' :: cs => some ('\\', cs)
  | 'u' :: cs => do
    guard (4 ≤ cs.length)
    return (← charOfHex? (cs.take 4), cs.drop 4)
  | 'U' :: cs => do
    guard (8 ≤ cs.length)
    return (← charOfHex? (cs.take 8), cs.drop 8)
  | _ => none

/-- A text in double quotes, after the opening one. The characters read so far are in `read`, the
last one first. -/
def basicFrom (read : List Char) (cs : List Char) : Option (String × List Char) :=
  match cs with
  | '"' :: cs => some (String.ofList read.reverse, cs)
  | '\\' :: cs =>
    match escape cs with
    | some (c, rest) => if rest.length ≤ cs.length then basicFrom (c :: read) rest else none
    | none => none
  | c :: cs => if isPlain c then basicFrom (c :: read) cs else none
  | [] => none
termination_by cs.length

/-- A text in double quotes, after the opening one. -/
def basicText (cs : List Char) : Option (String × List Char) :=
  basicFrom [] cs

/-- A text in single quotes, after the opening one. -/
def literalText (cs : List Char) : Option (String × List Char) :=
  match cs.span fun c => isPlain c && c ≠ '\'' with
  | (text, '\'' :: rest) => some (String.ofList text, rest)
  | _ => none

/-- The characters after blanks and line ends. -/
def skipBlankLines : List Char → List Char
  | '\r' :: '\n' :: cs => skipBlankLines cs
  | c :: cs => if c = ' ' || c = '\t' || c = '\n' then skipBlankLines cs else c :: cs
  | [] => []

/-- The characters after a backslash at the end of a line: the blanks and line ends up to the next
other character are skipped. -/
def afterLineBreak? (cs : List Char) : Option (List Char) :=
  (afterLineEnd? (skipBlanks cs)).map skipBlankLines

/-- A text of several lines in double quotes, after the opening ones. It may end in two quotes of
its own. -/
def longBasicFrom (read : List Char) (cs : List Char) : Option (String × List Char) :=
  match cs with
  | '"' :: '"' :: '"' :: '"' :: '"' :: cs => some (String.ofList ('"' :: '"' :: read).reverse, cs)
  | '"' :: '"' :: '"' :: '"' :: cs => some (String.ofList ('"' :: read).reverse, cs)
  | '"' :: '"' :: '"' :: cs => some (String.ofList read.reverse, cs)
  | '\\' :: cs =>
    match afterLineBreak? cs with
    | some rest => if rest.length ≤ cs.length then longBasicFrom read rest else none
    | none =>
      match escape cs with
      | some (c, rest) => if rest.length ≤ cs.length then longBasicFrom (c :: read) rest else none
      | none => none
  | '\n' :: cs => longBasicFrom ('\n' :: read) cs
  | '\r' :: '\n' :: cs => longBasicFrom ('\n' :: read) cs
  | c :: cs => if isPlain c then longBasicFrom (c :: read) cs else none
  | [] => none
termination_by cs.length

/-- A text of several lines in single quotes, after the opening ones. -/
def longLiteralFrom (read : List Char) (cs : List Char) : Option (String × List Char) :=
  match cs with
  | '\'' :: '\'' :: '\'' :: '\'' :: '\'' :: cs =>
    some (String.ofList ('\'' :: '\'' :: read).reverse, cs)
  | '\'' :: '\'' :: '\'' :: '\'' :: cs => some (String.ofList ('\'' :: read).reverse, cs)
  | '\'' :: '\'' :: '\'' :: cs => some (String.ofList read.reverse, cs)
  | '\n' :: cs => longLiteralFrom ('\n' :: read) cs
  | '\r' :: '\n' :: cs => longLiteralFrom ('\n' :: read) cs
  | c :: cs => if isPlain c then longLiteralFrom (c :: read) cs else none
  | [] => none

/-- The characters after a line end that directly follows opening quotes. -/
def afterFirstLineEnd (cs : List Char) : List Char :=
  (afterLineEnd? cs).getD cs

/-- A text of several lines in double quotes, after the opening ones. -/
def longBasicText (cs : List Char) : Option (String × List Char) :=
  longBasicFrom [] (afterFirstLineEnd cs)

/-- A text of several lines in single quotes, after the opening ones. -/
def longLiteralText (cs : List Char) : Option (String × List Char) :=
  longLiteralFrom [] (afterFirstLineEnd cs)

end FluentGrammar.Toml
