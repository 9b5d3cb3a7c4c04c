import FluentGrammar.Resolution.Factories
import Mathlib.Data.List.Basic

/-!
# String literals

The terminals of a rule stand in generated code as string literals. A literal is read up to its
closing quote: a backslash and a letter, or up to three octal digits, stand for one character, and
the line must not end before the literal does. What is written for a text is read as this text, and
reading stops where writing did, but for one thing: a carriage return is written as it is, and it
ends the line.

* `readEscape`, `readBody`, `readLiteral?`: how literals are read.
* `hasCodeEscape`: escapes by code, which are replaced before literals are read.
* `literalChar_cases`: how a character is written.
* **`stringLiteral_read`**: what is read for a text.
-/

namespace FluentGrammar

/-! ## Reading literals -/

/-- The character that a letter after a backslash stands for. -/
def escapedChar? : Char → Option Char
  | 'b' => some '\x08'
  | 's' => some ' '
  | 't' => some '\t'
  | 'n' => some '\n'
  | 'f' => some '\x0c'
  | 'r' => some '\r'
  | '"' => some '"'
  | '\x27' => some '\x27'
  | '\\' => some '\\'
  | _ => none

/-- A digit of an octal number. -/
def isOctal (c : Char) : Bool :=
  '0' ≤ c && c ≤ '7'

/-- The character that an escape stands for, read from the characters after its backslash, and how
many of them it takes up. An octal number has as many digits as follow, at most three, and at most
two if the first is greater than `3`. -/
def readEscape : List Char → Option (Char × Nat)
  | [] => none
  | c :: cs =>
    if isOctal c then
      let digits := ((c :: cs).take (if c ≤ '3' then 3 else 2)).takeWhile isOctal
      some (Char.ofNat (Nat.ofDigitChars 8 digits 0), digits.length)
    else (escapedChar? c).map fun value => (value, 1)

/-- What a literal stands for, read from the characters after its opening quote, and what follows
its closing one. The characters in `ends` end the line. -/
def readBody (ends : List Char) : List Char → Option (List Char × List Char)
  | [] => none
  | c :: cs =>
    if c = '"' then some ([], cs)
    else if c = '\\' then (readEscape cs).bind fun e =>
      (readBody ends (cs.drop e.2)).map (Prod.map (e.1 :: ·) id)
    else if c ∈ ends then none
    else (readBody ends cs).map (Prod.map (c :: ·) id)
termination_by cs => cs.length
decreasing_by all_goals simp only [List.length_drop, List.length_cons]; omega

/-- What the literal at the beginning stands for, and what follows it. -/
def readLiteral? (ends : List Char) : List Char → Option (List Char × List Char)
  | '"' :: cs => readBody ends cs
  | _ => none

/-- The characters that end a line of code. -/
def lineEnds : List Char := ['\n', '\r']

/-- A backslash begins an escape by code, `\u`, unless it is the second one of two. -/
def hasCodeEscape : List Char → Bool
  | '\\' :: '\\' :: cs => hasCodeEscape cs
  | '\\' :: 'u' :: _ => true
  | _ :: cs => hasCodeEscape cs
  | [] => false

/-! ## Written characters -/

theorem literalChar_cases (c : Char) :
    (literalChar c = [c] ∧ c ≠ '"' ∧ c ≠ '\\' ∧ c ≠ '\n') ∨
      ∃ e, literalChar c = ['\\', e] ∧ e ≠ 'u' ∧ escapedChar? e = some c ∧ isOctal e = false := by
  unfold literalChar
  split
  · exact .inr ⟨'"', rfl, by decide, rfl, rfl⟩
  · exact .inr ⟨'\\', rfl, by decide, rfl, rfl⟩
  · exact .inr ⟨'n', rfl, by decide, rfl, rfl⟩
  · exact .inr ⟨'t', rfl, by decide, rfl, rfl⟩
  · rename_i hquote hslash hline _
    exact .inl ⟨rfl, hquote, hslash, hline⟩

theorem readBody_literalChar (ends : List Char) (c : Char) (cs : List Char) :
    readBody ends (literalChar c ++ cs) =
      if c ∈ ends ∧ literalChar c = [c] then none
      else (readBody ends cs).map (Prod.map (c :: ·) id) := by
  rcases literalChar_cases c with ⟨hc, hquote, hslash, -⟩ | ⟨e, hc, -, hvalue, hoctal⟩
  · rw [hc, List.singleton_append, readBody, if_neg hquote, if_neg hslash]
    simp
  · rw [hc, List.cons_append, List.singleton_append, readBody, if_neg (by decide), if_pos rfl,
      readEscape, hoctal, hvalue]
    simp

/-- The text is read back, unless it has a character that ends the line and is not escaped. -/
theorem readBody_flatMap (ends text rest : List Char) :
    readBody ends (text.flatMap literalChar ++ '"' :: rest) =
      if text.any (fun c => c ∈ ends ∧ literalChar c = [c]) then none else some (text, rest) := by
  induction text with
  | nil => simp [readBody]
  | cons c text ih =>
    rw [List.flatMap_cons, List.append_assoc, readBody_literalChar, ih, List.any_cons]
    by_cases hc : c ∈ ends ∧ literalChar c = [c]
    · simp [hc]
    · simp only [hc, if_false, decide_false, Bool.false_or]
      split <;> rfl

theorem toList_stringLiteral (text : String) (rest : List Char) :
    (stringLiteral text).toList ++ rest =
      '"' :: (text.toList.flatMap literalChar ++ '"' :: rest) := by
  simp [stringLiteral]

theorem hasCodeEscape_cons {c : Char} (hc : c ≠ '\\') (cs : List Char) :
    hasCodeEscape (c :: cs) = hasCodeEscape cs := by
  rw [hasCodeEscape]
  · exact fun _ he => absurd he hc
  · exact fun _ he => absurd he hc

theorem hasCodeEscape_escape {e : Char} (he : e ≠ 'u') (cs : List Char) :
    hasCodeEscape ('\\' :: e :: cs) = hasCodeEscape cs := by
  by_cases hslash : e = '\\'
  · rw [hslash, hasCodeEscape]
  · rw [hasCodeEscape]
    · exact hasCodeEscape_cons hslash cs
    · intro tail _ htail
      exact hslash (List.cons_eq_cons.mp htail).1
    · intro tail _ htail
      exact he (List.cons_eq_cons.mp htail).1

theorem hasCodeEscape_flatMap (text rest : List Char) :
    hasCodeEscape (text.flatMap literalChar ++ '"' :: rest) = hasCodeEscape rest := by
  induction text with
  | nil => exact hasCodeEscape_cons (by decide) rest
  | cons c text ih =>
    rw [List.flatMap_cons, List.append_assoc]
    rcases literalChar_cases c with ⟨hc, -, hslash, -⟩ | ⟨e, hc, he, -⟩
    · rw [hc, List.singleton_append, hasCodeEscape_cons hslash, ih]
    · rw [hc, List.cons_append, List.singleton_append, hasCodeEscape_escape he, ih]

/-- **The literal of a text is read as the text, unless that has a carriage return.** If only line
feeds ended the line, every text would be read back, whatever follows its literal. A carriage return
ends it too, and with one in the text there is no literal. There are no escapes by code to be
replaced before. -/
theorem stringLiteral_read (text : String) (rest : List Char) :
    hasCodeEscape ((stringLiteral text).toList ++ rest) = hasCodeEscape rest ∧
    readLiteral? ['\n'] ((stringLiteral text).toList ++ rest) = some (text.toList, rest) ∧
    readLiteral? lineEnds ((stringLiteral text).toList ++ rest) =
      if '\r' ∈ text.toList then none else some (text.toList, rest) := by
  rw [toList_stringLiteral]
  refine ⟨?_, ?_, ?_⟩
  · rw [hasCodeEscape_cons (by decide), hasCodeEscape_flatMap]
  · rw [readLiteral?, readBody_flatMap, if_neg]
    simp only [List.any_eq_true, decide_eq_true_eq, List.mem_singleton, not_exists, not_and]
    rintro c - rfl
    decide
  · rw [readLiteral?, readBody_flatMap]
    congr 1
    simp only [List.any_eq_true, decide_eq_true_eq, eq_iff_iff]
    constructor
    · rintro ⟨c, hc, hend, hplain⟩
      rcases List.mem_pair.mp hend with rfl | rfl
      · cases hplain
      · exact hc
    · exact fun hmem => ⟨'\r', hmem, by decide, rfl⟩

/-- A carriage return ends the line within the literal. -/
theorem stringLiteral_carriage_return :
    (stringLiteral "a\rb").toList = ['"', 'a', '\r', 'b', '"'] ∧
    readLiteral? lineEnds (stringLiteral "a\rb").toList = none := by
  decide +kernel

end FluentGrammar
