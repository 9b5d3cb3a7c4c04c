import Mathlib.Data.List.TakeWhile
import FluentGrammar.TypeExpr.Token

/-!
# How a text is cut into tokens

The rule for cutting a text into words and marks, without the offsets that tokens have: a word goes
on as far as it can, blanks are left out, and every other character is a mark. The rule leaves no
choice, and `tokens` follows it.

* `Splits`: the rule.
* **`splits_iff`**: the lexemes of the tokens are the only ones that the rule allows.
-/

namespace FluentGrammar

/-! ## Classes of characters -/

/-- The code points of the blank characters. -/
def blankCodes : List Nat :=
  List.range' 0x9 5 ++ [0x20, 0x85, 0xa0, 0x1680] ++ List.range' 0x2000 11 ++
    [0x2028, 0x2029, 0x202f, 0x205f, 0x3000]

theorem toNat_mem_blankCodes {c : Char} (h : Text.isBlank c = true) : c.toNat ∈ blankCodes := by
  simp only [Text.isBlank, Bool.or_eq_true, Bool.and_eq_true, decide_eq_true_eq, beq_iff_eq] at h
  simp only [blankCodes, List.mem_append, List.mem_range'_1, List.mem_cons, List.not_mem_nil,
    or_false]
  omega

theorem isWordPart_eq_false_of_isBlank {c : Char} (h : Text.isBlank c = true) :
    isWordPart c = false := by
  by_contra hpart
  have hmem := toNat_mem_blankCodes h
  have hcodes : ∀ n ∈ blankCodes, Text.CodeRange.covers Text.letters n = false ∧
      Text.CodeRange.covers Text.numerals n = false := by
    decide +kernel
  have hletter : Text.isLetter c = false := (hcodes _ hmem).1
  have hnumeral : Text.isNumeral c = false := (hcodes _ hmem).2
  simp only [isWordPart, Text.isLetterOrNumeral, hletter, hnumeral, Bool.or_self, Bool.false_or,
    Bool.not_eq_false, Bool.or_eq_true, beq_iff_eq] at hpart
  rcases hpart with rfl | rfl
  · exact absurd hmem (by decide)
  · exact absurd hmem (by decide)

theorem isBlank_eq_false_of_isWordStart {c : Char} (h : isWordStart c = true) :
    Text.isBlank c = false := by
  by_contra hblank
  have hpart := isWordPart_eq_false_of_isBlank (by simpa using hblank)
  rw [isWordPart_of_isWordStart h] at hpart
  cases hpart

/-! ## Cutting -/

/-- Characters are cut into lexemes. -/
inductive Splits : List Char → List Lexeme → Prop
  | nil : Splits [] []
  /-- A blank belongs to no lexeme. -/
  | blank {c : Char} {cs : List Char} {ls : List Lexeme} (hc : Text.isBlank c = true)
    (h : Splits cs ls) : Splits (c :: cs) ls
  /-- A word goes on until a character comes that cannot continue it. -/
  | word {c : Char} {part cs : List Char} {ls : List Lexeme} (hc : isWordStart c = true)
    (hpart : ∀ p ∈ part, isWordPart p = true) (hcs : ∀ p ∈ cs.head?, isWordPart p = false)
    (h : Splits cs ls) : Splits (c :: part ++ cs) (.word (String.ofList (c :: part)) :: ls)
  /-- Every other character stands for itself. -/
  | mark {c : Char} {cs : List Char} {ls : List Lexeme} (hblank : Text.isBlank c = false)
    (hc : isWordStart c = false) (h : Splits cs ls) : Splits (c :: cs) (.mark c :: ls)

theorem takeWhile_append_of_stop {α : Type} {p : α → Bool} {part rest : List α}
    (hpart : ∀ a ∈ part, p a = true) (hrest : ∀ a ∈ rest.head?, p a = false) :
    (part ++ rest).takeWhile p = part ∧ (part ++ rest).dropWhile p = rest := by
  rw [List.takeWhile_append_of_pos hpart, List.dropWhile_append_of_pos hpart]
  cases rest with
  | nil => simp
  | cons a rest =>
    have ha : p a = false := hrest a rfl
    simp [ha]

theorem splits_tokensFrom (offset : Nat) (cs : List Char) :
    Splits cs ((tokensFrom offset cs).map Token.lexeme) := by
  fun_induction tokensFrom offset cs with
  | case1 => exact .nil
  | case2 offset c cs hblank ih => exact .blank hblank ih
  | case3 offset c cs hblank hstart tail stop ih =>
    have hsplit : c :: cs = c :: tail ++ cs.dropWhile isWordPart := by
      rw [List.cons_append, List.takeWhile_append_dropWhile]
    rw [hsplit]
    refine .word hstart (fun p hp => List.mem_takeWhile_imp hp) (fun p hp => ?_) ih
    have hstop := cs.head?_dropWhile_not isWordPart
    rw [Option.mem_def.mp hp] at hstop
    exact hstop
  | case4 offset c cs hblank hstart ih =>
    exact .mark (by simpa using hblank) (by simpa using hstart) ih

theorem Splits.lexemes_tokensFrom {cs : List Char} {ls : List Lexeme} (h : Splits cs ls)
    (offset : Nat) : (tokensFrom offset cs).map Token.lexeme = ls := by
  induction h generalizing offset with
  | nil =>
    unfold tokensFrom
    rfl
  | blank hc _ ih =>
    unfold tokensFrom
    rw [if_pos hc, ih]
  | word hc hpart hcs _ ih =>
    obtain ⟨htake, hdrop⟩ := takeWhile_append_of_stop hpart hcs
    rw [List.cons_append]
    unfold tokensFrom
    rw [if_neg (by simp [isBlank_eq_false_of_isWordStart hc]), if_pos hc, htake, hdrop,
      List.map_cons, ih]
  | mark hblank hc _ ih =>
    unfold tokensFrom
    rw [if_neg (by simp [hblank]), if_neg (by simp [hc]), List.map_cons, ih]

/-- **The lexemes of the tokens are the only ones that the rule allows.** -/
theorem splits_iff {text : String} {ls : List Lexeme} :
    Splits text.toList ls ↔ (tokens text).map Token.lexeme = ls :=
  ⟨fun h => h.lexemes_tokensFrom 0, fun h => h ▸ splits_tokensFrom 0 text.toList⟩

end FluentGrammar
