import FluentGrammar.Declaration.OfTree
import FluentGrammar.Proofs.TextLines

/-!
# Documentation that is read back

Reading a block of documentation leaves tidy lines without margins: asterisks, blanks and empty
lines around the text are gone. Exactly such documentation is read back from the block that is
printed for it, so reading, printing and reading again changes nothing.

* `IsDocumentation`: texts of tidy lines without margins.
* `isDocumentation_docText`: what is read is such a text.
* `docText_docBlock_eq_iff`: such texts, and no others, are read back from their blocks.
* **`Tree.commentOf_docBlock`**: the documentation of a node is read back from its block.
-/

namespace FluentGrammar

namespace Text

/-- A text of tidy lines, all of them without margins. -/
def IsDocumentation (text : String) : Prop :=
  ∃ lines, text.toList = joinLines lines ∧ TidyLines lines ∧ ∀ line ∈ lines, FlushLeft line

/-! ## Reading -/

theorem undocLine_cases (line : List Char) :
    (∃ rest, trimChars line = ['*'] ++ rest ∧ undocLine line = trimStartChars rest) ∨
      undocLine line = trimChars line := by
  simp only [undocLine]
  split
  · rename_i rest hrest
    exact .inl ⟨rest, eq_append_of_afterFront? hrest, rfl⟩
  · exact .inr rfl

theorem isSuffix_undocLine (line : List Char) : undocLine line <:+ trimChars line := by
  obtain ⟨rest, htrim, hundoc⟩ | hundoc := undocLine_cases line
  · rw [hundoc, htrim]
    exact (List.dropWhile_suffix _).trans (List.suffix_append _ _)
  · exact hundoc ▸ List.suffix_rfl

theorem flushLeft_undocLine (line : List Char) : FlushLeft (undocLine line) := by
  obtain ⟨rest, -, hundoc⟩ | hundoc := undocLine_cases line
  · rw [hundoc]
    exact flushLeft_trimStartChars rest
  · rw [hundoc]
    exact flushLeft_trimChars line

theorem flushRight_undocLine (line : List Char) : FlushRight (undocLine line) :=
  (flushRight_trimChars line).of_isSuffix (isSuffix_undocLine line)

theorem trimChars_subset (cs : List Char) : trimChars cs ⊆ cs :=
  List.Subset.trans (List.rdropWhile_prefix _ _).subset (List.dropWhile_sublist _).subset

/-- The documentation in a block consists of its lines, from the first to the last that is not
empty. -/
theorem docTextChars_eq_joinLines (cs : List Char) :
    docTextChars cs = joinLines (dropEmptyEnds ((lineChars (dropBack ['*', '/']
      (dropFront ['/', '*', '*'] (trimChars cs)))).map undocLine)) := by
  refine trimEndChars_joinLines fun line hline => ?_
  obtain ⟨written, -, rfl⟩ := List.mem_map.mp ((List.dropWhile_sublist _).subset hline)
  exact flushRight_undocLine written

/-- **What is read is documentation without margins.** -/
theorem isDocumentation_docText (block : String) : IsDocumentation (docText block) := by
  refine ⟨_, String.toList_ofList.trans (docTextChars_eq_joinLines _), ?_, fun line hline => ?_⟩
  · refine tidyLines_dropEmptyEnds (fun line hline hfeed => ?_) fun line hline => ?_
    · obtain ⟨written, hwritten, rfl⟩ := List.mem_map.mp hline
      refine feed_not_mem_of_mem_lineChars hwritten ?_
      exact trimChars_subset written ((isSuffix_undocLine written).subset hfeed)
    · obtain ⟨written, -, rfl⟩ := List.mem_map.mp hline
      exact flushRight_undocLine written
  · obtain ⟨written, -, rfl⟩ := List.mem_map.mp (dropEmptyEnds_subset _ hline)
    exact flushLeft_undocLine written

/-! ## Printing -/

/-- A line of a block without its line feed. -/
def marked (line : List Char) : List Char :=
  if line.isEmpty then [' ', '*'] else [' ', '*', ' '] ++ line

theorem docLine_eq (line : List Char) : docLine line = marked line ++ ['\n'] := by
  unfold docLine marked
  split <;> rfl

section Marked

variable {line : List Char}

theorem flushRight_marked (h : FlushRight line) : FlushRight (marked line) := by
  unfold marked
  split
  · rintro c ⟨⟩
    decide
  · rename_i hne
    exact h.append (by simpa using hne) _

theorem feed_not_mem_marked (h : '\n' ∉ line) : '\n' ∉ marked line := by
  unfold marked
  split
  · decide
  · simpa using h

/-- The asterisk in front of a line is taken off, and asterisks of the line itself stay. -/
theorem undocLine_marked (hleft : FlushLeft line) (hright : FlushRight line) :
    undocLine (marked line) = line := by
  have htrim : ∃ rest, trimChars (marked line) = ['*'] ++ rest ∧ trimStartChars rest = line := by
    by_cases hline : line = []
    · subst hline
      exact ⟨[], by decide, rfl⟩
    · have hstart : trimStartChars (marked line) = '*' :: ' ' :: line := by
        rw [marked, if_neg (by simpa using hline)]
        rfl
      refine ⟨' ' :: line, ?_, trimStartChars_eq_self hleft⟩
      rw [trimChars, hstart]
      exact trimEndChars_eq_self (hright.append hline ['*', ' '])
  obtain ⟨rest, hrest, hline⟩ := htrim
  rw [undocLine, hrest, afterFront?_append]
  exact hline

end Marked

section Blocks

variable {lines : List (List Char)}

theorem docBlockChars_joinLines (h : TidyLines lines) (hne : lines ≠ []) :
    docBlockChars (joinLines lines) =
      ['/', '*', '*'] ++ (([] :: lines.map marked).flatMap (· ++ ['\n']) ++ [' ']) ++
        ['*', '/'] ++ ['\n'] := by
  have hink : ¬ (joinLines lines).all isBlank = true := by
    rw [List.all_eq_true]
    exact h.exists_ink hne
  have hlines : lines.flatMap docLine = (lines.map marked).flatMap (· ++ ['\n']) := by
    rw [List.flatMap_map]
    exact List.flatMap_congr fun line _ => docLine_eq line
  rw [docBlockChars, if_neg hink, lineChars_joinLines h, hlines]
  simp

theorem trimChars_block (inner : List Char) :
    trimChars (['/', '*', '*'] ++ inner ++ ['*', '/'] ++ ['\n']) =
      ['/', '*', '*'] ++ inner ++ ['*', '/'] := by
  have hright : FlushRight ['*', '/'] := by
    rintro c ⟨⟩
    decide
  have hstart : trimStartChars (['/', '*', '*'] ++ inner ++ ['*', '/'] ++ ['\n']) =
      ['/', '*', '*'] ++ inner ++ ['*', '/'] ++ ['\n'] := by
    apply trimStartChars_eq_self
    rintro c ⟨⟩
    decide
  rw [trimChars, hstart, trimEndChars_concat (by decide),
    trimEndChars_eq_self (hright.append (by simp) _)]

/-- **What is printed for tidy lines without margins is read back.** -/
theorem docTextChars_docBlockChars (h : TidyLines lines) (hleft : ∀ line ∈ lines, FlushLeft line) :
    docTextChars (docBlockChars (joinLines lines)) = joinLines lines := by
  rcases eq_or_ne lines [] with rfl | hne
  · rfl
  have hmarked : ∀ line ∈ [] :: lines.map marked, '\n' ∉ line ∧ FlushRight line := by
    intro written hwritten
    rcases List.mem_cons.mp hwritten with rfl | hwritten
    · simp [FlushRight]
    · obtain ⟨line, hline, rfl⟩ := List.mem_map.mp hwritten
      exact ⟨feed_not_mem_marked (h.feed line hline), flushRight_marked (h.right line hline)⟩
  have hundoc : (lines.map marked).map undocLine = lines := by
    rw [List.map_map]
    refine (List.map_congr_left fun line hline => ?_).trans (List.map_id lines)
    exact undocLine_marked (hleft line hline) (h.right line hline)
  have hlines := lineChars_flatMap (fun line hline => (hmarked line hline).1)
    (fun line hline => (hmarked line hline).2) [' ']
  rw [docTextChars_eq_joinLines, docBlockChars_joinLines h hne, trimChars_block, dropFront,
    List.append_assoc, afterFront?_append, Option.getD_some, dropBack, beforeBack?_append,
    Option.getD_some, hlines, List.map_append, List.map_cons, hundoc]
  congr 1
  exact (dropEmptyEnds_concat_nil lines).trans (dropEmptyEnds_eq_self h)

end Blocks

/-- Documentation is read back from its block if it is what can be read, and only then. -/
theorem docText_docBlock_eq_iff {text : String} :
    docText (docBlock text) = text ↔ IsDocumentation text := by
  constructor
  · intro h
    rw [← h]
    exact isDocumentation_docText _
  · rintro ⟨lines, htext, hlines, hleft⟩
    rw [← String.toList_inj, docText, docBlock, String.toList_ofList, String.toList_ofList, htext]
    exact docTextChars_docBlockChars hlines hleft

end Text

namespace Tree

open Text

theorem commentOf_eq_docText {node comment : Tree} {text : String}
    (hfirst : node.first? "Comment" = some comment) (hvalue : comment.value = some text) :
    node.commentOf = docText text := by
  simp only [commentOf, hfirst, hvalue, Option.getD_some]

/-- **Documentation is read back as it was printed.** The documentation that a node has from the
value of its comment is what is read from the block that shows it, whatever the value was. It is a
text of tidy lines without margins, and these are the only texts that are read back. -/
theorem commentOf_docBlock {text : String} {node comment printed block : Tree}
    (hnode : node.first? "Comment" = some comment) (htext : comment.value = some text)
    (hprinted : printed.first? "Comment" = some block)
    (hblock : block.value = some (docBlock node.commentOf)) :
    printed.commentOf = node.commentOf ∧ IsDocumentation node.commentOf ∧
      ∀ doc, docText (docBlock doc) = doc ↔ IsDocumentation doc := by
  have hread : IsDocumentation node.commentOf := by
    rw [commentOf_eq_docText hnode htext]
    exact isDocumentation_docText text
  refine ⟨?_, hread, fun doc => docText_docBlock_eq_iff⟩
  rw [commentOf_eq_docText hprinted hblock]
  exact docText_docBlock_eq_iff.mpr hread

/-- A method with a comment. -/
def documented (text : String) : Tree :=
  ⟨"Method", none, none, .synthetic, [⟨"Comment", some text, none, .synthetic, []⟩]⟩

/-- One asterisk is taken off a line, and the end of a comment within a line stays. -/
theorem commentOf_docBlock_asterisks :
    (documented " /** \n\n ** a */ b \r\n*\n /* c\n *").commentOf = "* a */ b\n\n/* c" ∧
    docBlock "* a */ b\n\n/* c" = "/**\n * * a */ b\n *\n * /* c\n */\n" ∧
    (documented "/**\n * * a */ b\n *\n * /* c\n */\n").commentOf = "* a */ b\n\n/* c" := by
  have hread : (documented " /** \n\n ** a */ b \r\n*\n /* c\n *").commentOf =
      "* a */ b\n\n/* c" := by
    decide +kernel
  have hblock : docBlock "* a */ b\n\n/* c" = "/**\n * * a */ b\n *\n * /* c\n */\n" := by
    decide +kernel
  refine ⟨hread, hblock, Eq.trans (commentOf_docBlock rfl rfl rfl ?_).1 hread⟩
  rw [hread, hblock]

end Tree

end FluentGrammar
