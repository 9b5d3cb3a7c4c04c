import FluentGrammar.Text.Body
import Mathlib.Data.List.DropRight
import Mathlib.Data.List.TakeWhile

/-!
# Lines and their ends

How texts are put together from lines and cut into lines again. Lines that have no blanks at their
ends are found again in the text that joins them, and what trimming takes off such a text are empty
lines.

* `FlushLeft`, `FlushRight`: characters without blanks at one end.
* `lineChars_flatMap`: lines with line feeds after them are the lines of the text.
* `TidyLines`: lines without blanks at their ends, of which the first and the last are not empty.
* **`lineChars_joinLines`**: tidy lines are the lines of the text that joins them.
* **`trimEndChars_joinLines`**: trimming a text takes off the empty lines at its end.
-/

namespace FluentGrammar.Text

/-! ## Blanks at the ends -/

/-- No blank stands at the beginning. -/
def FlushLeft (cs : List Char) : Prop :=
  ∀ c ∈ cs.head?, isBlank c = false

/-- No blank stands at the end. -/
def FlushRight (cs : List Char) : Prop :=
  ∀ c ∈ cs.getLast?, isBlank c = false

section Ends

variable {cs part : List Char}

theorem trimStartChars_eq_self (h : FlushLeft cs) : trimStartChars cs = cs := by
  cases cs with
  | nil => rfl
  | cons c cs => exact List.dropWhile_cons_of_neg (by simp [h c rfl])

theorem flushLeft_trimStartChars (cs : List Char) : FlushLeft (trimStartChars cs) := by
  intro c hc
  unfold trimStartChars at hc
  have hstop := cs.head?_dropWhile_not isBlank
  rw [Option.mem_def.mp hc] at hstop
  exact hstop

theorem trimEndChars_eq_rdropWhile (cs : List Char) : trimEndChars cs = cs.rdropWhile isBlank :=
  rfl

theorem trimEndChars_eq_self (h : FlushRight cs) : trimEndChars cs = cs := by
  refine List.rdropWhile_eq_self_iff.mpr fun hne => ?_
  simp [h _ (List.getLast_mem_getLast? hne)]

theorem flushRight_trimEndChars (cs : List Char) : FlushRight (trimEndChars cs) := by
  rw [trimEndChars_eq_rdropWhile]
  intro c hc
  obtain ⟨hne, rfl⟩ := List.mem_getLast?_eq_getLast hc
  simpa using List.rdropWhile_last_not isBlank cs hne

theorem FlushLeft.of_isPrefix (h : FlushLeft cs) (hpart : part <+: cs) : FlushLeft part := by
  obtain ⟨rest, rfl⟩ := hpart
  cases part with
  | nil => simp [FlushLeft]
  | cons c part => exact h

theorem FlushRight.of_isSuffix (h : FlushRight cs) (hpart : part <:+ cs) : FlushRight part := by
  obtain ⟨rest, rfl⟩ := hpart
  intro c hc
  refine h c ?_
  rw [List.getLast?_append, Option.mem_def.mp hc]
  rfl

theorem FlushRight.append (h : FlushRight cs) (hne : cs ≠ []) (front : List Char) :
    FlushRight (front ++ cs) := by
  rwa [FlushRight, List.getLast?_append_of_ne_nil front hne]

theorem FlushRight.trimStartChars_ne_nil (h : FlushRight cs) (hne : cs ≠ []) :
    trimStartChars cs ≠ [] := by
  intro hnil
  have hblank := List.dropWhile_eq_nil_iff.mp hnil _ (List.getLast_mem hne)
  rw [h _ (List.getLast_mem_getLast? hne)] at hblank
  cases hblank

theorem flushLeft_trimChars (cs : List Char) : FlushLeft (trimChars cs) :=
  (flushLeft_trimStartChars cs).of_isPrefix (List.rdropWhile_prefix isBlank _)

theorem flushRight_trimChars (cs : List Char) : FlushRight (trimChars cs) :=
  flushRight_trimEndChars _

theorem trimChars_eq_self (hleft : FlushLeft cs) (hright : FlushRight cs) : trimChars cs = cs := by
  rw [trimChars, trimStartChars_eq_self hleft, trimEndChars_eq_self hright]

theorem trimEndChars_concat {c : Char} (hc : isBlank c = true) (cs : List Char) :
    trimEndChars (cs ++ [c]) = trimEndChars cs :=
  List.rdropWhile_concat_pos isBlank cs c hc

end Ends

/-! ## Beginnings and ends -/

section Affixes

variable {front cs rest : List Char}

theorem afterFront?_append (front cs : List Char) : afterFront? front (front ++ cs) = some cs := by
  rw [afterFront?, if_pos (List.isPrefixOf_iff_prefix.mpr (List.prefix_append front cs)),
    List.drop_left]

theorem beforeBack?_append (cs back : List Char) : beforeBack? back (cs ++ back) = some cs := by
  rw [beforeBack?, if_pos (List.isSuffixOf_iff_suffix.mpr (List.suffix_append cs back)),
    List.length_append, Nat.add_sub_cancel, List.take_left]

theorem eq_append_of_afterFront? (h : afterFront? front cs = some rest) : cs = front ++ rest := by
  unfold afterFront? at h
  split at h
  · rename_i hfront
    obtain ⟨tail, rfl⟩ := List.isPrefixOf_iff_prefix.mp hfront
    rw [List.drop_left] at h
    rw [Option.some.inj h]
  · cases h

end Affixes

/-! ## Lines -/

section Lines

variable {cs line : List Char} {lines : List (List Char)}

theorem linesFrom_append (h : '\n' ∉ line) (begun cs : List Char) :
    linesFrom begun (line ++ cs) = linesFrom (line.reverse ++ begun) cs := by
  induction line generalizing begun with
  | nil => rfl
  | cons c line ih =>
    obtain ⟨hc, hline⟩ := not_or.mp (mt List.mem_cons.mpr h)
    rw [List.cons_append, linesFrom, if_neg (Ne.symm hc), ih hline]
    simp

theorem dropReturn_eq_self (h : FlushRight line) : dropReturn line = line := by
  unfold dropReturn
  split
  · rename_i front hrev
    have hlast : '\r' ∈ line.getLast? := by
      rw [← List.head?_reverse, hrev]
      rfl
    exact absurd (h _ hlast) (by decide)
  · rfl

theorem lineChars_append_feed (h : '\n' ∉ line) (hright : FlushRight line) (cs : List Char) :
    lineChars (line ++ '\n' :: cs) = line :: lineChars cs := by
  rw [lineChars, linesFrom_append h, linesFrom, if_pos rfl, List.append_nil, List.reverse_reverse,
    dropReturn_eq_self hright]
  rfl

theorem lineChars_singleton (h : '\n' ∉ line) (hne : line ≠ []) : lineChars line = [line] := by
  have heq := linesFrom_append h [] []
  rw [List.append_nil, List.append_nil] at heq
  rw [lineChars, heq, linesFrom, if_neg (by simpa using hne), List.reverse_reverse]

theorem feed_not_mem_linesFrom {begun : List Char} (hbegun : '\n' ∉ begun)
    (h : line ∈ linesFrom begun cs) : '\n' ∉ line := by
  fun_induction linesFrom begun cs with
  | case1 begun _ => cases h
  | case2 begun _ =>
    obtain rfl := List.mem_singleton.mp h
    simpa using hbegun
  | case3 begun cs ih =>
    rcases List.mem_cons.mp h with rfl | h
    · have hreverse : '\n' ∉ begun.reverse := by simpa using hbegun
      unfold dropReturn
      split
      · rename_i front hrev
        rw [List.reverse_reverse] at hrev
        subst hrev
        simpa using fun hmem => hbegun (List.mem_cons_of_mem _ hmem)
      · exact hreverse
    · exact ih (by simp) h
  | case4 begun c cs hc ih =>
    refine ih (fun hmem => ?_) h
    rcases List.mem_cons.mp hmem with rfl | hmem
    · exact hc rfl
    · exact hbegun hmem

theorem feed_not_mem_of_mem_lineChars (h : line ∈ lineChars cs) : '\n' ∉ line :=
  feed_not_mem_linesFrom (by simp) h

/-- Lines with line feeds after them are the first lines of a text. -/
theorem lineChars_flatMap (hfeed : ∀ line ∈ lines, '\n' ∉ line)
    (hright : ∀ line ∈ lines, FlushRight line) (cs : List Char) :
    lineChars (lines.flatMap (· ++ ['\n']) ++ cs) = lines ++ lineChars cs := by
  induction lines with
  | nil => rfl
  | cons line lines ih =>
    obtain ⟨hline, hlines⟩ := List.forall_mem_cons.mp hfeed
    obtain ⟨hflush, hrest⟩ := List.forall_mem_cons.mp hright
    rw [List.flatMap_cons, List.append_assoc, List.append_assoc, List.singleton_append,
      lineChars_append_feed hline hflush, ih hlines hrest, List.cons_append]

theorem joinLines_cons (line : List Char) (h : lines ≠ []) :
    joinLines (line :: lines) = line ++ '\n' :: joinLines lines := by
  cases lines with
  | nil => exact absurd rfl h
  | cons second rest => rfl

theorem joinLines_concat (lines : List (List Char)) (line : List Char) :
    joinLines (lines ++ [line]) = lines.flatMap (· ++ ['\n']) ++ line := by
  induction lines with
  | nil => rfl
  | cons first lines ih =>
    rw [List.cons_append, joinLines_cons first (by simp), ih, List.flatMap_cons]
    simp

theorem joinLines_eq_intercalate (lines : List (List Char)) :
    joinLines lines = ['\n'].intercalate lines := by
  fun_induction joinLines lines with
  | case1 => rfl
  | case2 line => simp
  | case3 line lines hlines ih =>
    obtain ⟨second, rest, rfl⟩ := List.exists_cons_of_ne_nil hlines
    rw [List.intercalate_cons_cons, ih]
    simp

/-! ## Tidy lines -/

/-- Lines without blanks at their ends, of which the first and the last are not empty. -/
structure TidyLines (lines : List (List Char)) : Prop where
  feed : ∀ line ∈ lines, '\n' ∉ line
  right : ∀ line ∈ lines, FlushRight line
  first : [] ∉ lines.head?
  last : [] ∉ lines.getLast?

theorem TidyLines.nil : TidyLines [] := by
  constructor <;> simp

theorem TidyLines.cons (h : TidyLines lines) (hfeed : '\n' ∉ line) (hright : FlushRight line)
    (hne : line ≠ []) : TidyLines (line :: lines) := by
  refine ⟨List.forall_mem_cons.mpr ⟨hfeed, h.feed⟩, List.forall_mem_cons.mpr ⟨hright, h.right⟩,
    by simpa using hne, ?_⟩
  cases lines with
  | nil => simpa using hne
  | cons second rest =>
    rw [List.getLast?_cons_cons]
    exact h.last

/-- Lines stay tidy if they are changed one by one and do not become empty. -/
theorem TidyLines.map {f : List Char → List Char} (h : TidyLines lines)
    (hfeed : ∀ line ∈ lines, '\n' ∉ f line) (hright : ∀ line ∈ lines, FlushRight (f line))
    (hempty : ∀ line ∈ lines, f line = [] → line = []) : TidyLines (lines.map f) := by
  refine ⟨by simpa using hfeed, by simpa using hright, fun hnil => ?_, fun hnil => ?_⟩
  · rw [List.head?_map] at hnil
    obtain ⟨line, hline, hf⟩ := Option.map_eq_some_iff.mp hnil
    rw [hempty line (List.mem_of_mem_head? hline) hf] at hline
    exact h.first hline
  · rw [List.getLast?_map] at hnil
    obtain ⟨line, hline, hf⟩ := Option.map_eq_some_iff.mp hnil
    rw [hempty line (List.mem_of_mem_getLast? hline) hf] at hline
    exact h.last hline

theorem TidyLines.exists_ne_nil (h : TidyLines lines) (hne : lines ≠ []) :
    ∃ line ∈ lines, line ≠ [] := by
  obtain ⟨line, rest, rfl⟩ := List.exists_cons_of_ne_nil hne
  exact ⟨line, List.mem_cons_self, fun hnil => h.first (by simp [hnil])⟩

/-- **Tidy lines are the lines of the text that joins them.** -/
theorem lineChars_joinLines (h : TidyLines lines) : lineChars (joinLines lines) = lines := by
  rcases List.eq_nil_or_concat lines with rfl | ⟨lines, line, rfl⟩
  · rfl
  rw [List.concat_eq_append] at h ⊢
  have hne : line ≠ [] := fun hnil => h.last (by simp [hnil])
  have hmem : ∀ l ∈ lines, l ∈ lines ++ [line] := fun l hl => List.mem_append_left _ hl
  rw [joinLines_concat, lineChars_flatMap (fun l hl => h.feed l (hmem l hl))
    (fun l hl => h.right l (hmem l hl)), lineChars_singleton (h.feed line (by simp)) hne]

theorem lineChars_joinLines_feed (h : TidyLines lines) (hne : lines ≠ []) :
    lineChars (joinLines lines ++ ['\n']) = lines := by
  obtain ⟨front, line, rfl⟩ := (List.eq_nil_or_concat lines).resolve_left hne
  rw [List.concat_eq_append] at h ⊢
  have hlines := lineChars_flatMap h.feed h.right []
  rwa [List.flatMap_append, List.flatMap_singleton, ← List.append_assoc, ← joinLines_concat,
    List.append_nil, show lineChars [] = [] from rfl, List.append_nil] at hlines

theorem TidyLines.map_trimEndChars (h : TidyLines lines) : lines.map trimEndChars = lines :=
  (List.map_congr_left fun line hline => trimEndChars_eq_self (h.right line hline)).trans
    (List.map_id lines)

theorem flushRight_joinLines (h : TidyLines lines) : FlushRight (joinLines lines) := by
  rcases List.eq_nil_or_concat lines with rfl | ⟨lines, line, rfl⟩
  · simp [joinLines, FlushRight]
  rw [List.concat_eq_append] at h ⊢
  have hne : line ≠ [] := fun hnil => h.last (by simp [hnil])
  rw [joinLines_concat]
  exact (h.right line (by simp)).append hne _

theorem TidyLines.exists_ink (h : TidyLines lines) (hne : lines ≠ []) :
    ¬ ∀ c ∈ joinLines lines, isBlank c = true := by
  intro hblank
  have hnil : joinLines lines = [] := by
    rw [← trimEndChars_eq_self (flushRight_joinLines h)]
    exact List.rdropWhile_eq_nil_iff.mpr hblank
  have hlines := lineChars_joinLines h
  rw [hnil] at hlines
  exact hne hlines.symm

theorem dropEmptyEnds_eq_rdropWhile (lines : List (List Char)) :
    dropEmptyEnds lines = (lines.dropWhile List.isEmpty).rdropWhile List.isEmpty :=
  rfl

theorem dropEmptyEnds_eq_self (h : TidyLines lines) : dropEmptyEnds lines = lines := by
  have hfront : lines.dropWhile List.isEmpty = lines := by
    cases lines with
    | nil => rfl
    | cons line lines => exact List.dropWhile_cons_of_neg fun hnil => h.first (by simpa using hnil)
  rw [dropEmptyEnds_eq_rdropWhile, hfront]
  refine List.rdropWhile_eq_self_iff.mpr fun hne hnil => h.last ?_
  rw [← List.isEmpty_iff.mp hnil]
  exact List.getLast_mem_getLast? hne

theorem dropEmptyEnds_concat_nil (lines : List (List Char)) :
    dropEmptyEnds (lines ++ [[]]) = dropEmptyEnds lines := by
  rw [dropEmptyEnds_eq_rdropWhile, dropEmptyEnds_eq_rdropWhile, List.dropWhile_append]
  split
  · rename_i hempty
    rw [List.isEmpty_iff.mp hempty]
    rfl
  · exact List.rdropWhile_concat_pos _ _ _ rfl

theorem dropEmptyEnds_subset (lines : List (List Char)) : dropEmptyEnds lines ⊆ lines :=
  List.Subset.trans (List.rdropWhile_prefix _ _).subset (List.dropWhile_sublist _).subset

theorem tidyLines_dropEmptyEnds (hfeed : ∀ line ∈ lines, '\n' ∉ line)
    (hright : ∀ line ∈ lines, FlushRight line) : TidyLines (dropEmptyEnds lines) := by
  have hmem := dropEmptyEnds_subset lines
  rw [dropEmptyEnds_eq_rdropWhile] at hmem ⊢
  have hfront := List.rdropWhile_prefix List.isEmpty (lines.dropWhile List.isEmpty)
  refine ⟨fun l hl => hfeed l (hmem hl), fun l hl => hright l (hmem hl), fun hnil => ?_,
    fun hnil => ?_⟩
  · have hstop := lines.head?_dropWhile_not List.isEmpty
    obtain ⟨rest, hrest⟩ := List.head?_eq_some_iff.mp hnil
    rw [hrest] at hfront
    obtain ⟨tail, htail⟩ := hfront
    rw [← htail] at hstop
    cases hstop
  · obtain ⟨hne, hlast⟩ := List.mem_getLast?_eq_getLast hnil
    refine List.rdropWhile_last_not List.isEmpty (lines.dropWhile List.isEmpty) hne ?_
    rw [← hlast]
    rfl

/-- **Trimming a text takes off the empty lines at its end.** -/
theorem trimEndChars_joinLines (hright : ∀ line ∈ lines, FlushRight line) :
    trimEndChars (joinLines lines) = joinLines (lines.rdropWhile List.isEmpty) := by
  induction lines using List.reverseRecOn with
  | nil => rfl
  | append_singleton lines line ih =>
    by_cases hline : line = []
    · subst hline
      rw [List.rdropWhile_concat_pos _ _ _ rfl, ← ih fun l hl => hright l (by simp [hl])]
      rcases List.eq_nil_or_concat lines with rfl | ⟨lines, last, rfl⟩
      · rfl
      · rw [List.concat_eq_append, joinLines_concat, joinLines_concat, List.append_nil,
          List.flatMap_append, List.flatMap_singleton, ← List.append_assoc]
        exact trimEndChars_concat (by decide) _
    · rw [List.rdropWhile_concat_neg _ _ _ (by simpa using hline)]
      apply trimEndChars_eq_self
      rw [joinLines_concat]
      exact (hright line (by simp)).append hline _

end Lines

end FluentGrammar.Text
