import FluentGrammar.Resolution.Finishing
import Mathlib.Data.List.Forall2
import Mathlib.Data.List.Infix

/-!
# Rules in documentation

The rules that produce an interface stand in its documentation. Markup in them is escaped, and so is
what would end the comment. Escaping is the same as replacing one mark after the other, and it is
undone by reading the entities from left to right. The asterisks before the lines of a block do not
meet a slash, so a block is closed where it ends and nowhere else.

* `escapeMarkupChars_eq_replaced`: escaping as four replacements.
* `unescapeMarkupChars_escapeMarkupChars`: reading back.
* `Text.Unclosed`, `unclosed_escapeMarkupChars`: texts that do not end a comment.
* `Text.infix_of_mem_lineChars`: lines are parts of the text.
* `Text.ClosesAtEnd`, `Text.closesAtEnd_docBlock`: blocks that are closed at their end only.
* **`escapeMarkup_safe`**: rules in documentation.
-/

namespace FluentGrammar

/-! ## Escaping as replacement -/

/-- The characters with `new` in the place of every `old`. -/
def replaceChar (old : Char) (new cs : List Char) : List Char :=
  cs.flatMap fun c => if c = old then new else [c]

/-- The characters with `new` in the place of every pair of `a` and `b`. -/
def replacePair (a b : Char) (new : List Char) : List Char → List Char
  | [] => []
  | [c] => [c]
  | c :: c' :: cs =>
    if c = a ∧ c' = b then new ++ replacePair a b new cs else c :: replacePair a b new (c' :: cs)

/-- The characters with the marks of entities and tags replaced, the ampersand first. -/
def replaceMarks (cs : List Char) : List Char :=
  replaceChar '>' ['&', 'g', 't', ';'] (replaceChar '<' ['&', 'l', 't', ';']
    (replaceChar '&' ['&', 'a', 'm', 'p', ';'] cs))

theorem replacePair_cons {a b c : Char} {new cs : List Char} (h : c = a → b ∉ cs.head?) :
    replacePair a b new (c :: cs) = c :: replacePair a b new cs := by
  cases cs with
  | nil => rfl
  | cons c' cs =>
    rw [replacePair, if_neg]
    rintro ⟨hc, rfl⟩
    exact h hc rfl

theorem replacePair_append {a b : Char} {new front cs : List Char} (h : a ∉ front) :
    replacePair a b new (front ++ cs) = front ++ replacePair a b new cs := by
  induction front with
  | nil => rfl
  | cons c front ih =>
    obtain ⟨hc, hfront⟩ := not_or.mp (mt List.mem_cons.mpr h)
    rw [List.cons_append, replacePair_cons fun he => absurd he.symm hc, ih hfront, List.cons_append]

theorem replaceMarks_cons (c : Char) (cs : List Char) :
    replaceMarks (c :: cs) = replaceMarks [c] ++ replaceMarks cs := by
  simp [replaceMarks, replaceChar]

theorem replaceMarks_singleton {c : Char} (hamp : c ≠ '&') (hlt : c ≠ '<') (hgt : c ≠ '>') :
    replaceMarks [c] = [c] := by
  simp [replaceMarks, replaceChar, hamp, hlt, hgt]

theorem slash_of_head?_replaceMarks {cs : List Char} (h : '/' ∈ (replaceMarks cs).head?) :
    '/' ∈ cs.head? := by
  cases cs with
  | nil => cases h
  | cons c cs =>
    rw [replaceMarks_cons] at h
    by_cases hamp : c = '&'
    · subst hamp
      cases h
    by_cases hlt : c = '<'
    · subst hlt
      cases h
    by_cases hgt : c = '>'
    · subst hgt
      cases h
    rwa [replaceMarks_singleton hamp hlt hgt] at h

/-- **Escaping is replacing the ampersand, the angles and the end of a comment**, in this order. -/
theorem escapeMarkupChars_eq_replaced (cs : List Char) :
    escapeMarkupChars cs =
      replacePair '*' '/' ['*', '&', '#', '4', '7', ';'] (replaceMarks cs) := by
  fun_induction escapeMarkupChars cs with
  | case1 => rfl
  | case2 cs ih => rw [ih]; rfl
  | case3 cs ih | case4 cs ih | case5 cs ih =>
    rw [replaceMarks_cons, replacePair_append (by decide), ih]
    rfl
  | case6 c cs hpair hamp hlt hgt ih =>
    rw [replaceMarks_cons, replaceMarks_singleton hamp hlt hgt, List.singleton_append,
      replacePair_cons, ih]
    intro hc hslash
    obtain ⟨tail, htail⟩ := List.head?_eq_some_iff.mp (slash_of_head?_replaceMarks hslash)
    exact hpair tail hc htail

/-! ## Reading back -/

/-- The characters with the entities in them read from left to right. -/
def unescapeMarkupChars : List Char → List Char
  | '&' :: 'a' :: 'm' :: 'p' :: ';' :: cs => '&' :: unescapeMarkupChars cs
  | '&' :: 'l' :: 't' :: ';' :: cs => '<' :: unescapeMarkupChars cs
  | '&' :: 'g' :: 't' :: ';' :: cs => '>' :: unescapeMarkupChars cs
  | '&' :: '#' :: '4' :: '7' :: ';' :: cs => '/' :: unescapeMarkupChars cs
  | c :: cs => c :: unescapeMarkupChars cs
  | [] => []

/-- The text that is shown by an escaped one. -/
def unescapeMarkup (text : String) : String :=
  String.ofList (unescapeMarkupChars text.toList)

theorem unescapeMarkupChars_cons {c : Char} (hc : c ≠ '&') (cs : List Char) :
    unescapeMarkupChars (c :: cs) = c :: unescapeMarkupChars cs := by
  rw [unescapeMarkupChars]
  all_goals exact fun _ he => absurd he hc

/-- **Entities are read back as what they were written for.** -/
theorem unescapeMarkupChars_escapeMarkupChars (cs : List Char) :
    unescapeMarkupChars (escapeMarkupChars cs) = cs := by
  fun_induction escapeMarkupChars cs with
  | case1 => rfl
  | case2 cs ih => rw [unescapeMarkupChars_cons (by decide), unescapeMarkupChars, ih]
  | case3 cs ih | case4 cs ih | case5 cs ih => rw [unescapeMarkupChars, ih]
  | case6 c cs _ hamp _ _ ih => rw [unescapeMarkupChars_cons hamp, ih]

theorem unescapeMarkup_escapeMarkup (text : String) :
    unescapeMarkup (escapeMarkup text) = text := by
  simp [unescapeMarkup, escapeMarkup, unescapeMarkupChars_escapeMarkupChars]

theorem not_mem_escapeMarkupChars (cs : List Char) :
    '<' ∉ escapeMarkupChars cs ∧ '>' ∉ escapeMarkupChars cs := by
  fun_induction escapeMarkupChars cs with
  | case1 => simp
  | case2 cs ih | case3 cs ih | case4 cs ih | case5 cs ih => simpa using ih
  | case6 c cs _ _ hlt hgt ih => simpa [Ne.symm hlt, Ne.symm hgt] using ih

/-! ## Ends of comments -/

namespace Text

/-- The characters do not end a comment. -/
def Unclosed (cs : List Char) : Prop :=
  ¬ ['*', '/'] <:+: cs

instance : DecidablePred Unclosed := fun cs =>
  inferInstanceAs (Decidable (¬ ['*', '/'] <:+: cs))

theorem unclosed_cons {c : Char} {cs : List Char} :
    Unclosed (c :: cs) ↔ (c = '*' → '/' ∉ cs.head?) ∧ Unclosed cs := by
  have hpair : ['*', '/'] <+: c :: cs ↔ c = '*' ∧ '/' ∈ cs.head? := by
    rw [List.cons_prefix_cons, eq_comm]
    cases cs <;> simp [eq_comm]
  rw [Unclosed, List.infix_cons_iff, hpair, not_or, not_and, Unclosed]

theorem Unclosed.of_isInfix {part cs : List Char} (h : Unclosed cs) (hpart : part <:+: cs) :
    Unclosed part :=
  fun hclosed => h (hclosed.trans hpart)

/-- Two parts end no comment if none of them does, and no asterisk is followed by a slash where they
are put together. -/
theorem Unclosed.append {front back : List Char} (hfront : Unclosed front) (hback : Unclosed back)
    (h : '*' ∉ front.getLast? ∨ '/' ∉ back.head?) : Unclosed (front ++ back) := by
  induction front with
  | nil => exact hback
  | cons c front ih =>
    obtain ⟨hc, hfront⟩ := unclosed_cons.mp hfront
    cases front with
    | nil =>
      refine unclosed_cons.mpr ⟨fun hstar => ?_, hback⟩
      exact h.resolve_left fun hnot => hnot (by simp [hstar])
    | cons c' front =>
      refine unclosed_cons.mpr ⟨hc, ih hfront ?_⟩
      rwa [List.getLast?_cons_cons] at h

theorem unclosed_flatten {parts : List (List Char)}
    (h : ∀ part ∈ parts, Unclosed part ∧ '/' ∉ part.head?) :
    Unclosed parts.flatten ∧ '/' ∉ parts.flatten.head? := by
  induction parts with
  | nil => exact ⟨by decide, by simp⟩
  | cons part parts ih =>
    obtain ⟨⟨hpart, hslash⟩, hparts⟩ := List.forall_mem_cons.mp h
    obtain ⟨hrest, hhead⟩ := ih hparts
    refine ⟨hpart.append hrest (.inr hhead), ?_⟩
    cases part with
    | nil => exact hhead
    | cons c part => exact hslash

/-! ## Lines and blocks -/

theorem isPrefix_dropReturn (line : List Char) : dropReturn line <+: line := by
  unfold dropReturn
  split
  · rename_i front hrev
    refine ⟨['\r'], ?_⟩
    rw [← List.reverse_reverse line, hrev, List.reverse_cons]
  · exact List.prefix_rfl

theorem infix_of_mem_linesFrom {part line cs : List Char} (h : part ∈ linesFrom line cs) :
    part <:+: line.reverse ++ cs := by
  fun_induction linesFrom line cs with
  | case1 line _ => cases h
  | case2 line _ =>
    obtain rfl := List.mem_singleton.mp h
    exact (List.prefix_append _ _).isInfix
  | case3 line cs ih =>
    rcases List.mem_cons.mp h with rfl | h
    · exact ((isPrefix_dropReturn _).trans (List.prefix_append _ _)).isInfix
    · exact (ih h).trans ((List.suffix_cons _ _).trans (List.suffix_append _ _)).isInfix
  | case4 line c cs _ ih =>
    rw [← List.singleton_append, ← List.append_assoc, ← List.reverse_cons]
    exact ih h

/-- **Lines are parts of the text.** -/
theorem infix_of_mem_lineChars {line cs : List Char} (h : line ∈ lineChars cs) : line <:+: cs :=
  infix_of_mem_linesFrom h

/-- The margin keeps the asterisk away from what stands on the line. -/
theorem unclosed_docLine {line : List Char} (h : Unclosed line) :
    Unclosed (docLine line) ∧ '/' ∉ (docLine line).head? := by
  unfold docLine
  split
  · decide
  · refine ⟨?_, by simp⟩
    have hmargin : Unclosed (" * ".toList ++ line) :=
      Unclosed.append (by decide) h (.inl (by decide))
    exact hmargin.append (by decide) (.inr (by decide))

/-- A block that is closed at its end and nowhere else. -/
structure ClosesAtEnd (block : String) : Prop where
  closed : block ≠ "" → ['*', '/', '\n'] <:+ block.toList
  once : ∀ front back, block.toList = front ++ '*' :: '/' :: back → back = ['\n']

/-- The first end of a comment is the one where the text before its slash ends none. -/
theorem eq_of_unclosed {body front back back' : List Char} (h : Unclosed body)
    (hback : Unclosed ('/' :: back))
    (he : body ++ '/' :: back = front ++ '*' :: '/' :: back') : back' = back := by
  rcases List.append_eq_append_iff.mp he with ⟨part, -, hpart⟩ | ⟨part, rfl, hpart⟩
  · exact absurd ⟨part, back', by simp [hpart]⟩ hback
  · -- The part of the body after `front` is the asterisk alone, or the body ends a comment.
    rcases part with _ | ⟨c, _ | ⟨c', part⟩⟩
    · simp at hpart
    · obtain ⟨-, hrest⟩ : '*' = c ∧ back' = back := by simpa using hpart
      exact hrest
    · obtain ⟨rfl, rfl, -⟩ : '*' = c ∧ '/' = c' ∧ _ := by simpa using hpart
      exact absurd ⟨front, part, by simp⟩ h

theorem closesAtEnd_ofList {front : List Char} (h : Unclosed (front ++ ['*'])) :
    ClosesAtEnd (String.ofList (front ++ ['*', '/', '\n'])) where
  closed _ := by
    rw [String.toList_ofList]
    exact List.suffix_append _ _
  once front' back he := by
    apply eq_of_unclosed h (by decide : Unclosed ['/', '\n'])
    rw [← he, String.toList_ofList, List.append_assoc]
    rfl

/-- **A block of documentation is closed at its end only**, if the documentation does not end it. -/
theorem closesAtEnd_docBlock {comment : String} (h : Unclosed comment.toList) :
    ClosesAtEnd (docBlock comment) := by
  unfold docBlock docBlockChars
  split
  · exact ⟨fun hne => absurd rfl hne, by simp⟩
  · have hparts : ∀ part ∈ (lineChars comment.toList).map docLine,
        Unclosed part ∧ '/' ∉ part.head? := by
      intro part hpart
      obtain ⟨line, hline, rfl⟩ := List.mem_map.mp hpart
      exact unclosed_docLine (h.of_isInfix (infix_of_mem_lineChars hline))
    obtain ⟨hlines, hslash⟩ := unclosed_flatten hparts
    rw [← List.flatMap_def] at hlines hslash
    have htop : Unclosed ("/**\n".toList ++ (lineChars comment.toList).flatMap docLine) :=
      Unclosed.append (by decide) hlines (.inr hslash)
    rw [show " */\n".toList = [' '] ++ ['*', '/', '\n'] from rfl, ← List.append_assoc]
    apply closesAtEnd_ofList
    rw [List.append_assoc]
    exact htop.append (by decide) (.inr (by decide))

theorem toList_joinWith (separator : String) (pieces : List String) :
    (joinWith separator pieces).toList =
      separator.toList.intercalate (pieces.map String.toList) :=
  String.toList_intercalate

theorem unclosed_joinWith {pieces : List String} (h : ∀ piece ∈ pieces, Unclosed piece.toList) :
    Unclosed (joinWith "\n" pieces).toList := by
  rw [toList_joinWith]
  induction pieces with
  | nil => decide
  | cons piece pieces ih =>
    obtain ⟨hpiece, hpieces⟩ := List.forall_mem_cons.mp h
    cases pieces with
    | nil => simpa using hpiece
    | cons piece' pieces =>
      rw [List.map_cons, List.map_cons, List.intercalate_cons_cons, ← List.map_cons]
      have hline := hpiece.append (by decide : Unclosed ['\n']) (.inr (by decide))
      exact hline.append (ih hpieces) (.inl (by simp))

theorem infix_joinWith {separator piece : String} {pieces : List String} (h : piece ∈ pieces) :
    piece.toList <:+: (joinWith separator pieces).toList := by
  rw [toList_joinWith]
  induction pieces with
  | nil => cases h
  | cons first pieces ih =>
    cases pieces with
    | nil =>
      obtain rfl := List.mem_singleton.mp h
      simp
    | cons second pieces =>
      rw [List.map_cons, List.map_cons, List.intercalate_cons_cons, ← List.map_cons]
      rcases List.mem_cons.mp h with rfl | h
      · rw [List.append_assoc]
        exact (List.prefix_append _ _).isInfix
      · exact (ih h).trans (List.suffix_append _ _).isInfix

end Text

/-! ## Documented rules -/

theorem slash_of_head?_escapeMarkupChars {cs : List Char} :
    '/' ∈ (escapeMarkupChars cs).head? → '/' ∈ cs.head? := by
  fun_cases escapeMarkupChars cs with
  | case1 => exact id
  | case2 cs | case3 cs | case4 cs | case5 cs =>
    intro h
    cases h
  | case6 c cs => exact id

/-- **An escaped text does not end a comment.** -/
theorem unclosed_escapeMarkupChars (cs : List Char) : Text.Unclosed (escapeMarkupChars cs) := by
  fun_induction escapeMarkupChars cs with
  | case1 => decide
  | case2 cs ih | case3 cs ih | case4 cs ih | case5 cs ih => simpa [Text.unclosed_cons] using ih
  | case6 c cs hpair _ _ _ ih =>
    refine Text.unclosed_cons.mpr ⟨fun hc hslash => ?_, ih⟩
    obtain ⟨tail, htail⟩ := List.head?_eq_some_iff.mp (slash_of_head?_escapeMarkupChars hslash)
    exact hpair tail hc htail

/-- What escaping makes of a text. -/
structure IsEscaped (text escaped : String) : Prop where
  no_tags : '<' ∉ escaped.toList ∧ '>' ∉ escaped.toList
  unclosed : Text.Unclosed escaped.toList
  read_back : unescapeMarkup escaped = text
  replaced : escaped.toList =
    replacePair '*' '/' ['*', '&', '#', '4', '7', ';'] (replaceMarks text.toList)

theorem isEscaped_escapeMarkup (text : String) : IsEscaped text (escapeMarkup text) := by
  have hchars : (escapeMarkup text).toList = escapeMarkupChars text.toList := String.toList_ofList
  refine ⟨?_, ?_, unescapeMarkup_escapeMarkup text, ?_⟩
  · rw [hchars]
    exact not_mem_escapeMarkupChars _
  · rw [hchars]
    exact unclosed_escapeMarkupChars _
  · rw [hchars, escapeMarkupChars_eq_replaced]

theorem toList_withRules {comment : String} {rules : List String} (h : rules ≠ []) :
    (withRules comment rules).toList = comment.toList ++
      ((if comment.isEmpty then "" else "\n\n").toList ++
        ("<pre>\n".toList ++ (Text.joinWith "\n" (rules.map escapeMarkup)).toList ++
          "\n</pre>".toList)) := by
  rw [withRules, if_neg (by simpa using h)]
  simp only [String.toList_append, List.append_assoc]

theorem unclosed_withRules {comment : String} (h : Text.Unclosed comment.toList)
    (rules : List String) : Text.Unclosed (withRules comment rules).toList := by
  rcases eq_or_ne rules [] with rfl | hne
  · exact h
  rw [toList_withRules hne]
  have hrules : Text.Unclosed (Text.joinWith "\n" (rules.map escapeMarkup)).toList := by
    apply Text.unclosed_joinWith
    intro piece hpiece
    obtain ⟨rule, -, rfl⟩ := List.mem_map.mp hpiece
    exact (isEscaped_escapeMarkup rule).unclosed
  have hpre : Text.Unclosed ("<pre>\n".toList ++
      (Text.joinWith "\n" (rules.map escapeMarkup)).toList) :=
    Text.Unclosed.append (by decide) hrules (.inl (by decide))
  have hlist := hpre.append (by decide : Text.Unclosed "\n</pre>".toList) (.inr (by decide))
  split
  · exact h.append hlist (.inr (by simp))
  · exact h.append (Text.Unclosed.append (by decide) hlist (.inl (by decide))) (.inr (by simp))

/-- How the documentation of an interface is continued by rules. -/
structure ShowsRules (rules : List String) (comment after : String) : Prop where
  kept : comment.toList <+: after.toList
  shown : ∀ rule ∈ rules, ∃ escaped, IsEscaped rule escaped ∧ escaped.toList <:+: after.toList
  closed : Text.Unclosed comment.toList → Text.ClosesAtEnd (Text.docBlock after)

theorem showsRules_withRules (rules : List String) (comment : String) :
    ShowsRules rules comment (withRules comment rules) := by
  refine ⟨?_, fun rule hrule => ⟨_, isEscaped_escapeMarkup rule, ?_⟩, fun h => ?_⟩
  · rcases eq_or_ne rules [] with rfl | hne
    · exact List.prefix_rfl
    · rw [toList_withRules hne]
      exact List.prefix_append _ _
  · rw [toList_withRules (List.ne_nil_of_mem hrule)]
    have hjoin : (escapeMarkup rule).toList <:+:
        (Text.joinWith "\n" (rules.map escapeMarkup)).toList :=
      Text.infix_joinWith (List.mem_map_of_mem hrule)
    rw [← List.append_assoc, ← List.append_assoc, ← List.append_assoc]
    exact (hjoin.trans (List.suffix_append _ _).isInfix).trans (List.prefix_append _ _).isInfix
  · exact Text.closesAtEnd_docBlock (unclosed_withRules h rules)

/-- **Rules are escaped safely and can be read back.** An escaped text has no tags and does not end
a comment. The documentation of an interface keeps its text and shows all rules, and its block is
closed at its end only. -/
theorem escapeMarkup_safe (r : Registry) :
    (∀ text, IsEscaped text (escapeMarkup text)) ∧ Function.Injective escapeMarkup ∧
    List.Forall₂
      (fun d d' => d' = { d with comment := d'.comment } ∧
        (d.isInterface = false → d' = d) ∧
        (d.isInterface = true → ShowsRules (r.rulesFor d.name) d.comment d'.comment))
      r.definitions (documentRules r).definitions := by
  refine ⟨isEscaped_escapeMarkup, ?_, ?_⟩
  · exact Function.LeftInverse.injective unescapeMarkup_escapeMarkup
  · refine List.forall₂_map_right_iff.mpr (List.forall₂_same.mpr fun d _ => ?_)
    cases hd : d.isInterface with
    | false => exact ⟨rfl, fun _ => rfl, fun h => absurd h (by decide)⟩
    | true => exact ⟨rfl, fun h => absurd h (by decide), fun _ => showsRules_withRules _ _⟩

/-- The interface `Shape`, whose documentation ends with an asterisk. -/
def shapeInterface : Definition :=
  { Definition.interface "Shape" with comment := "Shapes *" }

/-- The registry with `Shape` and two rules of it, which hold ends of comments, tags and an
entity. -/
def ruledModel : Registry :=
  ({ Registry.empty "Forms" with definitions := [shapeInterface] }.addRule "Shape" "/ **//").addRule
    "Shape" "List<T> &#47; */"

/-- The asterisks before the lines and in the rules meet no slash. -/
theorem escapeMarkup_safe_ruled :
    shapeInterface.isInterface = true ∧ Text.Unclosed shapeInterface.comment.toList ∧
    ∃ d, (documentRules ruledModel).definitions = [d] ∧
      Text.docBlock d.comment = "/**\n * Shapes *\n *\n * <pre>\n * / **&#47;/\n" ++
        " * List&lt;T&gt; &amp;#47; *&#47;\n * </pre>\n */\n" ∧
      Text.ClosesAtEnd (Text.docBlock d.comment) := by
  have hinterface : shapeInterface.isInterface = true := by decide
  have hunclosed : Text.Unclosed shapeInterface.comment.toList := by decide
  obtain ⟨-, -, hdocs⟩ := escapeMarkup_safe ruledModel
  refine ⟨hinterface, hunclosed, _, rfl, by decide +kernel, ?_⟩
  exact ((List.forall₂_cons.mp hdocs).1.2.2 hinterface).closed hunclosed

end FluentGrammar
