import FluentGrammar.Declaration.OfTree
import FluentGrammar.Method.Basic
import FluentGrammar.Proofs.Run
import FluentGrammar.Proofs.TextLines

/-!
# Bodies that are read back

Reading a body leaves tidy lines, one of which has no margin: braces, empty lines around the
statements and the margin that all lines share are gone. Exactly such statements are read back from
the body that is printed for them, so reading, printing and reading again changes nothing.

* `byteLength_eq_utf8ByteSize`, `dropBytes?_eq_some_iff`: cutting at a byte is cutting between
  characters.
* `IsCut`, `isCut_sharedMargin`: what is cut off a line are blanks.
* `IsBody`: texts of tidy lines, one of them without a margin.
* `isBody_bodyText`: what is read is such a text.
* `bodyChars_braced`: what is printed for such a text is read back.
* **`bodyText_braced`**: the body of a method is read back from its printed form.
-/

namespace FluentGrammar

namespace Text

/-! ## Cutting at bytes -/

section Bytes

variable {n : Nat} {cs front rest line : List Char}

theorem byteLength_eq_utf8ByteSize (cs : List Char) :
    byteLength cs = (String.ofList cs).utf8ByteSize := by
  have hfold : ∀ k, cs.foldl (fun n c => n + c.utf8Size) k =
      k + (String.ofList cs).utf8ByteSize := by
    induction cs with
    | nil => simp
    | cons c cs ih =>
      intro k
      rw [List.foldl_cons, ih, String.ofList_cons, String.utf8ByteSize_append,
        String.utf8ByteSize_singleton, Nat.add_assoc]
  rw [byteLength, hfold, Nat.zero_add]

@[simp]
theorem byteLength_nil : byteLength [] = 0 :=
  rfl

theorem byteLength_append (front rest : List Char) :
    byteLength (front ++ rest) = byteLength front + byteLength rest := by
  simp [byteLength_eq_utf8ByteSize]

theorem byteLength_cons (c : Char) (cs : List Char) :
    byteLength (c :: cs) = c.utf8Size + byteLength cs := by
  simp [byteLength_eq_utf8ByteSize, String.ofList_cons]

theorem eq_nil_of_byteLength (h : byteLength cs = 0) : cs = [] := by
  cases cs with
  | nil => rfl
  | cons c cs =>
    have hpos := c.utf8Size_pos
    rw [byteLength_cons] at h
    omega

/-- **A list can be cut after `n` bytes if a character begins there, and only then.** -/
theorem dropBytes?_eq_some_iff :
    dropBytes? n cs = some rest ↔ ∃ front, cs = front ++ rest ∧ byteLength front = n := by
  fun_induction dropBytes? n cs with
  | case1 cs =>
    constructor
    · rintro ⟨⟩
      exact ⟨[], rfl, rfl⟩
    · rintro ⟨front, rfl, hfront⟩
      rw [eq_nil_of_byteLength hfront]
      rfl
  | case2 n =>
    constructor
    · rintro ⟨⟩
    · rintro ⟨front, hnil, hfront⟩
      obtain ⟨rfl, -⟩ := List.append_eq_nil_iff.mp hnil.symm
      cases hfront
  | case3 n c cs hle ih =>
    rw [ih]
    constructor
    · rintro ⟨front, rfl, hfront⟩
      refine ⟨c :: front, rfl, ?_⟩
      rw [byteLength_cons, hfront, Nat.add_sub_cancel' hle]
    · rintro ⟨_ | ⟨c', front⟩, hcs, hfront⟩
      · cases hfront
      · obtain ⟨rfl, rfl⟩ := List.cons_eq_cons.mp hcs
        rw [byteLength_cons] at hfront
        exact ⟨front, rfl, Nat.eq_sub_of_add_eq' hfront⟩
  | case4 n c cs hle =>
    constructor
    · rintro ⟨⟩
    · rintro ⟨_ | ⟨c', front⟩, hcs, hfront⟩
      · cases hfront
      · obtain ⟨rfl, rfl⟩ := List.cons_eq_cons.mp hcs
        rw [byteLength_cons] at hfront
        omega

/-- What is cut off a line are blanks: `n` bytes of them if a character begins there, and all of
them otherwise. -/
def IsCut (n : Nat) (line rest : List Char) : Prop :=
  ∃ front, line = front ++ rest ∧ (∀ c ∈ front, isBlank c = true) ∧
    ((String.ofList front).utf8ByteSize = n ∨
      FlushLeft rest ∧ ¬ String.Pos.Raw.IsValid (String.ofList line) ⟨n⟩)

theorem isBlank_of_byteLength_le (hline : line = front ++ rest)
    (h : byteLength front ≤ marginOf line) : ∀ c ∈ front, isBlank c = true := by
  have hfront : front <+: line := ⟨rest, hline.symm⟩
  rcases List.prefix_or_prefix_of_prefix hfront (List.takeWhile_prefix isBlank) with hle | hle
  · exact fun c hc => List.mem_takeWhile_imp (hle.subset hc)
  · -- The margin is no longer than `front`, so both have the same bytes.
    obtain ⟨more, hmore⟩ := hle
    have hnil : more = [] := by
      apply eq_nil_of_byteLength
      rw [← hmore, byteLength_append, marginOf] at h
      omega
    rw [hnil, List.append_nil] at hmore
    exact fun c hc => List.mem_takeWhile_imp (hmore ▸ hc)

theorem isCut_cutMargin (h : line ≠ [] → n ≤ marginOf line) : IsCut n line (cutMargin n line) := by
  unfold cutMargin
  cases hdrop : dropBytes? n line with
  | some rest =>
    obtain ⟨front, hline, hn⟩ := dropBytes?_eq_some_iff.mp hdrop
    refine ⟨front, hline, fun c hc => ?_, .inl (by rw [← byteLength_eq_utf8ByteSize, hn])⟩
    have hne : line ≠ [] := by
      rw [hline]
      exact List.append_ne_nil_of_left_ne_nil (List.ne_nil_of_mem hc) rest
    exact isBlank_of_byteLength_le hline (hn ▸ h hne) c hc
  | none =>
    refine ⟨line.takeWhile isBlank, List.takeWhile_append_dropWhile.symm,
      fun c hc => List.mem_takeWhile_imp hc, .inr ⟨flushLeft_trimStartChars line, fun hvalid => ?_⟩⟩
    obtain ⟨front, rest, hsplit, hpos⟩ := String.Pos.Raw.isValid_iff_exists_append.mp hvalid
    have hsome : dropBytes? n line = some rest.toList := by
      refine dropBytes?_eq_some_iff.mpr ⟨front.toList, ?_, ?_⟩
      · rw [← String.toList_append, ← hsplit, String.toList_ofList]
      · rw [byteLength_eq_utf8ByteSize, String.ofList_toList]
        exact congrArg String.Pos.Raw.byteIdx hpos.symm
    rw [hdrop] at hsome
    cases hsome

theorem cutMargin_marginOf (line : List Char) :
    cutMargin (marginOf line) line = trimStartChars line := by
  have hdrop : dropBytes? (marginOf line) line = some (trimStartChars line) :=
    dropBytes?_eq_some_iff.mpr ⟨_, List.takeWhile_append_dropWhile.symm, rfl⟩
  rw [cutMargin, hdrop, Option.getD_some]

end Bytes

/-! ## The margin that lines share -/

section Margins

variable {n : Nat} {line : List Char} {lines : List (List Char)}

/-- The shared margin is the least margin of a line that is not empty. -/
theorem sharedMargin_spec (h : ∃ line ∈ lines, line ≠ []) :
    (∃ line ∈ lines, line ≠ [] ∧ marginOf line = sharedMargin lines) ∧
      ∀ line ∈ lines, line ≠ [] → sharedMargin lines ≤ marginOf line := by
  have hmem : ∀ n, n ∈ (lines.filter fun line => !line.isEmpty).map marginOf ↔
      ∃ line ∈ lines, line ≠ [] ∧ marginOf line = n := by
    simp [List.mem_map, List.mem_filter, and_assoc]
  unfold sharedMargin
  cases hmin : ((lines.filter fun line => !line.isEmpty).map marginOf).min? with
  | none =>
    obtain ⟨line, hline, hne⟩ := h
    have hmargin := (hmem _).mpr ⟨line, hline, hne, rfl⟩
    rw [List.min?_eq_none_iff.mp hmin] at hmargin
    cases hmargin
  | some n =>
    obtain ⟨hn, hle⟩ := List.min?_eq_some_iff.mp hmin
    exact ⟨(hmem n).mp hn, fun line hline hne => hle _ ((hmem _).mpr ⟨line, hline, hne, rfl⟩)⟩

theorem sharedMargin_eq (hle : ∀ line ∈ lines, line ≠ [] → n ≤ marginOf line)
    (h : ∃ line ∈ lines, line ≠ [] ∧ marginOf line = n) : sharedMargin lines = n := by
  obtain ⟨line, hline, hne, hn⟩ := h
  obtain ⟨⟨least, hleast, hleastne, heq⟩, hshared⟩ := sharedMargin_spec ⟨line, hline, hne⟩
  apply Nat.le_antisymm
  · rw [← hn]
    exact hshared line hline hne
  · rw [← heq]
    exact hle least hleast hleastne

theorem cutMargin_nil (n : Nat) : cutMargin n [] = [] := by
  cases n <;> rfl

/-- **Lines are cut between characters, and only blanks are cut off.** -/
theorem isCut_sharedMargin (hline : line ∈ lines) :
    IsCut (sharedMargin lines) line (cutMargin (sharedMargin lines) line) :=
  isCut_cutMargin fun hne => (sharedMargin_spec ⟨line, hline, hne⟩).2 line hline hne

section Cut

variable {rest : List Char}

theorem IsCut.isSuffix (h : IsCut n line rest) : rest <:+ line := by
  obtain ⟨front, rfl, -⟩ := h
  exact List.suffix_append front rest

theorem IsCut.eq_nil (h : IsCut n line rest) (hright : FlushRight line) (hrest : rest = []) :
    line = [] := by
  obtain ⟨front, hline, hblank, -⟩ := h
  rw [hrest, List.append_nil] at hline
  subst hline
  by_contra hne
  exact hright.trimStartChars_ne_nil hne (List.dropWhile_eq_nil_iff.mpr hblank)

end Cut

theorem TidyLines.cut (h : TidyLines lines) :
    TidyLines (lines.map (cutMargin (sharedMargin lines))) := by
  refine h.map (fun line hline hfeed => ?_) (fun line hline => ?_) fun line hline => ?_
  · exact h.feed line hline ((isCut_sharedMargin hline).isSuffix.subset hfeed)
  · exact (h.right line hline).of_isSuffix (isCut_sharedMargin hline).isSuffix
  · exact (isCut_sharedMargin hline).eq_nil (h.right line hline)

theorem TidyLines.exists_flushLeft_cut (h : TidyLines lines) (hne : lines ≠ []) :
    ∃ line ∈ lines.map (cutMargin (sharedMargin lines)), line ≠ [] ∧ FlushLeft line := by
  obtain ⟨line, hline, hlinene, hmargin⟩ := (sharedMargin_spec (h.exists_ne_nil hne)).1
  refine ⟨_, List.mem_map_of_mem hline, ?_, ?_⟩
  · exact fun hnil => hlinene ((isCut_sharedMargin hline).eq_nil (h.right line hline) hnil)
  · rw [← hmargin, cutMargin_marginOf]
    exact flushLeft_trimStartChars line

end Margins

/-! ## Reading -/

/-- A text of tidy lines, one of them without a margin. -/
def IsBody (text : String) : Prop :=
  ∃ lines, text.toList = joinLines lines ∧ TidyLines lines ∧
    (lines ≠ [] → ∃ line ∈ lines, line ≠ [] ∧ FlushLeft line)

theorem bodyChars_eq_joinLines {cs first : List Char} {lines : List (List Char)}
    (h : (lineChars (withoutBraces (trimChars cs))).map trimEndChars = first :: lines) :
    bodyChars cs = joinLines ((if first.isEmpty then [] else [trimStartChars first]) ++
      (dropEmptyEnds lines).map (cutMargin (sharedMargin (dropEmptyEnds lines)))) := by
  simp only [bodyChars, h]

/-- **What is read are tidy lines, one of them without a margin.** -/
theorem isBody_bodyText (image : String) : IsBody (bodyText image) := by
  have hwritten : ∀ line ∈ (lineChars (withoutBraces (trimChars image.toList))).map trimEndChars,
      '\n' ∉ line ∧ FlushRight line := by
    intro line hline
    obtain ⟨written, hwritten, rfl⟩ := List.mem_map.mp hline
    refine ⟨fun hfeed => feed_not_mem_of_mem_lineChars hwritten ?_, flushRight_trimEndChars written⟩
    exact (List.rdropWhile_prefix _ _).subset hfeed
  unfold IsBody bodyText
  rw [String.toList_ofList]
  cases hlines : (lineChars (withoutBraces (trimChars image.toList))).map trimEndChars with
  | nil =>
    refine ⟨[], ?_, .nil, fun hne => absurd rfl hne⟩
    simp only [bodyChars, hlines, joinLines]
  | cons first lines =>
    rw [hlines] at hwritten
    obtain ⟨⟨hfeed, hright⟩, hrest⟩ := List.forall_mem_cons.mp hwritten
    have htidy : TidyLines (dropEmptyEnds lines) :=
      tidyLines_dropEmptyEnds (fun l hl => (hrest l hl).1) (fun l hl => (hrest l hl).2)
    refine ⟨_, bodyChars_eq_joinLines hlines, ?_⟩
    by_cases hfirst : first = []
    · rw [hfirst]
      refine ⟨htidy.cut, fun hne => htidy.exists_flushLeft_cut fun hnil => hne ?_⟩
      simp [hnil]
    · -- Code on the line of the opening brace stands before the other lines without its margin.
      have hstart : trimStartChars first ≠ [] := hright.trimStartChars_ne_nil hfirst
      have hsuffix : trimStartChars first <:+ first := List.dropWhile_suffix isBlank
      rw [if_neg (by simpa using hfirst), List.singleton_append]
      refine ⟨?_, fun _ => ⟨_, List.mem_cons_self, hstart, flushLeft_trimStartChars first⟩⟩
      exact htidy.cut.cons (fun h => hfeed (hsuffix.subset h)) (hright.of_isSuffix hsuffix) hstart

/-! ## Printing -/

/-- A line that is moved to the right unless it is empty. -/
def padded (width : Nat) (line : List Char) : List Char :=
  if line.isEmpty then [] else List.replicate width ' ' ++ line

theorem toList_indent (width : Nat) (text : String) :
    (indent width text).toList = joinLines ((lineChars text.toList).map (padded width)) := by
  rw [indent, joinWith, String.toList_intercalate, joinLines_eq_intercalate, lines, List.map_map,
    List.map_map]
  congr 1
  refine List.map_congr_left fun line _ => ?_
  simp only [Function.comp_apply, padded]
  by_cases hline : line = []
  · simp [hline]
  · simp [hline]

theorem toList_braced (body : String) :
    (braced body).toList = ['\x7b'] ++
      ('\n' :: (joinLines ((lineChars body.toList).map (padded 4)) ++ ['\n'])) ++ ['\x7d'] := by
  simp [braced, toList_indent]

section Padded

variable {width : Nat} {line : List Char} {lines : List (List Char)}

theorem padded_of_ne_nil (h : line ≠ []) : padded width line = List.replicate width ' ' ++ line :=
  if_neg (by simpa using h)

theorem byteLength_replicate (width : Nat) : byteLength (List.replicate width ' ') = width := by
  induction width with
  | zero => rfl
  | succ width ih =>
    rw [List.replicate_succ, byteLength_cons, ih, Nat.add_comm]
    rfl

theorem cutMargin_padded (width : Nat) (line : List Char) :
    cutMargin width (padded width line) = line := by
  rcases eq_or_ne line [] with rfl | hne
  · exact cutMargin_nil width
  · have hdrop : dropBytes? width (padded width line) = some line :=
      dropBytes?_eq_some_iff.mpr ⟨_, padded_of_ne_nil hne, byteLength_replicate width⟩
    rw [cutMargin, hdrop, Option.getD_some]

theorem marginOf_padded (hne : line ≠ []) :
    marginOf (padded width line) = width + marginOf line := by
  have hblank : ∀ c ∈ List.replicate width ' ', isBlank c = true := by
    intro c hc
    rw [List.eq_of_mem_replicate hc]
    decide
  rw [padded_of_ne_nil hne, marginOf, List.takeWhile_append_of_pos hblank, byteLength_append,
    byteLength_replicate, marginOf]

theorem TidyLines.padded (h : TidyLines lines) (width : Nat) :
    TidyLines (lines.map (padded width)) := by
  refine h.map (fun line hline => ?_) (fun line hline => ?_) fun line hline hnil => ?_
  · unfold Text.padded
    split
    · simp
    · simpa using h.feed line hline
  · rcases eq_or_ne line [] with rfl | hne
    · exact h.right [] hline
    · rw [padded_of_ne_nil hne]
      exact (h.right line hline).append hne _
  · by_contra hne
    rw [padded_of_ne_nil hne] at hnil
    exact hne (List.append_eq_nil_iff.mp hnil).2

/-- The least margin of padded lines is the padding, if there was a line without a margin. -/
theorem sharedMargin_padded (h : ∃ line ∈ lines, line ≠ [] ∧ FlushLeft line) :
    sharedMargin (lines.map (padded width)) = width := by
  apply sharedMargin_eq
  · intro line hline hne
    obtain ⟨line, -, rfl⟩ := List.mem_map.mp hline
    have hlinene : line ≠ [] := fun hnil => hne (by rw [hnil]; rfl)
    rw [marginOf_padded hlinene]
    exact Nat.le_add_right _ _
  · obtain ⟨line, hline, hne, hleft⟩ := h
    refine ⟨_, List.mem_map_of_mem hline, ?_, ?_⟩
    · rw [padded_of_ne_nil hne]
      exact List.append_ne_nil_of_right_ne_nil _ hne
    · have hmargin : line.takeWhile isBlank = [] := by
        have hsplit := List.takeWhile_append_dropWhile (p := isBlank) (l := line)
        rw [show line.dropWhile isBlank = line from trimStartChars_eq_self hleft] at hsplit
        exact List.append_left_eq_self.mp hsplit
      rw [marginOf_padded hne, marginOf, hmargin, byteLength_nil, Nat.add_zero]

theorem withoutBraces_trimChars (inner : List Char) :
    withoutBraces (trimChars (['\x7b'] ++ inner ++ ['\x7d'])) = inner := by
  have hleft : FlushLeft (['\x7b'] ++ inner ++ ['\x7d']) := by
    rintro c ⟨⟩
    decide
  have hright : FlushRight ['\x7d'] := by
    rintro c ⟨⟩
    decide
  rw [trimChars_eq_self hleft (hright.append (by simp) _), withoutBraces, List.append_assoc,
    afterFront?_append, Option.bind_some, beforeBack?_append, Option.getD_some]

/-- **What is printed for tidy lines is read back**, if one of them has no margin. -/
theorem bodyChars_braced {body : String} (h : IsBody body) :
    bodyChars (braced body).toList = body.toList := by
  obtain ⟨lines, hbody, htidy, hleft⟩ := h
  rw [toList_braced, hbody, lineChars_joinLines htidy]
  rcases eq_or_ne lines [] with rfl | hne
  · decide
  have hpadded := htidy.padded 4
  have hinner : (lineChars (withoutBraces (trimChars (['\x7b'] ++
      ('\n' :: (joinLines (lines.map (padded 4)) ++ ['\n'])) ++ ['\x7d'])))).map trimEndChars =
        [] :: lines.map (padded 4) := by
    have hfirst := lineChars_append_feed (by simp : '\n' ∉ []) (by simp [FlushRight])
      (joinLines (lines.map (padded 4)) ++ ['\n'])
    rw [List.nil_append, lineChars_joinLines_feed hpadded (by simpa using hne)] at hfirst
    rw [withoutBraces_trimChars, hfirst, List.map_cons, hpadded.map_trimEndChars]
    rfl
  rw [bodyChars_eq_joinLines hinner, dropEmptyEnds_eq_self hpadded, sharedMargin_padded (hleft hne),
    List.map_map]
  congr 1
  refine (List.map_congr_left fun line _ => ?_).trans (List.map_id lines)
  exact cutMargin_padded 4 line

end Padded

/-- A body is read back from its printed form if it is what can be read, and only then. -/
theorem bodyText_braced_eq_iff {body : String} : bodyText (braced body) = body ↔ IsBody body := by
  constructor
  · intro h
    rw [← h]
    exact isBody_bodyText _
  · intro h
    rw [← String.toList_inj, bodyText, String.toList_ofList, bodyChars_braced h]

end Text

/-! ## Methods -/

namespace Method

/-- The method is read from a node whose body covers the text. -/
def ReadFrom (image : String) (m : Method) : Prop :=
  ∃ owner node body, Tree.first? node "Body" = some body ∧ body.image = image ∧
    node.methodOf owner = .ok m

theorem ReadFrom.body_eq {image : String} {m : Method} (h : m.ReadFrom image) :
    m.body = some (Text.bodyText image) := by
  obtain ⟨owner, node, body, hfirst, rfl, h⟩ := h
  unfold Tree.methodOf at h
  simp only [Except.bind_eq_ok_iff] at h
  obtain ⟨name, _, resultNode, _, params, _, throws, _, result, _, typeParams, _, h⟩ := h
  split at h
  · cases h
  · obtain rfl := Except.pure_eq_ok_iff.mp h
    simp only [hfirst, Option.map_some]

theorem render_some_eq_iff {m : Method} {body printed : String} :
    m.render (some body) = Text.docBlock m.comment ++ m.declaration ++ " " ++ printed ↔
      Text.braced body = printed := by
  unfold render
  simp only [← String.toList_inj, String.toList_append, List.append_assoc,
    List.append_cancel_left_eq]

end Method

open Text

/-- **Bodies are read back as they were printed.** What is read from a body is read again from its
printed form, and a method whose body is what another one prints has the same body. The texts that
are read back are those of tidy lines with a line that has no margin. Lines are cut between
characters, and only blanks are cut off. -/
theorem bodyText_braced (image : String) :
    bodyText (braced (bodyText image)) = bodyText image ∧
    (∀ body, bodyText (braced body) = body ↔ IsBody body) ∧
    (∀ lines, ∀ line ∈ lines,
      IsCut (sharedMargin lines) line (cutMargin (sharedMargin lines) line)) ∧
    ∀ (m m' : Method) (printed : String), m.ReadFrom image →
      m.render m.body = docBlock m.comment ++ m.declaration ++ " " ++ printed →
      m'.ReadFrom printed → m'.body = m.body := by
  have hread : bodyText (braced (bodyText image)) = bodyText image :=
    bodyText_braced_eq_iff.mpr (isBody_bodyText image)
  refine ⟨hread, fun body => bodyText_braced_eq_iff, fun lines line => isCut_sharedMargin,
    fun m m' printed hm hprinted hm' => ?_⟩
  rw [hm.body_eq] at hprinted ⊢
  rw [hm'.body_eq, ← Method.render_some_eq_iff.mp hprinted, hread]

/-- A method whose body covers the text. -/
def methodWithBody (image : String) : Tree :=
  ⟨"Method", none, none, .synthetic, [⟨"Name", some "f", none, .synthetic, []⟩,
    ⟨"Result", none, none, .synthetic, [⟨"Type", none, none, .synthetic,
      [⟨"Name", some "void", none, .synthetic, []⟩]⟩]⟩,
    ⟨"Body", none, some image, .synthetic, []⟩]⟩

theorem exists_readFrom (image : String) : ∃ m : Method, m.ReadFrom image :=
  ⟨_, ⟨"C", .namedClass, []⟩, methodWithBody image, _, rfl, rfl, rfl⟩

/-- Two blanks and a wide one cannot be cut after three bytes. -/
theorem bodyText_braced_wide_blank :
    ∃ m m' : Method,
      m.ReadFrom "\x7b a(); \n\n\u3000if (b) \x7b\n  \u3000c();\n\n\u3000\x7d\r\n \x7d" ∧
      m'.ReadFrom "\x7b\n    a();\n    if (b) \x7b\n    c();\n\n    \x7d\n\x7d" ∧
      m.body = some "a();\nif (b) \x7b\nc();\n\n\x7d" ∧ m'.body = m.body := by
  obtain ⟨m, hm⟩ := exists_readFrom
    "\x7b a(); \n\n\u3000if (b) \x7b\n  \u3000c();\n\n\u3000\x7d\r\n \x7d"
  obtain ⟨m', hm'⟩ := exists_readFrom
    "\x7b\n    a();\n    if (b) \x7b\n    c();\n\n    \x7d\n\x7d"
  have hbody : m.body = some "a();\nif (b) \x7b\nc();\n\n\x7d" := by
    rw [hm.body_eq]
    decide +kernel
  refine ⟨m, m', hm, hm', hbody, (bodyText_braced _).2.2.2 m m' _ hm ?_ hm'⟩
  rw [hbody, Method.render_some_eq_iff]
  decide +kernel

end FluentGrammar
