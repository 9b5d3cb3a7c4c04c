import FluentGrammar.Proofs.TypeGrammar

/-!
# Reading what was written

The written form of a type and the reader are inverse to each other. A type whose names are words
is written as lexemes that spell it, so the reader gives it back. A type that was read has no other
names, so writing it loses nothing, and texts that are read as the same type have one normal form.

* `TypeExpr.splits_text`: a written type is cut into lexemes that spell it.
* `TypeExpr.Spelled.word_mem`: the names of a type are among the words that spell it.
* **`TypeExpr.ofText_text`**: the reader and the written form are inverse.
-/

namespace FluentGrammar

/-! ## Lexemes of written pieces -/

/-- No word goes on with these characters. -/
def Stops (cs : List Char) : Prop :=
  ∀ p ∈ cs.head?, isWordPart p = false

section Pieces

variable {cs : List Char} {ms : List Lexeme}

theorem plain_of_mem_grammarMarks {c : Char} (hc : c ∈ grammarMarks) :
    Text.isBlank c = false ∧ isWordPart c = false := by
  have hall : grammarMarks.all (fun c => !Text.isBlank c && !isWordPart c) = true := by
    decide +kernel
  simpa using List.all_eq_true.mp hall c hc

theorem stops_mark {c : Char} (hc : c ∈ grammarMarks) : Stops (c :: cs) := by
  rintro p ⟨⟩
  exact (plain_of_mem_grammarMarks hc).2

theorem stops_blank {c : Char} (hc : Text.isBlank c = true) : Stops (c :: cs) := by
  rintro p ⟨⟩
  exact isWordPart_eq_false_of_isBlank hc

theorem Splits.cons_mark (h : Splits cs ms) {c : Char} (hc : c ∈ grammarMarks) :
    Splits (c :: cs) (.mark c :: ms) := by
  obtain ⟨hblank, hpart⟩ := plain_of_mem_grammarMarks hc
  refine .mark hblank ?_ h
  by_contra hstart
  rw [isWordPart_of_isWordStart (by simpa using hstart)] at hpart
  cases hpart

theorem isWord_iff {name : String} : isWord name = true ↔
    ∃ c part, name = String.ofList (c :: part) ∧ isWordStart c = true ∧
      ∀ p ∈ part, isWordPart p = true := by
  unfold isWord
  constructor
  · intro h
    split at h
    · cases h
    rename_i c part hname
    rw [Bool.and_eq_true, List.all_eq_true] at h
    exact ⟨c, part, by rw [← hname, String.ofList_toList], h⟩
  · rintro ⟨c, part, rfl, hc, hpart⟩
    simp only [String.toList_ofList]
    rw [Bool.and_eq_true, List.all_eq_true]
    exact ⟨hc, hpart⟩

/-- A word that is not continued is a lexeme. -/
theorem Splits.append_word (h : Splits cs ms) (hcs : Stops cs) {name : String}
    (hname : isWord name = true) : Splits (name.toList ++ cs) (.word name :: ms) := by
  obtain ⟨c, part, rfl, hc, hpart⟩ := isWord_iff.mp hname
  rw [String.toList_ofList]
  exact .word hc hpart hcs h

theorem Splits.isWord_of_mem (h : Splits cs ms) {name : String} (hname : .word name ∈ ms) :
    isWord name = true := by
  induction h with
  | nil => cases hname
  | blank _ _ ih => exact ih hname
  | word hc hpart _ _ ih =>
    rcases List.mem_cons.mp hname with heq | hname
    · cases heq
      exact isWord_iff.mpr ⟨_, _, rfl, hc, hpart⟩
    · exact ih hname
  | mark _ _ _ ih =>
    rcases List.mem_cons.mp hname with heq | hname
    · cases heq
    · exact ih hname

theorem toList_brackets_succ (dims : Nat) :
    (brackets (dims + 1)).toList = '[' :: ']' :: (brackets dims).toList := by
  simp [brackets, List.replicate_succ]

theorem Splits.append_brackets (h : Splits cs ms) (dims : Nat) :
    Splits ((brackets dims).toList ++ cs) (bracketPairs dims ++ ms) := by
  induction dims with
  | zero => exact h
  | succ dims ih =>
    rw [toList_brackets_succ]
    exact (ih.cons_mark (by decide)).cons_mark (by decide)

theorem stops_brackets (hcs : Stops cs) (dims : Nat) : Stops ((brackets dims).toList ++ cs) := by
  cases dims with
  | zero => exact hcs
  | succ dims =>
    rw [toList_brackets_succ]
    exact stops_mark (by decide)

theorem Splits.append_wildcard (h : Splits cs ms) {word : String} (hword : isWord word = true) :
    Splits ('?' :: ' ' :: word.toList ++ ' ' :: cs) (.mark '?' :: .word word :: ms) := by
  have hblank : Splits (' ' :: cs) ms := .blank rfl h
  have hbound : Splits (' ' :: (word.toList ++ ' ' :: cs)) (.word word :: ms) :=
    .blank rfl (hblank.append_word (stops_blank rfl) hword)
  exact hbound.cons_mark (by decide)

end Pieces

/-! ## Written types -/

theorem TypeExpr.toList_text_simple (name : String) (dims : Nat) :
    (TypeExpr.text ⟨name, [], dims⟩).toList = name.toList ++ (brackets dims).toList := by
  simp [TypeExpr.text, TypeArg.texts, angled]

theorem TypeExpr.toList_text_applied (name : String) (a : TypeArg) (as : List TypeArg)
    (dims : Nat) :
    (TypeExpr.text ⟨name, a :: as, dims⟩).toList = name.toList ++
      '<' :: (Text.joinWith ", " (TypeArg.texts (a :: as))).toList ++
        '>' :: (brackets dims).toList := by
  simp [TypeExpr.text, TypeArg.texts, angled]

theorem TypeArg.toList_text_upper (t : TypeExpr) :
    (TypeArg.text (.upper t)).toList = '?' :: ' ' :: "extends".toList ++ ' ' :: t.text.toList := by
  simp [TypeArg.text]

theorem TypeArg.toList_text_lower (t : TypeExpr) :
    (TypeArg.text (.lower t)).toList = '?' :: ' ' :: "super".toList ++ ' ' :: t.text.toList := by
  simp [TypeArg.text]

theorem TypeArg.toList_texts (a b : TypeArg) (as : List TypeArg) :
    (Text.joinWith ", " (TypeArg.texts (a :: b :: as))).toList =
      a.text.toList ++ ',' :: ' ' :: (Text.joinWith ", " (TypeArg.texts (b :: as))).toList := by
  simp only [TypeArg.texts, Text.joinWith, String.intercalate_cons_cons]
  simp

mutual

/-- A written type is cut into lexemes that spell it, whatever follows. -/
theorem TypeExpr.splits_text : (t : TypeExpr) → (∀ name ∈ t.allNames, isWord name = true) →
    ∀ {cs : List Char} {ms : List Lexeme}, Stops cs → Splits cs ms →
      ∃ ls, t.Spelled ls ∧ Splits (t.text.toList ++ cs) (ls ++ ms)
  | ⟨name, [], dims⟩, hnames, cs, ms, hcs, h => by
    have hname : isWord name = true := hnames name List.mem_cons_self
    refine ⟨_, .simple name dims, ?_⟩
    rw [TypeExpr.toList_text_simple, List.append_assoc]
    exact (h.append_brackets dims).append_word (stops_brackets hcs dims) hname
  | ⟨name, a :: as, dims⟩, hnames, cs, ms, hcs, h => by
    have hname : isWord name = true := hnames name List.mem_cons_self
    -- Lexemes are put together from the end, since a word depends on what follows it.
    have hclose := (h.append_brackets dims).cons_mark (show '>' ∈ grammarMarks by decide)
    obtain ⟨ls, hls, hsplit⟩ := TypeArg.splits_texts (a :: as) (List.cons_ne_nil a as)
      (fun n hn => hnames n (List.mem_cons_of_mem name hn)) (stops_mark (by decide)) hclose
    refine ⟨_, .applied name dims hls, ?_⟩
    have hopen := (hsplit.cons_mark (show '<' ∈ grammarMarks by decide)).append_word
      (stops_mark (by decide)) hname
    rw [TypeExpr.toList_text_applied]
    simpa using hopen

theorem TypeArg.splits_text : (a : TypeArg) → (∀ name ∈ a.allNames, isWord name = true) →
    ∀ {cs : List Char} {ms : List Lexeme}, Stops cs → Splits cs ms →
      ∃ ls, a.Spelled ls ∧ Splits (a.text.toList ++ cs) (ls ++ ms)
  | .plain t, hnames, cs, ms, hcs, h => by
    obtain ⟨ls, hls, hsplit⟩ := TypeExpr.splits_text t hnames hcs h
    exact ⟨ls, .plain hls, hsplit⟩
  | .any, _, cs, ms, _, h => ⟨_, .any, h.cons_mark (by decide)⟩
  | .upper t, hnames, cs, ms, hcs, h => by
    obtain ⟨ls, hls, hsplit⟩ := TypeExpr.splits_text t hnames hcs h
    refine ⟨_, .upper hls, ?_⟩
    rw [TypeArg.toList_text_upper]
    simpa using hsplit.append_wildcard (show isWord "extends" = true by decide +kernel)
  | .lower t, hnames, cs, ms, hcs, h => by
    obtain ⟨ls, hls, hsplit⟩ := TypeExpr.splits_text t hnames hcs h
    refine ⟨_, .lower hls, ?_⟩
    rw [TypeArg.toList_text_lower]
    simpa using hsplit.append_wildcard (show isWord "super" = true by decide +kernel)

theorem TypeArg.splits_texts : (args : List TypeArg) → args ≠ [] →
    (∀ name ∈ TypeArg.allNamesOf args, isWord name = true) →
    ∀ {cs : List Char} {ms : List Lexeme}, Stops cs → Splits cs ms →
      ∃ ls, TypeArg.SpelledAll args ls ∧
        Splits ((Text.joinWith ", " (TypeArg.texts args)).toList ++ cs) (ls ++ ms)
  | [], hne, _, _, _, _, _ => absurd rfl hne
  | [a], _, hnames, cs, ms, hcs, h => by
    obtain ⟨ls, hls, hsplit⟩ := TypeArg.splits_text a
      (fun n hn => hnames n (List.mem_append_left _ hn)) hcs h
    exact ⟨ls, .last hls, hsplit⟩
  | a :: b :: as, _, hnames, cs, ms, hcs, h => by
    obtain ⟨ls₂, hls₂, hsplit₂⟩ := TypeArg.splits_texts (b :: as) (List.cons_ne_nil b as)
      (fun n hn => hnames n (List.mem_append_right _ hn)) hcs h
    have hcomma := Splits.cons_mark (.blank (show Text.isBlank ' ' = true from rfl) hsplit₂)
      (show ',' ∈ grammarMarks by decide)
    obtain ⟨ls₁, hls₁, hsplit₁⟩ := TypeArg.splits_text a
      (fun n hn => hnames n (List.mem_append_left _ hn)) (stops_mark (by decide)) hcomma
    refine ⟨_, .cons hls₁ hls₂, ?_⟩
    rw [TypeArg.toList_texts]
    simpa using hsplit₁

end

/-! ## Names of types that were read -/

mutual

theorem TypeExpr.Spelled.word_mem {t : TypeExpr} {ls : List Lexeme} {name : String} :
    t.Spelled ls → name ∈ t.allNames → .word name ∈ ls
  | .simple n dims, hname => by
    simp only [TypeExpr.allNames, TypeArg.allNamesOf, List.mem_singleton] at hname
    simp [hname]
  | .applied n dims h, hname => by
    rcases List.mem_cons.mp hname with rfl | hname
    · simp
    · simp [h.word_mem hname]

theorem TypeArg.Spelled.word_mem {a : TypeArg} {ls : List Lexeme} {name : String} :
    a.Spelled ls → name ∈ a.allNames → .word name ∈ ls
  | .plain h, hname => h.word_mem hname
  | .any, hname => by cases hname
  | .upper h, hname => List.mem_cons_of_mem _ (List.mem_cons_of_mem _ (h.word_mem hname))
  | .lower h, hname => List.mem_cons_of_mem _ (List.mem_cons_of_mem _ (h.word_mem hname))

theorem TypeArg.SpelledAll.word_mem {as : List TypeArg} {ls : List Lexeme} {name : String} :
    TypeArg.SpelledAll as ls → name ∈ TypeArg.allNamesOf as → .word name ∈ ls
  | .last h, hname => by
    simp only [TypeArg.allNamesOf, List.append_nil] at hname
    exact h.word_mem hname
  | .cons h hs, hname => by
    rcases List.mem_append.mp hname with hname | hname
    · exact List.mem_append_left _ (h.word_mem hname)
    · exact List.mem_append_right _ (List.mem_cons_of_mem _ (hs.word_mem hname))

end

namespace TypeExpr

theorem ofText_text_of_isWord {t : TypeExpr} (h : ∀ name ∈ t.allNames, isWord name = true) :
    ofText t.text = .ok t := by
  obtain ⟨ls, hls, hsplit⟩ := t.splits_text h (by simp [Stops]) .nil
  rw [List.append_nil, List.append_nil] at hsplit
  rw [ofText_eq_ok_iff, splits_iff.mp hsplit]
  exact hls

theorem isWord_of_ofText {text : String} {t : TypeExpr} (h : ofText text = .ok t) :
    ∀ name ∈ t.allNames, isWord name = true := by
  intro name hname
  have hword := (ofText_eq_ok_iff.mp h).word_mem hname
  exact (splits_iff.mpr rfl).isWord_of_mem hword

/-- **The written form and the reader are inverse.** A type all of whose names are words is what is
read from its written form, and whatever is read has no other names. So different types that were
read are written differently, and reading, writing and reading again changes nothing. -/
theorem ofText_text :
    (∀ t : TypeExpr, (∀ name ∈ t.allNames, isWord name = true) → ofText t.text = .ok t) ∧
    (∀ text t, ofText text = .ok t → ∀ name ∈ t.allNames, isWord name = true) ∧
    (∀ text₁ text₂ t₁ t₂, ofText text₁ = .ok t₁ → ofText text₂ = .ok t₂ →
      t₁.text = t₂.text → t₁ = t₂) ∧
    ∀ text t, ofText text = .ok t → ofText t.text = .ok t := by
  have hagain : ∀ text t, ofText text = .ok t → ofText t.text = .ok t :=
    fun text t h => ofText_text_of_isWord (isWord_of_ofText h)
  refine ⟨fun t => ofText_text_of_isWord, fun text t => isWord_of_ofText, ?_, hagain⟩
  intro text₁ text₂ t₁ t₂ h₁ h₂ heq
  have hread := hagain text₁ t₁ h₁
  rw [heq, hagain text₂ t₂ h₂] at hread
  exact (Except.ok.inj hread).symm

/-- Words that are keywords after a question mark are names everywhere else. -/
theorem ofText_text_keywords :
    let t : TypeExpr := ⟨"extends", [.upper (.named "extends"), .lower ⟨"$x_1", [.any], 2⟩,
      .plain (.named "super")], 1⟩
    t.text = "extends<? extends extends, ? super $x_1<?>[][], super>[]" ∧ ofText t.text = .ok t :=
  ⟨by decide +kernel, ofText_text.1 _ (by decide +kernel)⟩

end TypeExpr

end FluentGrammar
