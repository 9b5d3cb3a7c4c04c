import FluentGrammar.Fault
import FluentGrammar.Proofs.Run
import FluentGrammar.Proofs.TypeTokens

/-!
# The grammar of type expressions

What the reader of type expressions accepts, said without the reader: a text is cut into words and
marks, and the grammar says which types a sequence of words and marks spells. The reader goes from
token to token and never looks back but once, when the word after a question mark belongs to a
qualified name; it then takes the question mark for a whole wildcard and stops at the word.

* `TypeExpr.Spelled`, `TypeArg.Spelled`, `TypeArg.SpelledAll`: the grammar.
* `TypeExpr.Reader.Gives`: a step of the reader that succeeds, with one lemma for every step.
* `TypeExpr.Reader.spelled_of_readType`: what is read is spelled by the tokens that were taken.
* `TypeExpr.Reader.readType_of_spelled`: what is spelled is read.
* **`TypeExpr.ofText_grammar`**: the reader accepts exactly what the grammar derives.
-/

namespace FluentGrammar

/-! ## The grammar -/

/-- The lexemes of array dimensions. -/
def bracketPairs : Nat → List Lexeme
  | 0 => []
  | dims + 1 => .mark '[' :: .mark ']' :: bracketPairs dims

mutual

/-- The lexemes of a type: `word [ "<" Arg ("," Arg)* ">" ] ("[" "]")*`. -/
inductive TypeExpr.Spelled : TypeExpr → List Lexeme → Prop
  | simple (name : String) (dims : Nat) :
    TypeExpr.Spelled ⟨name, [], dims⟩ (.word name :: bracketPairs dims)
  | applied (name : String) (dims : Nat) {args : List TypeArg} {ls : List Lexeme}
    (h : TypeArg.SpelledAll args ls) :
    TypeExpr.Spelled ⟨name, args, dims⟩
      (.word name :: .mark '<' :: ls ++ .mark '>' :: bracketPairs dims)

/-- The lexemes of an argument: `Type`, `"?"`, `"?" "extends" Type` or `"?" "super" Type`. -/
inductive TypeArg.Spelled : TypeArg → List Lexeme → Prop
  | plain {t : TypeExpr} {ls : List Lexeme} (h : TypeExpr.Spelled t ls) :
    TypeArg.Spelled (.plain t) ls
  | any : TypeArg.Spelled .any [.mark '?']
  | upper {t : TypeExpr} {ls : List Lexeme} (h : TypeExpr.Spelled t ls) :
    TypeArg.Spelled (.upper t) (.mark '?' :: .word "extends" :: ls)
  | lower {t : TypeExpr} {ls : List Lexeme} (h : TypeExpr.Spelled t ls) :
    TypeArg.Spelled (.lower t) (.mark '?' :: .word "super" :: ls)

/-- The lexemes of one or more arguments, which commas separate. -/
inductive TypeArg.SpelledAll : List TypeArg → List Lexeme → Prop
  | last {a : TypeArg} {ls : List Lexeme} (h : TypeArg.Spelled a ls) : TypeArg.SpelledAll [a] ls
  | cons {a : TypeArg} {as : List TypeArg} {ls ms : List Lexeme} (h : TypeArg.Spelled a ls)
    (hs : TypeArg.SpelledAll as ms) : TypeArg.SpelledAll (a :: as) (ls ++ .mark ',' :: ms)

end

/-- The marks that the grammar uses. -/
def grammarMarks : List Char :=
  ['<', '>', ',', '?', '[', ']']

theorem mem_grammarMarks_of_bracketPairs {dims : Nat} {c : Char}
    (h : Lexeme.mark c ∈ bracketPairs dims) : c ∈ grammarMarks := by
  induction dims with
  | zero => cases h
  | succ dims ih =>
    simp only [bracketPairs, List.mem_cons, Lexeme.mark.injEq] at h
    rcases h with rfl | rfl | h
    · decide
    · decide
    · exact ih h

mutual

theorem TypeExpr.Spelled.mem_grammarMarks {t : TypeExpr} {ls : List Lexeme} {c : Char} :
    t.Spelled ls → Lexeme.mark c ∈ ls → c ∈ grammarMarks
  | .simple name dims, hc => by
    simp only [List.mem_cons, reduceCtorEq, false_or] at hc
    exact mem_grammarMarks_of_bracketPairs hc
  | .applied name dims h, hc => by
    simp only [List.mem_append, List.mem_cons, reduceCtorEq, Lexeme.mark.injEq, false_or] at hc
    rcases hc with (rfl | hc) | rfl | hc
    · decide
    · exact h.mem_grammarMarks hc
    · decide
    · exact mem_grammarMarks_of_bracketPairs hc

theorem TypeArg.Spelled.mem_grammarMarks {a : TypeArg} {ls : List Lexeme} {c : Char} :
    a.Spelled ls → Lexeme.mark c ∈ ls → c ∈ grammarMarks
  | .plain h, hc => h.mem_grammarMarks hc
  | .any, hc => by
    simp only [List.mem_singleton, Lexeme.mark.injEq] at hc
    rw [hc]
    decide
  | .upper h, hc | .lower h, hc => by
    simp only [List.mem_cons, reduceCtorEq, Lexeme.mark.injEq, false_or] at hc
    rcases hc with rfl | hc
    · decide
    · exact h.mem_grammarMarks hc

theorem TypeArg.SpelledAll.mem_grammarMarks {as : List TypeArg} {ls : List Lexeme} {c : Char} :
    TypeArg.SpelledAll as ls → Lexeme.mark c ∈ ls → c ∈ grammarMarks
  | .last h, hc => h.mem_grammarMarks hc
  | .cons h hs, hc => by
    simp only [List.mem_append, List.mem_cons, Lexeme.mark.injEq] at hc
    rcases hc with hc | rfl | hc
    · exact h.mem_grammarMarks hc
    · decide
    · exact hs.mem_grammarMarks hc

end

namespace TypeExpr.Reader

/-! ## Steps of the reader -/

section Steps

variable {length : Nat} {ts rest : List Token}

/-- A step of the reader gives a value and leaves tokens. -/
def Gives {α : Type} {bound : Nat} (x : Except ReadFault (Result α bound)) (value : α)
    (rest : List Token) : Prop :=
  ∃ h, x = .ok ⟨value, rest, h⟩

theorem Gives.length_lt {α : Type} {bound : Nat} {x : Except ReadFault (Result α bound)} {value : α}
    (h : Gives x value rest) : rest.length < bound :=
  h.choose

theorem readName_gives_iff {name : String} : Gives (readName length ts) name rest ↔
    ∃ start stop, ts = ⟨.word name, start, stop⟩ :: rest ∧ dotAt stop rest = false := by
  constructor
  · rintro ⟨h, he⟩
    unfold readName at he
    split at he
    · split at he
      · cases he
      · rename_i hdot
        cases he
        exact ⟨_, _, rfl, by simpa using hdot⟩
    · cases he
  · rintro ⟨start, stop, rfl, hdot⟩
    refine ⟨by simp, ?_⟩
    rw [readName, hdot]
    rfl

/-- The first token is the given mark. -/
def Opens (c : Char) (ts : List Token) : Prop :=
  ∃ start stop tail, ts = ⟨.mark c, start, stop⟩ :: tail

theorem readType_gives_iff {t : TypeExpr} : Gives (readType length ts) t rest ↔
    ∃ ts₁, Gives (readName length ts) t.name ts₁ ∧
      ((∃ start stop ts₂ ts₃, ts₁ = ⟨.mark '<', start, stop⟩ :: ts₂ ∧
        Gives (readArgs length ts₂) t.args ts₃ ∧ Gives (readDims length ts₃) t.dims rest) ∨
      ¬ Opens '<' ts₁ ∧ t.args = [] ∧ Gives (readDims length ts₁) t.dims rest) := by
  constructor
  · rintro ⟨h, he⟩
    unfold readType at he
    split at he
    · cases he
    rename_i name hname
    dsimp only at he
    split at he
    · rename_i start stop ts₂ hrest
      split at he
      · cases he
      rename_i args ts₃ h₃ hargs
      split at he
      · cases he
      rename_i dims ts₄ h₄ hdims
      cases he
      exact ⟨name.rest, ⟨name.shorter, hname⟩,
        .inl ⟨start, stop, ts₂, ts₃, hrest, ⟨h₃, hargs⟩, h₄, hdims⟩⟩
    · rename_i ts₂ hopen
      split at he
      · cases he
      rename_i dims ts₃ h₃ hdims
      cases he
      refine ⟨name.rest, ⟨name.shorter, hname⟩, .inr ⟨?_, rfl, h₃, hdims⟩⟩
      rintro ⟨start, stop, tail, hrest⟩
      exact hopen start stop tail hrest
  · obtain ⟨name, args, dims⟩ := t
    rintro ⟨ts₁, ⟨h₁, hname⟩, ⟨start, stop, ts₂, ts₃, rfl, ⟨h₃, hargs⟩, h₄, hdims⟩ |
      ⟨hopen, rfl, h₃, hdims⟩⟩
    · refine ⟨by simp at h₁; omega, ?_⟩
      unfold readType
      simp only [hname, hargs, hdims]
    · refine ⟨by omega, ?_⟩
      unfold readType
      simp only [hname]
      split
      · exact absurd ⟨_, _, _, rfl⟩ hopen
      · simp only [hdims]

theorem word_of_keyword {make : TypeExpr → TypeArg} {h : rest.length < ts.length}
    (hkeyword : keyword ts = .bound make rest h) :
    ∃ word start stop, ts = ⟨.word word, start, stop⟩ :: rest ∧
      (word = "extends" ∧ make = .upper ∨ word = "super" ∧ make = .lower) := by
  unfold keyword at hkeyword
  split at hkeyword
  · split_ifs at hkeyword with hdot hextends hsuper
    · cases hkeyword
      exact ⟨_, _, _, rfl, .inl ⟨hextends, rfl⟩⟩
    · cases hkeyword
      exact ⟨_, _, _, rfl, .inr ⟨hsuper, rfl⟩⟩
  · cases hkeyword

theorem readArg_gives_iff {a : TypeArg} : Gives (readArg length ts) a rest ↔
    (∃ start stop ts₁, ts = ⟨.mark '?', start, stop⟩ :: ts₁ ∧
      (keyword ts₁ = .none ∧ a = .any ∧ rest = ts₁ ∨
        ∃ make ts₂ h₂ t, keyword ts₁ = .bound make ts₂ h₂ ∧ a = make t ∧
          Gives (readType length ts₂) t rest)) ∨
    ¬ Opens '?' ts ∧ ∃ t, a = .plain t ∧ Gives (readType length ts) t rest := by
  constructor
  · rintro ⟨h, he⟩
    unfold readArg at he
    split at he
    · rename_i start stop ts₁
      left
      refine ⟨start, stop, ts₁, rfl, ?_⟩
      split at he
      · rename_i hkeyword
        cases he
        exact .inl ⟨hkeyword, rfl, rfl⟩
      · cases he
      rename_i make ts₂ h₂ hkeyword
      split at he
      · cases he
      rename_i t ts₃ h₃ htype
      cases he
      exact .inr ⟨make, ts₂, h₂, t, hkeyword, rfl, h₃, htype⟩
    · rename_i hopen
      right
      split at he
      · cases he
      rename_i t ts₁ h₁ htype
      cases he
      refine ⟨?_, t, rfl, h₁, htype⟩
      rintro ⟨start, stop, tail, rfl⟩
      exact hopen start stop tail rfl
  · rintro (⟨start, stop, ts₁, rfl,
      ⟨hkeyword, rfl, rfl⟩ | ⟨make, ts₂, h₂, t, hkeyword, rfl, h₃, htype⟩⟩ |
      ⟨hopen, t, rfl, h₁, htype⟩)
    · refine ⟨by simp, ?_⟩
      unfold readArg
      simp only [hkeyword]
    · refine ⟨by simp; omega, ?_⟩
      unfold readArg
      simp only [hkeyword, htype]
    · refine ⟨h₁, ?_⟩
      unfold readArg
      split
      · exact absurd ⟨_, _, _, rfl⟩ hopen
      · simp only [htype]

theorem readArgs_gives_iff {args : List TypeArg} : Gives (readArgs length ts) args rest ↔
    ∃ a ts₁, Gives (readArg length ts) a ts₁ ∧
      ((∃ start stop ts₂ as, ts₁ = ⟨.mark ',', start, stop⟩ :: ts₂ ∧ args = a :: as ∧
        Gives (readArgs length ts₂) as rest) ∨
      ∃ start stop, ts₁ = ⟨.mark '>', start, stop⟩ :: rest ∧ args = [a]) := by
  constructor
  · rintro ⟨h, he⟩
    unfold readArgs at he
    split at he
    · cases he
    rename_i arg harg
    refine ⟨arg.value, arg.rest, ⟨arg.shorter, harg⟩, ?_⟩
    dsimp only at he
    split at he
    · rename_i start stop ts₂ hrest
      split at he
      · cases he
      rename_i as ts₃ h₃ hargs
      cases he
      exact .inl ⟨start, stop, ts₂, as, hrest, rfl, h₃, hargs⟩
    · rename_i start stop ts₂ hrest
      cases he
      exact .inr ⟨start, stop, hrest, rfl⟩
    · cases he
  · rintro ⟨a, ts₁, ⟨h₁, harg⟩, ⟨start, stop, ts₂, as, rfl, rfl, h₃, hargs⟩ |
      ⟨start, stop, rfl, rfl⟩⟩
    · refine ⟨by simp at h₁; omega, ?_⟩
      unfold readArgs
      simp only [harg, hargs]
    · refine ⟨by simp at h₁; omega, ?_⟩
      unfold readArgs
      simp only [harg]

end Steps

/-! ## What is read is spelled by the grammar -/

section Sound

variable {length : Nat} {ts rest : List Token}

theorem lexemes_of_readDims {dims : Nat} (h : Gives (readDims length ts) dims rest) :
    ts.map Token.lexeme = bracketPairs dims ++ rest.map Token.lexeme := by
  obtain ⟨hlength, he⟩ := h
  fun_induction readDims length ts generalizing dims with
  | case1 start stop start' stop' ts ih =>
    obtain ⟨r, hr, he⟩ := Except.map_eq_ok_iff.mp he
    cases he
    rw [bracketPairs, List.map_cons, List.map_cons, ih r.shorter hr]
    rfl
  | case2 => cases he
  | case3 =>
    cases he
    rfl

mutual

theorem spelled_of_readType (length : Nat) (ts : List Token) {rest : List Token} {t : TypeExpr}
    (h : Gives (readType length ts) t rest) :
    ∃ ls, t.Spelled ls ∧ ts.map Token.lexeme = ls ++ rest.map Token.lexeme := by
  obtain ⟨name, args, dims⟩ := t
  obtain ⟨ts₁, hname, hrest⟩ := readType_gives_iff.mp h
  have hlt := hname.length_lt
  obtain ⟨start, stop, rfl, _⟩ := readName_gives_iff.mp hname
  rcases hrest with ⟨start, stop, ts₂, ts₃, rfl, hargs, hdims⟩ | ⟨_, rfl, hdims⟩
  · obtain ⟨ls, hls, hts₂⟩ := spelled_of_readArgs length ts₂ hargs
    refine ⟨_, .applied name dims hls, ?_⟩
    simp [hts₂, lexemes_of_readDims hdims]
  · refine ⟨_, .simple name dims, ?_⟩
    simp [lexemes_of_readDims hdims]
termination_by 3 * ts.length

theorem spelled_of_readArg (length : Nat) (ts : List Token) {rest : List Token} {a : TypeArg}
    (h : Gives (readArg length ts) a rest) :
    ∃ ls, a.Spelled ls ∧ ts.map Token.lexeme = ls ++ rest.map Token.lexeme := by
  rcases readArg_gives_iff.mp h with ⟨start, stop, ts₁, hts₁, ⟨_, rfl, rfl⟩ |
    ⟨make, ts₂, h₂, t, hkeyword, rfl, htype⟩⟩ | ⟨_, t, rfl, htype⟩
  · exact ⟨_, .any, by rw [hts₁]; rfl⟩
  · have hlt : ts₂.length < ts.length := by
      rw [hts₁, List.length_cons]
      omega
    obtain ⟨ls, hls, hts₂⟩ := spelled_of_readType length ts₂ htype
    obtain ⟨word, start, stop, rfl, ⟨rfl, rfl⟩ | ⟨rfl, rfl⟩⟩ := word_of_keyword hkeyword
    · exact ⟨_, .upper hls, by simp [hts₁, hts₂]⟩
    · exact ⟨_, .lower hls, by simp [hts₁, hts₂]⟩
  · obtain ⟨ls, hls, hts⟩ := spelled_of_readType length ts htype
    exact ⟨ls, .plain hls, hts⟩
termination_by 3 * ts.length + 1

theorem spelled_of_readArgs (length : Nat) (ts : List Token) {rest : List Token}
    {args : List TypeArg} (h : Gives (readArgs length ts) args rest) :
    ∃ ls, TypeArg.SpelledAll args ls ∧
      ts.map Token.lexeme = ls ++ .mark '>' :: rest.map Token.lexeme := by
  obtain ⟨a, ts₁, harg, hrest⟩ := readArgs_gives_iff.mp h
  have hlt := harg.length_lt
  obtain ⟨ls, hls, hts⟩ := spelled_of_readArg length ts harg
  rcases hrest with ⟨start, stop, ts₂, as, rfl, rfl, hargs⟩ | ⟨start, stop, rfl, rfl⟩
  · have hlt₂ : ts₂.length < ts.length := Nat.lt_of_succ_lt hlt
    obtain ⟨ms, hms, hts₂⟩ := spelled_of_readArgs length ts₂ hargs
    exact ⟨_, .cons hls hms, by simp [hts, hts₂]⟩
  · exact ⟨ls, .last hls, by simpa using hts⟩
termination_by 3 * ts.length + 2

end

end Sound

/-! ## What the grammar spells is read -/

section Complete

/-- A type that is followed by these tokens is complete. -/
def Ends (rest : List Token) : Prop :=
  ∀ token ∈ rest.head?, token.lexeme = .mark ',' ∨ token.lexeme = .mark '>'

variable {length : Nat} {us rest : List Token}

theorem ends_comma (start stop : Nat) (ts : List Token) :
    Ends (⟨.mark ',', start, stop⟩ :: ts) := by
  rintro token ⟨⟩
  exact .inl rfl

theorem ends_close (start stop : Nat) (ts : List Token) :
    Ends (⟨.mark '>', start, stop⟩ :: ts) := by
  rintro token ⟨⟩
  exact .inr rfl

theorem not_opens_cons {l : Lexeme} {c : Char} (h : l ≠ .mark c) {start stop : Nat} :
    ¬ Opens c (⟨l, start, stop⟩ :: rest) := by
  rintro ⟨_, _, _, hopen⟩
  cases hopen
  exact h rfl

theorem Ends.not_opens (h : Ends rest) {c : Char} (hcomma : c ≠ ',') (hclose : c ≠ '>') :
    ¬ Opens c rest := by
  rintro ⟨start, stop, tail, rfl⟩
  rcases h _ rfl with hmark | hmark
  · exact hcomma (Lexeme.mark.inj hmark)
  · exact hclose (Lexeme.mark.inj hmark)

theorem dotAt_eq_false {stop : Nat} (h : ¬ Opens '.' rest) : dotAt stop rest = false := by
  unfold dotAt
  split
  · exact absurd ⟨_, _, _, rfl⟩ h
  · rfl

theorem exists_token {us : List Token} {l : Lexeme} {ls : List Lexeme}
    (h : us.map Token.lexeme = l :: ls) :
    ∃ start stop tail, us = ⟨l, start, stop⟩ :: tail ∧ tail.map Token.lexeme = ls := by
  obtain ⟨⟨_, start, stop⟩, tail, rfl, rfl, htail⟩ := List.map_eq_cons_iff.mp h
  exact ⟨start, stop, tail, rfl, htail⟩

theorem readDims_of_bracketPairs {dims : Nat} (hus : us.map Token.lexeme = bracketPairs dims)
    (hrest : ¬ Opens '[' rest) : Gives (readDims length (us ++ rest)) dims rest := by
  induction dims generalizing us with
  | zero =>
    obtain rfl : us = [] := List.map_eq_nil_iff.mp hus
    rw [List.nil_append]
    refine ⟨by simp, ?_⟩
    unfold readDims
    split
    · exact absurd ⟨_, _, _, rfl⟩ hrest
    · exact absurd ⟨_, _, _, rfl⟩ hrest
    · rfl
  | succ dims ih =>
    obtain ⟨start, stop, vs, rfl, hvs⟩ := exists_token hus
    obtain ⟨start', stop', ws, rfl, hws⟩ := exists_token hvs
    obtain ⟨h, hdims⟩ := ih hws
    rw [List.cons_append, List.cons_append]
    refine ⟨Nat.lt_add_right 2 h, ?_⟩
    rw [readDims, hdims]
    rfl

theorem not_opens_of_bracketPairs {dims : Nat} {c : Char} (hc : c ≠ '[')
    (hus : us.map Token.lexeme = bracketPairs dims) (hrest : ¬ Opens c rest) :
    ¬ Opens c (us ++ rest) := by
  cases dims with
  | zero =>
    obtain rfl : us = [] := List.map_eq_nil_iff.mp hus
    exact hrest
  | succ dims =>
    obtain ⟨start, stop, vs, rfl, _⟩ := exists_token hus
    rintro ⟨_, _, _, h⟩
    cases h
    exact hc rfl

theorem readName_of_word {name : String} {start stop : Nat} (h : ¬ Opens '.' rest) :
    Gives (readName length (⟨.word name, start, stop⟩ :: rest)) name rest :=
  readName_gives_iff.mpr ⟨start, stop, rfl, dotAt_eq_false h⟩

theorem exists_word_of_spelled {t : TypeExpr} {ls : List Lexeme} (h : t.Spelled ls)
    (hus : us.map Token.lexeme = ls) :
    ∃ start stop tail, us = ⟨.word t.name, start, stop⟩ :: tail := by
  cases h with
  | simple name dims =>
    obtain ⟨start, stop, vs, rfl, _⟩ := exists_token hus
    exact ⟨start, stop, vs, rfl⟩
  | applied name dims h =>
    obtain ⟨start, stop, vs, rfl, _⟩ := exists_token hus
    exact ⟨start, stop, vs, rfl⟩

theorem keyword_of_ends (h : Ends rest) : keyword rest = .none := by
  unfold keyword
  split
  · rcases h _ rfl with hmark | hmark <;> cases hmark
  · rfl

theorem keyword_extends {start stop : Nat} (h : ¬ Opens '.' rest) :
    keyword (⟨.word "extends", start, stop⟩ :: rest) = .bound .upper rest (Nat.lt_succ_self _) := by
  simp [keyword, dotAt_eq_false h]

theorem keyword_super {start stop : Nat} (h : ¬ Opens '.' rest) :
    keyword (⟨.word "super", start, stop⟩ :: rest) = .bound .lower rest (Nat.lt_succ_self _) := by
  simp [keyword, dotAt_eq_false h]

theorem readArg_of_keyword {word : String} {make : TypeExpr → TypeArg}
    (hword : ∀ {start stop : Nat} {ts : List Token}, ¬ Opens '.' ts →
      keyword (⟨.word word, start, stop⟩ :: ts) = .bound make ts (Nat.lt_succ_self _))
    {t : TypeExpr} {ls : List Lexeme} (h : t.Spelled ls)
    (htype : ∀ vs : List Token, vs.map Token.lexeme = ls →
      Gives (readType length (vs ++ rest)) t rest)
    (hus : us.map Token.lexeme = .mark '?' :: .word word :: ls) :
    Gives (readArg length (us ++ rest)) (make t) rest := by
  obtain ⟨start, stop, vs, rfl, hvs⟩ := exists_token hus
  obtain ⟨start', stop', ws, rfl, hws⟩ := exists_token hvs
  have hread := htype ws hws
  obtain ⟨_, _, tail, rfl⟩ := exists_word_of_spelled h hws
  exact readArg_gives_iff.mpr (.inl ⟨start, stop, _, rfl, .inr ⟨make, _, by simp, t,
    hword (not_opens_cons (by simp)), rfl, hread⟩⟩)

mutual

theorem readType_of_spelled {t : TypeExpr} {ls : List Lexeme} : t.Spelled ls →
    ∀ us rest : List Token, us.map Token.lexeme = ls → Ends rest →
      Gives (readType length (us ++ rest)) t rest
  | .simple name dims, us, rest, hus, hrest => by
    obtain ⟨start, stop, vs, rfl, hvs⟩ := exists_token hus
    have hdot : ¬ Opens '.' (vs ++ rest) :=
      not_opens_of_bracketPairs (by decide) hvs (hrest.not_opens (by decide) (by decide))
    have hangle : ¬ Opens '<' (vs ++ rest) :=
      not_opens_of_bracketPairs (by decide) hvs (hrest.not_opens (by decide) (by decide))
    exact readType_gives_iff.mpr ⟨vs ++ rest, readName_of_word hdot, .inr ⟨hangle, rfl,
      readDims_of_bracketPairs hvs (hrest.not_opens (by decide) (by decide))⟩⟩
  | .applied name dims h, us, rest, hus, hrest => by
    obtain ⟨start, stop, vs, rfl, hvs⟩ := exists_token hus
    obtain ⟨start', stop', ws, rfl, hws⟩ := exists_token hvs
    obtain ⟨as, bs, rfl, has, hbs⟩ := List.map_eq_append_iff.mp hws
    obtain ⟨first, last, ds, rfl, hds⟩ := exists_token hbs
    refine readType_gives_iff.mpr ⟨_, readName_of_word (not_opens_cons (by simp)),
      .inl ⟨start', stop', as ++ ⟨.mark '>', first, last⟩ :: (ds ++ rest), ds ++ rest, ?_, ?_, ?_⟩⟩
    · exact congrArg (List.cons _) (List.append_assoc as _ rest)
    · exact readArgs_of_spelled h as (ds ++ rest) first last has
    · exact readDims_of_bracketPairs hds (hrest.not_opens (by decide) (by decide))

theorem readArg_of_spelled {a : TypeArg} {ls : List Lexeme} : a.Spelled ls →
    ∀ us rest : List Token, us.map Token.lexeme = ls → Ends rest →
      Gives (readArg length (us ++ rest)) a rest
  | .plain h, us, rest, hus, hrest => by
    have htype := readType_of_spelled h us rest hus hrest
    obtain ⟨start, stop, tail, rfl⟩ := exists_word_of_spelled h hus
    exact readArg_gives_iff.mpr (.inr ⟨not_opens_cons (by simp), _, rfl, htype⟩)
  | .any, us, rest, hus, hrest => by
    obtain ⟨start, stop, vs, rfl, hvs⟩ := exists_token hus
    obtain rfl : vs = [] := List.map_eq_nil_iff.mp hvs
    exact readArg_gives_iff.mpr
      (.inl ⟨start, stop, rest, rfl, .inl ⟨keyword_of_ends hrest, rfl, rfl⟩⟩)
  | .upper h, us, rest, hus, hrest =>
    readArg_of_keyword keyword_extends h (fun vs hvs => readType_of_spelled h vs rest hvs hrest) hus
  | .lower h, us, rest, hus, hrest =>
    readArg_of_keyword keyword_super h (fun vs hvs => readType_of_spelled h vs rest hvs hrest) hus

theorem readArgs_of_spelled {args : List TypeArg} {ls : List Lexeme} :
    TypeArg.SpelledAll args ls → ∀ (us rest : List Token) (start stop : Nat),
      us.map Token.lexeme = ls →
      Gives (readArgs length (us ++ ⟨.mark '>', start, stop⟩ :: rest)) args rest
  | .last h, us, rest, start, stop, hus => by
    have harg := readArg_of_spelled h us (⟨.mark '>', start, stop⟩ :: rest) hus (ends_close _ _ _)
    exact readArgs_gives_iff.mpr ⟨_, _, harg, .inr ⟨start, stop, rfl, rfl⟩⟩
  | .cons h hs, us, rest, start, stop, hus => by
    obtain ⟨as, bs, rfl, has, hbs⟩ := List.map_eq_append_iff.mp hus
    obtain ⟨start', stop', cs, rfl, hcs⟩ := exists_token hbs
    have harg := readArg_of_spelled h as
      (⟨.mark ',', start', stop'⟩ :: (cs ++ ⟨.mark '>', start, stop⟩ :: rest)) has
      (ends_comma _ _ _)
    have hargs := readArgs_of_spelled hs cs rest start stop hcs
    rw [List.append_assoc]
    exact readArgs_gives_iff.mpr ⟨_, _, harg, .inl ⟨start', stop', _, _, rfl, rfl, hargs⟩⟩

end

end Complete

end TypeExpr.Reader

/-! ## Texts -/

namespace TypeExpr

/-- **What is read is what the grammar derives from the tokens.** -/
theorem read_eq_ok_iff {text : String} {t : TypeExpr} :
    TypeExpr.read text = .ok t ↔ t.Spelled ((tokens text).map Token.lexeme) := by
  have hgives : TypeExpr.read text = .ok t ↔
      Reader.Gives (Reader.readType text.length (tokens text)) t [] := by
    unfold TypeExpr.read Reader.readAll
    constructor
    · intro h
      split at h
      · cases h
      · rename_i u hshorter hread
        cases h
        exact ⟨hshorter, hread⟩
      · cases h
    · rintro ⟨hshorter, hread⟩
      rw [hread]
  rw [hgives]
  constructor
  · intro h
    obtain ⟨ls, hls, hlexemes⟩ := Reader.spelled_of_readType _ _ h
    rw [List.map_nil, List.append_nil] at hlexemes
    exact hlexemes ▸ hls
  · intro h
    rw [← List.append_nil (tokens text)]
    exact Reader.readType_of_spelled h (tokens text) [] rfl (by simp [Reader.Ends])

theorem ofText_eq_ok_iff {text : String} {t : TypeExpr} :
    TypeExpr.ofText text = .ok t ↔ t.Spelled ((tokens text).map Token.lexeme) := by
  rw [TypeExpr.ofText, Except.mapError_eq_ok_iff, read_eq_ok_iff]

theorem exists_unreadable {text : String} (h : ∀ t, TypeExpr.ofText text ≠ .ok t) :
    ∃ fault, TypeExpr.ofText text = .error (.unreadableType text fault) := by
  unfold TypeExpr.ofText at h ⊢
  cases hread : TypeExpr.read text with
  | ok t => exact absurd (by rw [hread]; rfl) (h t)
  | error fault => exact ⟨fault, rfl⟩

/-- **The reader accepts exactly its grammar.** Every text is cut into lexemes in exactly one way. A
type is read from the text if and only if the grammar spells it with these lexemes. If it spells
none, and so whenever there is a dot, the text is refused as unreadable. Another text that is cut
into the same lexemes, with blanks in other places, is read in the same way. -/
theorem ofText_grammar (text : String) :
    ∃ ls, (∀ ms, Splits text.toList ms ↔ ms = ls) ∧
      (∀ t, TypeExpr.ofText text = .ok t ↔ t.Spelled ls) ∧
      ((∀ t, ¬ TypeExpr.Spelled t ls) →
        ∃ fault, TypeExpr.ofText text = .error (.unreadableType text fault)) ∧
      (.mark '.' ∈ ls → ∃ fault, TypeExpr.ofText text = .error (.unreadableType text fault)) ∧
      ∀ other : String, Splits other.toList ls →
        ∀ t, TypeExpr.ofText other = .ok t ↔ TypeExpr.ofText text = .ok t := by
  refine ⟨(tokens text).map Token.lexeme, fun ms => splits_iff.trans eq_comm,
    fun t => ofText_eq_ok_iff, fun hnone => ?_, fun hdot => ?_, fun other hother t => ?_⟩
  · exact exists_unreadable fun t ht => hnone t (ofText_eq_ok_iff.mp ht)
  · refine exists_unreadable fun t ht => ?_
    exact absurd ((ofText_eq_ok_iff.mp ht).mem_grammarMarks hdot) (by decide)
  · rw [ofText_eq_ok_iff, ofText_eq_ok_iff, splits_iff.mp hother]

end TypeExpr

end FluentGrammar
