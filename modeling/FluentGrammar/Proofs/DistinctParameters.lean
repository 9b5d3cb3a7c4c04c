import Mathlib.Tactic.IntervalCases
import FluentGrammar.Proofs.PromotedMembers

/-!
# Type parameters that make way

A type parameter of a method that collides with one of the definition the method is made for gets
the first number that is free. The numbers are chosen one by one, and each choice looks at the names
that were there before, not at those chosen for the other parameters. So two parameters can run into
each other: `T` and `T1` both become `T11` where `T` to `T10` are taken. They do so only if one name
is the other with a number, and only where eleven names are taken.

* `exists_toString_front`: a number at the end of another one.
* `RunsInto`, `freshName_eq_iff`: when two names have the same fresh name.
* `Crowded`, `Crowded.length_dedup`: what it takes.
* `RenamedApart`: what becomes of the names of type parameters.
* **`typeParams_renamedApart`**: stubs, members of interfaces and members of classes.
-/

namespace FluentGrammar

/-! ## Names that run into each other -/

/-- What stands before a positive number at the end of another one is a number itself, and the
other one is eleven at least. -/
theorem exists_toString_front {i j : Nat} {front : String} (hj : 0 < j) (hfront : front ≠ "")
    (h : toString i = front ++ toString j) : 11 ≤ i ∧ ∃ n : Nat, front = toString n := by
  have hne : front.toList ≠ [] := by simpa using hfront
  have hdigits : Nat.toDigits 10 i = front.toList ++ Nat.toDigits 10 j := by
    simpa [Nat.toString_eq_repr, Nat.toList_repr] using congrArg String.toList h
  suffices hn : 11 ≤ i ∧ ∃ n, front.toList = Nat.toDigits 10 n by
    obtain ⟨hi, n, hn⟩ := hn
    refine ⟨hi, n, String.toList_inj.mp ?_⟩
    rw [hn, Nat.toString_eq_repr, Nat.toList_repr]
  clear h
  -- Both numbers end with the same digit, which can be taken off until the shorter one is used up.
  induction j using Nat.strongRecOn generalizing i with
  | ind j ih =>
    have hi : 10 ≤ i := by
      by_contra hlt
      rw [Nat.toDigits_of_lt_base (by omega)] at hdigits
      have hlen := congrArg List.length hdigits
      have hfront := List.length_pos_iff.mpr hne
      have hpos : 0 < (Nat.toDigits 10 j).length := Nat.length_toDigits_pos
      simp at hlen
      omega
    rw [Nat.toDigits_of_base_le (by omega) hi] at hdigits
    by_cases hsmall : j < 10
    · rw [Nat.toDigits_of_lt_base hsmall] at hdigits
      obtain ⟨hquot, hlast⟩ := List.append_inj' hdigits rfl
      refine ⟨?_, i / 10, hquot.symm⟩
      by_contra hlt
      obtain rfl : i = 10 := by omega
      interval_cases j <;> simp [Nat.digitChar] at hlast
    · rw [Nat.toDigits_of_base_le (n := j) (by omega) (by omega), ← List.append_assoc] at hdigits
      obtain ⟨hquot, -⟩ := List.append_inj' hdigits rfl
      obtain ⟨hle, hn⟩ := ih (j / 10) (by omega) (by omega) hquot
      exact ⟨by omega, hn⟩

theorem ne_append_toString (name : String) (k : Nat) : name ≠ name ++ toString k := by
  intro he
  have hnil : (toString k).toList = [] := by simpa using congrArg String.toList he
  exact Nat.repr_ne_empty (String.toList_eq_nil_iff.mp hnil)

/-- The name `q` is `p` with a number, and the first free number of `p` is written as this one
followed by the first free number of `q`. -/
def RunsInto (taken : List String) (p q : String) : Prop :=
  ∃ n i j : Nat, q = p ++ toString n ∧ toString i = toString n ++ toString j ∧
    IsFirstFree taken p i ∧ IsFirstFree taken q j

section RunsInto

variable {taken : List String} {p q : String}

theorem RunsInto.ne (h : RunsInto taken p q) : p ≠ q := by
  obtain ⟨n, _, _, rfl, -⟩ := h
  exact ne_append_toString p n

theorem runsInto_of_append {front : String} {i j : Nat} (hi : IsFirstFree taken p i)
    (hj : IsFirstFree taken (p ++ front) j) (hfront : front ≠ "")
    (h : toString i = front ++ toString j) : RunsInto taken p (p ++ front) := by
  obtain ⟨-, n, rfl⟩ := exists_toString_front hj.pos hfront h
  exact ⟨n, i, j, rfl, h, hi, hj⟩

theorem exists_append_of_append_eq {a b c d : String} (h : a ++ b = c ++ d) :
    (∃ e, c = a ++ e ∧ b = e ++ d) ∨ ∃ e, a = c ++ e ∧ d = e ++ b := by
  have hlist : a.toList ++ b.toList = c.toList ++ d.toList := by
    rw [← String.toList_append, h, String.toList_append]
  refine (List.append_eq_append_iff.mp hlist).imp ?_ ?_ <;>
  · rintro ⟨e, hfirst, hsecond⟩
    exact ⟨String.ofList e, String.toList_inj.mp (by simpa using hfirst),
      String.toList_inj.mp (by simpa using hsecond)⟩

/-- **Two names have the same fresh name just if one runs into the other.** -/
theorem freshName_eq_iff (hne : p ≠ q) :
    freshName p taken = freshName q taken ↔ RunsInto taken p q ∨ RunsInto taken q p := by
  obtain ⟨i, hi, hpi⟩ := exists_isFirstFree p taken
  obtain ⟨j, hj, hqj⟩ := exists_isFirstFree q taken
  rw [hpi, hqj]
  constructor
  · intro h
    rcases exists_append_of_append_eq h with ⟨front, rfl, hnum⟩ | ⟨front, rfl, hnum⟩
    · exact .inl (runsInto_of_append hi hj (fun he => hne (by simp [he])) hnum)
    · exact .inr (runsInto_of_append hj hi (fun he => hne (by simp [he])) hnum)
  · rintro (⟨n, i', j', rfl, hnum, hi', hj'⟩ | ⟨n, j', i', rfl, hnum, hj', hi'⟩)
    · rw [hi.eq hi', hj.eq hj', hnum, String.append_assoc]
    · rw [hi.eq hi', hj.eq hj', hnum, String.append_assoc]

/-- A number of two digits is free only if all numbers up to ten are not. -/
theorem RunsInto.mem_taken (h : RunsInto taken p q) {k : Nat} (hpos : 0 < k) (hk : k ≤ 10) :
    p ++ toString k ∈ taken := by
  obtain ⟨n, i, j, -, hnum, hi, hj⟩ := h
  have hle := (exists_toString_front hj.pos Nat.repr_ne_empty hnum).1
  exact hi.first k hpos (by omega)

end RunsInto

/-! ## Names that make way -/

/-- Two of the type parameters `kept`, of a method that declares the names `inner`, collide with
names of `outer`, and one runs into the other when they make way. -/
def Crowded (outer inner kept : List String) : Prop :=
  ∃ p ∈ kept, ∃ q ∈ kept, p ∈ outer ∧ q ∈ outer ∧ RunsInto (outer ++ inner) p q

section Crowded

variable {outer inner kept : List String}

theorem Crowded.length_dedup (h : Crowded outer inner kept) :
    11 ≤ (outer ++ inner).dedup.length := by
  obtain ⟨p, -, q, -, hp, -, hruns⟩ := h
  have hnew : p ∉ numberedNames p 10 := by
    intro hmem
    obtain ⟨k, -, hk⟩ := List.mem_map.mp hmem
    exact ne_append_toString p (k + 1) hk.symm
  have hsub : p :: numberedNames p 10 ⊆ (outer ++ inner).dedup := by
    intro name hname
    rw [List.mem_dedup]
    rcases List.mem_cons.mp hname with rfl | hname
    · exact List.mem_append_left _ hp
    · obtain ⟨k, hk, rfl⟩ := List.mem_map.mp hname
      exact hruns.mem_taken k.succ_pos (List.mem_range.mp hk)
  have hlen := ((List.nodup_cons.mpr ⟨hnew, numberedNames_nodup p 10⟩).subperm hsub).length_le
  simpa [numberedNames] using hlen

theorem nodup_map_uncapturedName_iff (hsub : kept ⊆ inner) (hn : kept.Nodup) :
    (kept.map (Method.uncapturedName outer inner)).Nodup ↔ ¬ Crowded outer inner kept := by
  rw [List.nodup_map_iff_inj_on hn]
  constructor
  · rintro hinj ⟨p, hp, q, hq, hpo, hqo, hruns⟩
    refine hruns.ne (hinj p hp q hq ?_)
    rw [Method.uncapturedName_eq_iff (hsub hp) (hsub hq) hruns.ne]
    exact ⟨hpo, hqo, (freshName_eq_iff hruns.ne).mpr (.inl hruns)⟩
  · intro hfree p hp q hq he
    by_contra hne
    obtain ⟨hpo, hqo, he⟩ := (Method.uncapturedName_eq_iff (hsub hp) (hsub hq) hne).mp he
    rcases (freshName_eq_iff hne).mp he with hruns | hruns
    · exact hfree ⟨p, hp, q, hq, hpo, hqo, hruns⟩
    · exact hfree ⟨q, hq, p, hp, hqo, hpo, hruns⟩

end Crowded

/-- The names `new` are the names `kept` of type parameters of a method that declares `inner`, made
apart from `outer`: those that collide have got their first free numbers. They are different from
one another unless they are crowded, and so wherever there are ten names at most. -/
structure RenamedApart (outer inner kept new : List String) : Prop where
  each : List.Forall₂ (fun old name => if old ∈ outer
    then ∃ k, IsFirstFree (outer ++ inner) old k ∧ name = old ++ toString k
    else name = old) kept new
  apart : ∀ name ∈ new, name ∉ outer
  nodup_iff : new.Nodup ↔ ¬ Crowded outer inner kept
  nodup_of_length : (outer ++ inner).dedup.length ≤ 10 → new.Nodup

theorem renamedApart_map {outer inner kept : List String} (hsub : kept.Sublist inner)
    (hn : inner.Nodup) :
    RenamedApart outer inner kept (kept.map (Method.uncapturedName outer inner)) := by
  have hiff : (kept.map (Method.uncapturedName outer inner)).Nodup ↔ ¬ Crowded outer inner kept :=
    nodup_map_uncapturedName_iff hsub.subset (hsub.nodup hn)
  refine ⟨?_, fun name hname => ?_, hiff, fun hlen => hiff.mpr fun h => ?_⟩
  · rw [List.forall₂_map_right_iff, List.forall₂_same]
    intro old _
    unfold Method.uncapturedName
    split
    · exact exists_isFirstFree old (outer ++ inner)
    · rfl
  · obtain ⟨old, -, rfl⟩ := List.mem_map.mp hname
    exact Method.uncapturedName_not_mem outer inner old
  · have := h.length_dedup
    omega

/-! ## Methods -/

/-- The names of the type parameters that a substitution does not bind. -/
def Method.keptNames (m : Method) (s : Substitution) : List String :=
  m.typeParams.names.filter fun name => !s.isBound name

theorem Method.names_filter (m : Method) (s : Substitution) :
    TypeParams.names (m.typeParams.filter fun p => !s.isBound p.name) = m.keptNames s := by
  simp [keptNames, TypeParams.names, List.filter_map, Function.comp_def]

/-- **Type parameters that make way.** Whether a method is inherited by a definition, becomes a
member of an interface or a member of a class: its type parameters, less those that the receiver
accounts for, are apart from those of the definition. They are different from one another just if
they are not crowded. -/
theorem typeParams_renamedApart (r : Registry) (d : Definition) (m : Method)
    (hn : m.typeParams.names.Nodup) :
    (∀ b, r.overrideFor d m = .ok b →
      RenamedApart d.typeParams.names m.typeParams.names m.typeParams.names b.typeParams.names) ∧
    (∀ (receiver : TypeExpr) (utility : String) (member : Method),
      interfaceMember? d m receiver utility = .ok (some member) →
      ∃ bindings s, d.typeParams.infer d.selfType receiver = .ok bindings ∧
        receiverRenaming? m.typeParams.names (.unresolved m.typeParams.names) bindings.ordinary =
          some s ∧
        RenamedApart d.typeParams.names m.typeParams.names (m.keptNames s)
          member.typeParams.names) ∧
    ∀ (c : Candidate) (utility : String) (member : Method), c.method = m →
      materialize d c utility = .ok member →
      RenamedApart d.typeParams.names m.typeParams.names (m.keptNames c.bindings)
        member.typeParams.names := by
  refine ⟨fun b h => ?_, fun receiver utility member h => ?_, fun c utility member hc h => ?_⟩
  · obtain ⟨ancestor, -, hstub⟩ := Except.bind_eq_ok_iff.mp h
    rw [(Method.stub_eq_ok hstub).1.typeParams]
    exact renamedApart_map (List.Sublist.refl _) hn
  · obtain ⟨bindings, s, hinfer, hs, hmember⟩ := Method.memberUnder_of_interfaceMember? h
    have hnames := (Method.becomesMember_of_memberUnder hinfer hs hmember).typeParams
    have hkept : (m.openUnder s).names = m.keptNames s := by
      rw [Method.openUnder, TypeParams.distinct_eq_self, Method.names_filter]
      rw [Method.names_filter]
      exact hn.filter _
    refine ⟨bindings, s, hinfer, hs, ?_⟩
    rw [hnames, hkept]
    exact renamedApart_map List.filter_sublist hn
  · obtain ⟨-, -, -, hnames, -⟩ := parts_of_materialize h
    rw [hnames, Candidate.openParams, Method.names_filter, hc]
    exact renamedApart_map List.filter_sublist hn

/-! ## Wide definitions -/

/-- The method `<T, T1> void f(T a, T1 b)` of `Base`, with the given parameters before these. -/
def pairMethod (receiver : List Param) : Method :=
  { Method.make (Definition.interface "Base").owner "f" .void
      (receiver ++ [{ type := .named "T", name := "a" }, { type := .named "T1", name := "b" }]) with
    typeParams := .ofNames ["T", "T1"] }

/-- The interface `Wide`, which extends `Base`, with the given type parameters. -/
def wideInterface (names : List String) : Definition :=
  { Definition.make "Wide" (.interface [.named "Base"] none) with typeParams := .ofNames names }

/-- The class `Wide`, which implements `Base`, with the given type parameters. -/
def wideClass (names : List String) : Definition :=
  { Definition.make "Wide" (.namedClass none [.named "Base"] ∅) with typeParams := .ofNames names }

/-- The registry with the interface `Base`. -/
def baseModel : Registry :=
  (Registry.empty "Forms").after [.define (Definition.interface "Base")]

/-- The explicit method whose receiver is of type `Base`, as a candidate for the class. -/
def pairCandidate : Candidate :=
  ⟨pairMethod [{ type := .named "Base", name := "self" }], .named "Base", .unresolved ["T", "T1"]⟩

/-- With two type parameters both make way, unless the receiver accounts for one of them. -/
theorem typeParams_renamedApart_wide :
    (∃ b, baseModel.overrideFor (wideInterface ["T", "T1"]) (pairMethod []) = .ok b ∧
      b.typeParams.names = ["T2", "T11"] ∧
      RenamedApart ["T", "T1"] ["T", "T1"] ["T", "T1"] b.typeParams.names) ∧
    (∃ receiver m member, receiver = TypeExpr.generic "Wide" [.plain (.named "T1"), .any] ∧
      m = pairMethod [{ type := receiver, name := "self" }] ∧
      interfaceMember? (wideInterface ["T", "T1"]) m receiver "Forms" = .ok (some member) ∧
      member.typeParams.names = ["T2"] ∧
      ∃ s, RenamedApart ["T", "T1"] ["T", "T1"] (m.keptNames s) member.typeParams.names) ∧
    ∃ member, materialize (wideClass ["T", "T1"]) pairCandidate "Forms" = .ok member ∧
      member.typeParams.names = ["T2", "T11"] ∧
      RenamedApart ["T", "T1"] ["T", "T1"] ["T", "T1"] member.typeParams.names := by
  have hn : ∀ receiver, (pairMethod receiver).typeParams.names.Nodup := by
    intro receiver
    show (TypeParams.ofNames ["T", "T1"]).names.Nodup
    decide
  refine ⟨?_, ?_, ?_⟩
  · obtain ⟨b, hb, hnames⟩ := Except.exists_of_any
      (p := fun b => b.typeParams.names = ["T2", "T11"])
      (show (baseModel.overrideFor (wideInterface ["T", "T1"])
        (pairMethod [])).toOption.any _ = true by decide +kernel)
    have hstub := (typeParams_renamedApart baseModel (wideInterface ["T", "T1"]) _ (hn [])).1
    exact ⟨b, hb, of_decide_eq_true hnames, hstub b hb⟩
  · let receiver := TypeExpr.generic "Wide" [.plain (.named "T1"), .any]
    let m := pairMethod [{ type := receiver, name := "self" }]
    obtain ⟨o, ho, hany⟩ := Except.exists_of_any
      (p := fun o => o.any fun member => member.typeParams.names = ["T2"])
      (show (interfaceMember? (wideInterface ["T", "T1"]) m receiver "Forms").toOption.any _ = true
        by decide +kernel)
    obtain ⟨member, rfl, hnames⟩ := (Option.any_eq_true _ _).mp hany
    have hmember := (typeParams_renamedApart baseModel (wideInterface ["T", "T1"]) m (hn _)).2.1
    obtain ⟨-, s, -, -, hs⟩ := hmember receiver "Forms" member ho
    exact ⟨receiver, m, member, rfl, rfl, ho, of_decide_eq_true hnames, s, hs⟩
  · obtain ⟨member, hm, hnames⟩ := Except.exists_of_any
      (p := fun member => member.typeParams.names = ["T2", "T11"])
      (show (materialize (wideClass ["T", "T1"]) pairCandidate "Forms").toOption.any _ = true
        by decide +kernel)
    refine ⟨member, hm, of_decide_eq_true hnames, ?_⟩
    exact (typeParams_renamedApart baseModel _ _ (hn _)).2.2 pairCandidate "Forms" member rfl hm

/-- **Different type parameters become the same.** Where `T` and `T1` to `T10` are taken, `T` and
`T1` are both renamed to `T11`. -/
theorem typeParams_renamed_alike :
    (pairMethod []).typeParams.names = ["T", "T1"] ∧
    (baseModel.overrideFor (wideInterface ("T" :: numberedNames "T" 10))
      (pairMethod [])).toOption.map (fun b => b.typeParams.names) = some ["T11", "T11"] ∧
    (∃ receiver, receiver = TypeExpr.generic "Wide" (List.replicate 11 .any) ∧
      (interfaceMember? (wideInterface ("T" :: numberedNames "T" 10))
        (pairMethod [{ type := receiver, name := "self" }]) receiver "Forms").toOption.map
        (fun o => o.map fun member => member.typeParams.names) = some (some ["T11", "T11"])) ∧
    ((candidate? [.named "Base"] pairCandidate.method).bind fun c =>
      (materialize (wideClass ("T" :: numberedNames "T" 10)) c "Forms").toOption.map
        fun member => member.typeParams.names) = some ["T11", "T11"] := by
  refine ⟨rfl, by decide +kernel, ⟨_, rfl, by decide +kernel⟩, by decide +kernel⟩

end FluentGrammar
