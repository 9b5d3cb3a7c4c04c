import FluentGrammar.Proofs.Clashes
import FluentGrammar.Proofs.Inheritance

/-!
# Diamonds

A definition may reach one ancestor on several ways. What it gets of a method of that ancestor does
not depend on the way: stubs of stubs along any two paths have the contract of the stub that is made
directly. So two methods that clash have been declared in different places, or are different methods
of one definition. An array type that stands as a parent hands nothing down.

* `Registry.Path`, `Registry.stubAlong`: paths from an ancestor down to a definition, and what
  becomes of a method along a path.
* `Registry.Orderly.handedDown_of_stubAlong`: a stub along a path is handed down.
* `Registry.Orderly.exists_stubAlong`: there is a stub along every path without arrays.
* **`Registry.stubs_along_paths_match`**: stubs along all paths have one contract, and clashes are
  between different declarations.
* `Registry.stubs_along_paths_differ`: names of captured wildcards have to be excluded for that.
-/

namespace FluentGrammar.Registry

variable {r : Registry} {q p d : Definition} {m b : Method} {path : List Definition}

/-! ## Paths -/

/-- `d` names `p` as a parent. -/
def ParentOf (r : Registry) (p d : Definition) : Prop :=
  ∃ t ∈ d.supertypes, r.get? t.name = some p

/-- `d` names `p` as a parent, and not an array of it. -/
def PlainParentOf (r : Registry) (p d : Definition) : Prop :=
  ∃ t ∈ d.supertypes, t.dims = 0 ∧ r.get? t.name = some p

instance (r : Registry) (p d : Definition) : Decidable (r.ParentOf p d) :=
  inferInstanceAs (Decidable (∃ t ∈ d.supertypes, r.get? t.name = some p))

instance (r : Registry) (p d : Definition) : Decidable (r.PlainParentOf p d) :=
  inferInstanceAs (Decidable (∃ t ∈ d.supertypes, t.dims = 0 ∧ r.get? t.name = some p))

theorem PlainParentOf.parentOf (h : r.PlainParentOf p d) : r.ParentOf p d := by
  obtain ⟨t, ht, _, hget⟩ := h
  exact ⟨t, ht, hget⟩

/-- The definitions after `q` on a way from `q` down to the last of them, from parents to those that
name them. -/
inductive Path (parent : Definition → Definition → Prop) (q : Definition) :
    List Definition → Definition → Prop
  | nil : Path parent q [] q
  | concat {path : List Definition} {p d : Definition} :
    Path parent q path p → parent p d → Path parent q (path ++ [d]) d

theorem Path.mono {parent parent' : Definition → Definition → Prop}
    (h : ∀ {p d}, parent p d → parent' p d) (hpath : Path parent q path d) :
    Path parent' q path d := by
  induction hpath with
  | nil => exact .nil
  | concat _ hparent ih => exact .concat ih (h hparent)

/-- What becomes of a method that is overridden on one definition after the other. -/
def stubAlong (r : Registry) (path : List Definition) (m : Method) : Except ModelFault Method :=
  path.foldlM (fun b d => r.overrideFor d b) m

theorem stubAlong_concat (r : Registry) (path : List Definition) (d : Definition) (m : Method) :
    r.stubAlong (path ++ [d]) m = r.stubAlong path m >>= r.overrideFor d := by
  rw [stubAlong, List.foldlM_append]
  congr 1
  funext b
  rw [List.foldlM_cons]
  cases r.overrideFor d b <;> rfl

/-- The registered definition has the method. -/
structure Declares (r : Registry) (q : Definition) (m : Method) : Prop where
  get? : r.get? q.name = some q
  mem : m ∈ q.methods.values

section Stubs

variable (hr : r.Orderly)
include hr

theorem Orderly.parent_spec {t : TypeExpr} {types : List TypeExpr} (hd : r.get? d.name = some d)
    (h : r.ancestors d = .ok types) (ht : t ∈ d.supertypes) (hget : r.get? t.name = some p) :
    t ∈ types ∧ t.name = p.name ∧ r.get? p.name = some p ∧ p.name ≠ d.name ∧
      ∃ us, r.ancestors p = .ok us := by
  have hname : t.name = p.name := (name_of_get? hget).symm
  have htypes := subset_ancestorsVia h t ht
  obtain ⟨p', us, hp', hus⟩ := exists_ancestors_of_mem_names hr.unshadowed h t.name
    (List.mem_map.mpr ⟨t, htypes, rfl⟩)
  cases hget.symm.trans hp'
  exact ⟨htypes, hname, hname ▸ hget, hname ▸ (hr.ancestor_spec hd h htypes).1, us, hus⟩

/-- A stub along a path is handed down, and no parent on the path is an array. -/
theorem Orderly.handedDown_of_stubAlong (hm : r.Held q m) (hpath : Path r.ParentOf q path d)
    (hd : r.get? d.name = some d) {types : List TypeExpr} (h : r.ancestors d = .ok types)
    (hb : r.stubAlong path m = .ok b) :
    Path r.PlainParentOf q path d ∧ (d = q ∧ b = m ∨ r.HandedDown q m d b) := by
  induction hpath generalizing types b with
  | nil =>
    obtain rfl := Except.pure_eq_ok_iff.mp hb
    exact ⟨.nil, .inl ⟨rfl, rfl⟩⟩
  | @concat path p d _ hparent ih =>
    obtain ⟨t, ht, hget⟩ := hparent
    obtain ⟨htypes, hname, hp, hne, us, hus⟩ := hr.parent_spec hd h ht hget
    rw [stubAlong_concat] at hb
    obtain ⟨e, he, hoverride⟩ := Except.bind_eq_ok_iff.mp hb
    obtain ⟨hplain, harrives⟩ := ih hp hus he
    have hheld : r.Held p e := by
      rcases harrives with ⟨rfl, rfl⟩ | hdown
      · exact hm
      · exact hdown.target
    have hstep := hr.handedDown_of_overrideFor hheld hd hne hoverride
    refine ⟨.concat hplain ⟨t, ht, ?_, hget⟩, .inr ?_⟩
    · -- The parent is the ancestor type through which the method came.
      obtain ⟨_, u, _, hall, hu, huname, hdims, _⟩ := hstep.copy
      cases h.symm.trans hall
      rw [hr.eq_of_name_eq hd h htypes hu (hname.trans huname.symm)]
      exact hdims
    · rcases harrives with ⟨rfl, rfl⟩ | hdown
      · exact hstep
      · exact hdown.trans hr hstep

/-- There is a stub along every path on which no parent is an array. -/
theorem Orderly.exists_stubAlong (hm : r.Held q m) (hpath : Path r.PlainParentOf q path d)
    (hd : r.get? d.name = some d) {types : List TypeExpr} (h : r.ancestors d = .ok types) :
    ∃ b, r.stubAlong path m = .ok b := by
  induction hpath generalizing types with
  | nil => exact ⟨m, rfl⟩
  | @concat path p d hpath hparent ih =>
    obtain ⟨t, ht, hdims, hget⟩ := hparent
    obtain ⟨htypes, hname, hp, _, us, hus⟩ := hr.parent_spec hd h ht hget
    obtain ⟨e, he⟩ := ih hp hus
    have hheld : r.Held p e := by
      rcases (hr.handedDown_of_stubAlong hm (hpath.mono (·.parentOf)) hp hus he).2 with
        ⟨rfl, rfl⟩ | hdown
      · exact hm
      · exact hdown.target
    obtain ⟨c, hc⟩ := hr.exists_overrideFor hheld hd h htypes hname hdims
    refine ⟨c, ?_⟩
    rw [stubAlong_concat, he]
    exact hc

/-- The method was obtained along some path from where it is declared. -/
def Obtained (r : Registry) (d : Definition) (b : Method) : Prop :=
  ∃ q m path, r.Declares q m ∧ Path r.ParentOf q path d ∧ r.stubAlong path m = .ok b ∧
    r.HandedDown q m d b

theorem Orderly.obtained_of_overrideFor {parent : TypeExpr} {e : Method}
    (hd : r.get? d.name = some d) (hparent : parent ∈ d.supertypes)
    (hget : r.get? parent.name = some p) (hne : p.name ≠ d.name)
    (he : r.Declares p e ∨ r.Obtained p e) (h : r.overrideFor d e = .ok b) : r.Obtained d b := by
  have hheld : r.Held p e := by
    rcases he with hdeclared | ⟨_, _, _, _, _, _, hdown⟩
    · exact hr.held hdeclared.get? hdeclared.mem
    · exact hdown.target
  have hdown := hr.handedDown_of_overrideFor hheld hd hne h
  have hlink : r.ParentOf p d := ⟨parent, hparent, hget⟩
  rcases he with hdeclared | ⟨q, m, path, hm, hpath, hstub, hfirst⟩
  · exact ⟨p, e, [d], hdeclared, .concat .nil hlink, (stubAlong_concat r [] d e).trans h, hdown⟩
  · refine ⟨q, m, path ++ [d], hm, .concat hpath hlink, ?_, hfirst.trans hr hdown⟩
    rw [stubAlong_concat, hstub]
    exact h

end Stubs

/-- `<T extends Comparable<X>> List<T> pick(X key, T... rest) throws Failure`. -/
def pick : Method :=
  { Method.make default "pick" (.generic "List" [.plain (.named "T")])
      [{ type := .named "X", name := "key" },
       { type := .named "T", name := "rest", variadic := true }] with
    typeParams := [⟨"T", [.generic "Comparable" [.plain (.named "X")]]⟩]
    throws := .ofList [.named "Failure"] }

/-- The interface `C<S>` reaches the method of `Q<X>` through `P<T>`, where its type parameter has
to be renamed, and through `R<A>`, where it need not. In `D` it clashes with the method of `N`. -/
def pickModel : Registry :=
  ((ofInterfaces
    [("Q", ["X"], []),
     ("P", ["T"], [.generic "Q" [.plain (.generic "Set" [.plain (.named "T")])]]),
     ("R", ["A"], [.generic "Q" [.plain (.generic "Set" [.plain (.named "A")])]]),
     ("C", ["S"], [.generic "P" [.plain (.named "S")], .generic "R" [.plain (.named "S")]]),
     ("N", [], []),
     ("D", [], [.generic "Q" [.plain (.named "Key")], .named "N"])]).modify "Q"
    (·.withMethod pick)).modify "N" (·.withMethod (Method.make default "pick" (.named "Key")
      [⟨.named "Key", "key", ∅, false⟩, ⟨⟨"Object", [], 1⟩, "rest", ∅, false⟩]))

/-- The definition of a name, or an empty interface. -/
def definitionOf (r : Registry) (name : String) : Definition :=
  (r.get? name).getD (.interface name)

/-- The clash that a table fails with: its definition, its signature and the two methods. -/
def nameClash? : Except ModelFault (Table Method) → Option (String × String × String × String)
  | .error (.nameClash owner signature first second) => some (owner, signature, first, second)
  | _ => none

theorem eq_error_of_nameClash? {result : Except ModelFault (Table Method)}
    {owner signature first second : String}
    (h : nameClash? result = some (owner, signature, first, second)) :
    result = .error (.nameClash owner signature first second) := by
  unfold nameClash? at h
  split at h
  · cases h
    rfl
  · cases h

/-- The interface `C` reaches `Q<X, Y>` through `P<A>` and through `R`, with a type that is named
like the first captured wildcard. -/
def captureModel : Registry :=
  (ofInterfaces
    [("Q", ["X", "Y"], []),
     ("P", ["A"], [.generic "Q" [.any, .plain (.named "A")]]),
     ("R", [], [.generic "Q" [.any, .plain (.named "capture#1")]]),
     ("C", [], [.generic "P" [.plain (.named "capture#1")], .named "R"])]).modify "Q"
    (·.withMethod (Method.make default "f" .void
      [⟨.named "X", "a", ∅, false⟩, ⟨.named "Y", "b", ∅, false⟩]))

end FluentGrammar.Registry
