import Mathlib.Order.Bounds.Defs
import FluentGrammar.Proofs.Hierarchy
import FluentGrammar.Proofs.Replacement

/-!
# Ancestors as a closure

The ancestors of a definition are found parent by parent, and each level is rewritten as a whole for
the level below. Where type parameters are in scope and parents have all their arguments, this gives
the same types as the plain closure: from every type go to the parents of its definition, written
with the arguments of that type.

* `Registry.Scoped`: type parameters are used where they are in scope and name nothing else.
* `Definition.parentAt`: a parent of a definition, written with the arguments of a use.
* `Registry.Scoped.mem_throughParent`: what comes through one parent.
* `Registry.inFrame_of_ancestorsVia`: ancestors mention only type parameters of the definition.
* `Registry.closed_of_ancestorsVia`: with a type they contain all parents of its definition.
* `Registry.mem_of_ancestorsVia`: they are in every set that is closed in this way.
* **`Registry.ancestors_isLeast`**: the ancestors are the least such set.
-/

namespace FluentGrammar

/-! ## Scopes -/

/-- Of all type parameters, the type mentions at most those of the given names. -/
def TypeExpr.InFrame (isParam : String → Prop) (names : List String) (t : TypeExpr) : Prop :=
  ∀ name, t.mentions name = true → isParam name → name ∈ names

/-- A parent of the definition, written with the arguments of a use of the definition. -/
def Definition.parentAt (d : Definition) (args : List TypeArg) (parent : TypeExpr) :
    Except ModelFault TypeExpr := do
  parent.replace (← d.typeParams.bind d.name args)

namespace Registry

variable {r : Registry} {isParam : String → Prop} {context : String} {trail : List String}

/-- The names that are type parameters are in scope in all parents, and they are neither names of
definitions nor reserved. -/
structure Scoped (isParam : String → Prop) (r : Registry) : Prop where
  params : ∀ d ∈ r.definitions ++ r.anonymous, ∀ name ∈ d.typeParams.names, isParam name
  supertypes : ∀ d ∈ r.definitions ++ r.anonymous, ∀ t ∈ d.supertypes,
    t.InFrame isParam d.typeParams.names
  concrete : ∀ d ∈ r.definitions ++ r.anonymous, ¬ isParam d.name
  top : ¬ isParam TypeExpr.topName
  uncaptured : ∀ name, isParam name → isCapture name = false

/-- The type has arguments if its definition has parameters. -/
def NotRaw (r : Registry) (t : TypeExpr) : Prop :=
  ∀ d, r.get? t.name = some d → d.typeParams ≠ [] → t.args ≠ []

/-- No parent lacks its arguments. -/
def Applied (r : Registry) : Prop :=
  ∀ d ∈ r.definitions ++ r.anonymous, ∀ t ∈ d.supertypes, r.NotRaw t

/-- With a type the set contains all parents of its definition, written with its arguments. -/
def ClosedUp (r : Registry) (S : Set TypeExpr) : Prop :=
  ∀ t ∈ S, ∀ d, r.get? t.name = some d → ∀ parent ∈ d.supertypes, ∀ u,
    d.parentAt t.args parent = .ok u → u ∈ S

/-! ## One parent -/

theorem mem_append_filter {ts us : List TypeExpr} {t : TypeExpr} :
    t ∈ ts ++ us.filter (· ∉ ts) ↔ t ∈ ts ∨ t ∈ us := by
  by_cases ht : t ∈ ts <;> simp [ht]

theorem mem_cons_firstOccurrences {ts : List TypeExpr} {t u : TypeExpr} :
    t ∈ u :: (firstOccurrences ts).filter (· ≠ u) ↔ t = u ∨ t ∈ ts := by
  by_cases ht : t = u <;> simp [ht, mem_firstOccurrences]

theorem mapM_replace_eq_ok_iff {ps : TypeParams} {owner : String} {args : List TypeArg}
    {s : Substitution} (hs : ps.bind owner args = .ok s) {types us : List TypeExpr} :
    types.mapM (TypeExpr.replace s) = .ok us ↔
      (∀ t ∈ types, ∀ name ∈ t.applied, name ∉ ps.names) ∧ types.map (·.subst s.value) = us := by
  have hok : ∀ t u : TypeExpr, t.replace s = .ok u ↔
      (∀ name ∈ t.applied, name ∉ ps.names) ∧ t.subst s.value = u := by
    intro t u
    rw [TypeExpr.replace_eq_ok_iff]
    simp only [Substitution.contains_of_bind hs, decide_eq_false_iff_not]
  constructor
  · intro h
    have happlied : ∀ t ∈ types, ∀ name ∈ t.applied, name ∉ ps.names := by
      intro t ht
      obtain ⟨u, _, hu⟩ := exists_right_of_forall₂ (Except.mapM_eq_ok_iff.mp h) t ht
      exact ((hok t u).mp hu).1
    have hmap := Except.mapM_eq_ok_map fun t ht => (hok t _).mpr ⟨happlied t ht, rfl⟩
    exact ⟨happlied, Except.ok.inj (hmap.symm.trans h)⟩
  · rintro ⟨happlied, rfl⟩
    exact Except.mapM_eq_ok_map fun t ht => (hok t _).mpr ⟨happlied t ht, rfl⟩

/-- Through a parent come the parent and what its definition inherits, replaced as the arguments
say and without repeats, if no parameter of the definition is applied there. -/
theorem throughParent_eq_ok_iff_subst {parent : TypeExpr} {d : Definition}
    {inherited ts : List TypeExpr} (hn : inherited.Nodup) :
    throughParent parent d inherited = .ok ts ↔ ∃ s,
      d.typeParams.bind d.name parent.args = .ok s ∧
      (∀ t ∈ inherited, ∀ name ∈ t.applied, name ∉ d.typeParams.names) ∧
      ts = parent :: (firstOccurrences (inherited.map (·.subst s.value))).filter (· ≠ parent) := by
  rw [throughParent_eq_ok_iff]
  constructor
  · rintro ⟨s, us, hs, hus, rfl⟩
    rw [replaceDistinct_eq hs hn] at hus
    obtain ⟨vs, hvs, rfl⟩ := Except.map_eq_ok_iff.mp hus
    obtain ⟨happlied, rfl⟩ := (mapM_replace_eq_ok_iff hs).mp hvs
    exact ⟨s, hs, happlied, rfl⟩
  · rintro ⟨s, hs, happlied, rfl⟩
    refine ⟨s, _, hs, ?_, rfl⟩
    rw [replaceDistinct_eq hs hn, (mapM_replace_eq_ok_iff hs).mpr ⟨happlied, rfl⟩]
    rfl

section Frames

variable (hs : r.Scoped isParam)
include hs

theorem Scoped.not_isParam_of_get? {name : String} {d : Definition} (hd : r.get? name = some d) :
    ¬ isParam name :=
  name_of_get? hd ▸ hs.concrete d (List.mem_of_find?_eq_some hd)

theorem Scoped.value_of_bind {name : String} {d : Definition} (hd : r.get? name = some d)
    {args : List TypeArg} {s : Substitution} (h : d.typeParams.bind d.name args = .ok s) :
    s.value = bound d.typeParams.names args :=
  Substitution.value_of_bind h fun n hn =>
    hs.uncaptured n (hs.params d (List.mem_of_find?_eq_some hd) n hn)

theorem Scoped.bound_eq_none {name n : String} {d : Definition} (hd : r.get? name = some d)
    (args : List TypeArg) (hn : ¬ isParam n) : bound d.typeParams.names args n = none :=
  bound_eq_none_of_not_mem fun hm => hn (hs.params d (List.mem_of_find?_eq_some hd) n hm)

/-- **What comes through one parent**: the parent, and the ancestors of its definition written with
its arguments. -/
theorem Scoped.mem_throughParent {parent : TypeExpr} {d : Definition} {inherited ts : List TypeExpr}
    (hd : r.get? parent.name = some d) (hraw : r.NotRaw parent)
    (hi : r.ancestors d = .ok inherited) (h : throughParent parent d inherited = .ok ts) :
    parent.args.length = d.typeParams.names.length ∧
      (∃ s, d.typeParams.bind d.name parent.args = .ok s) ∧
      (∀ t ∈ inherited, ∀ name ∈ t.applied, name ∉ d.typeParams.names) ∧
      ∀ u, u ∈ ts ↔ u = parent ∨
        ∃ t ∈ inherited, t.subst (bound d.typeParams.names parent.args) = u := by
  obtain ⟨s, hbind, happlied, rfl⟩ := (throughParent_eq_ok_iff_subst (nodup_ancestorsVia hi)).mp h
  refine ⟨?_, ⟨s, hbind⟩, happlied, fun u => ?_⟩
  · rw [TypeParams.names, List.length_map]
    exact TypeParams.length_of_bind hbind (hraw d hd)
  rw [mem_cons_firstOccurrences, hs.value_of_bind hd hbind, List.mem_map]

end Frames

/-! ## All parents -/

section Closure

variable (hs : r.Scoped isParam) (hraw : r.Applied)
include hs hraw

theorem inFrame_of_ancestorsVia {parents types : List TypeExpr} {names : List String}
    (h : r.ancestorsVia context trail parents = .ok types) (hparents : ∀ t ∈ parents, r.NotRaw t)
    (hframe : ∀ t ∈ parents, t.InFrame isParam names) : ∀ t ∈ types, t.InFrame isParam names := by
  revert hparents names
  refine ancestorsVia_induction (motive := fun _ parents types => ∀ {names : List String},
    (∀ t ∈ parents, r.NotRaw t) → (∀ t ∈ parents, t.InFrame isParam names) →
      ∀ t ∈ types, t.InFrame isParam names) (by simp) ?_ h
  intro trail parent rest d inherited ts others hd _ hi ht ih₁ ih₂ names hparents hframe t htypes
  obtain ⟨hparent, hrest⟩ := List.forall_mem_cons.mp hparents
  obtain ⟨hframe, hframes⟩ := List.forall_mem_cons.mp hframe
  rcases mem_append_filter.mp htypes with hm | hm
  · have hmem : d ∈ r.definitions ++ r.anonymous := List.mem_of_find?_eq_some hd
    obtain ⟨hlen, _, _, hts⟩ := hs.mem_throughParent hd hparent hi ht
    rcases (hts t).mp hm with rfl | ⟨u, hu, rfl⟩
    · exact hframe
    intro name hn hp
    -- A parameter of the parent's definition is bound, so only its arguments are left.
    rcases TypeExpr.mentions_subst u hn with ⟨hmentions, hnone⟩ | ⟨x, arg, _, harg, hmentions⟩ | htop
    · have hin := ih₁ (hraw d hmem) (hs.supertypes d hmem) u hu name hmentions hp
      obtain ⟨arg, harg⟩ := exists_bound hlen hin
      rw [hnone] at harg
      cases harg
    · exact hframe name (TypeExpr.mentions_of_mem_args (mem_of_bound harg).2 hmentions) hp
    · exact absurd (htop ▸ hp) hs.top
  · exact ih₂ hrest hframes t hm

theorem registered_of_ancestorsVia {parents types : List TypeExpr}
    (h : r.ancestorsVia context trail parents = .ok types) (hparents : ∀ t ∈ parents, r.NotRaw t) :
    ∀ t ∈ types, ∃ d, r.get? t.name = some d ∧ t.args.length = d.typeParams.names.length := by
  revert hparents
  refine ancestorsVia_induction (motive := fun _ parents types => (∀ t ∈ parents, r.NotRaw t) →
    ∀ t ∈ types, ∃ d, r.get? t.name = some d ∧ t.args.length = d.typeParams.names.length)
    (by simp) ?_ h
  intro trail parent rest d inherited ts others hd _ hi ht ih₁ ih₂ hparents t htypes
  obtain ⟨hparent, hrest⟩ := List.forall_mem_cons.mp hparents
  rcases mem_append_filter.mp htypes with hm | hm
  · obtain ⟨hlen, _, _, hts⟩ := hs.mem_throughParent hd hparent hi ht
    rcases (hts t).mp hm with rfl | ⟨u, hu, rfl⟩
    · exact ⟨d, hd, hlen⟩
    · obtain ⟨e, he, hargs⟩ := ih₁ (hraw d (List.mem_of_find?_eq_some hd)) u hu
      rw [TypeExpr.subst_of_none (hs.bound_eq_none hd _ (hs.not_isParam_of_get? he))]
      exact ⟨e, he, by rw [List.length_map, hargs]⟩
  · exact ih₂ hrest t hm

omit hs hraw in
theorem subset_ancestorsVia {parents types : List TypeExpr}
    (h : r.ancestorsVia context trail parents = .ok types) : ∀ t ∈ parents, t ∈ types := by
  refine ancestorsVia_induction (motive := fun _ parents types => ∀ t ∈ parents, t ∈ types)
    (by simp) ?_ h
  intro trail parent rest d inherited ts others _ _ _ ht _ ih t hm
  rw [mem_append_filter]
  rcases List.mem_cons.mp hm with rfl | hm
  · obtain ⟨_, _, _, _, rfl⟩ := throughParent_eq_ok_iff.mp ht
    exact .inl List.mem_cons_self
  · exact .inr (ih t hm)

omit hraw in
theorem Scoped.parentAt_eq_ok_iff {name : String} {d : Definition} (hd : r.get? name = some d)
    {args : List TypeArg} (hlen : args.length = d.typeParams.names.length) {parent u : TypeExpr} :
    d.parentAt args parent = .ok u ↔ (∀ n ∈ parent.applied, n ∉ d.typeParams.names) ∧
      parent.subst (bound d.typeParams.names args) = u := by
  rw [TypeParams.names, List.length_map] at hlen
  obtain ⟨s, hbind⟩ := TypeParams.exists_bind d.name hlen
  have hparent : d.parentAt args parent = parent.replace s := by
    rw [Definition.parentAt, hbind]
    rfl
  rw [hparent, TypeExpr.replace_eq_ok_iff, hs.value_of_bind hd hbind]
  simp only [Substitution.contains_of_bind hbind, decide_eq_false_iff_not]

omit hraw in
/-- **Replacement keeps the step to a parent.** A type and a parent of its definition may be
rewritten for another definition, or the type first and then the parent found. -/
theorem Scoped.parentAt_subst {name : String} {d e : Definition} (hd : r.get? name = some d)
    {t parent u : TypeExpr} (he : r.get? t.name = some e)
    (hlen : t.args.length = e.typeParams.names.length) (hparent : parent ∈ e.supertypes)
    (h : e.parentAt t.args parent = .ok u) (args : List TypeArg) :
    e.parentAt (t.subst (bound d.typeParams.names args)).args parent =
      .ok (u.subst (bound d.typeParams.names args)) := by
  obtain ⟨happlied, rfl⟩ := (hs.parentAt_eq_ok_iff he hlen).mp h
  have hnone := hs.bound_eq_none hd args (hs.not_isParam_of_get? he)
  rw [TypeExpr.subst_of_none hnone]
  refine (hs.parentAt_eq_ok_iff he (by rwa [List.length_map])).mpr ⟨happlied, ?_⟩
  refine (TypeExpr.subst_bound_subst (hs.bound_eq_none hd args hs.top) happlied hlen ?_).symm
  intro n hn hne
  refine hs.bound_eq_none hd args fun hp => hne ?_
  exact hs.supertypes e (List.mem_of_find?_eq_some he) parent hparent n hn hp

/-- With a type the ancestors contain all parents of its definition, written with its arguments. -/
theorem closed_of_ancestorsVia {parents types : List TypeExpr}
    (h : r.ancestorsVia context trail parents = .ok types) (hparents : ∀ t ∈ parents, r.NotRaw t) :
    ∀ t ∈ types, ∀ d, r.get? t.name = some d → ∀ parent ∈ d.supertypes,
      ∃ u ∈ types, d.parentAt t.args parent = .ok u := by
  revert hparents
  refine ancestorsVia_induction (motive := fun _ parents types => (∀ t ∈ parents, r.NotRaw t) →
    ∀ t ∈ types, ∀ d, r.get? t.name = some d → ∀ parent ∈ d.supertypes,
      ∃ u ∈ types, d.parentAt t.args parent = .ok u) (by simp) ?_ h
  intro trail parent rest d inherited ts others hd _ hi ht ih₁ ih₂ hparents t htypes e he p hp
  obtain ⟨hparent, hrest⟩ := List.forall_mem_cons.mp hparents
  have hraw' := hraw d (List.mem_of_find?_eq_some hd)
  rcases mem_append_filter.mp htypes with hm | hm
  · obtain ⟨hlen, _, happlied, hts⟩ := hs.mem_throughParent hd hparent hi ht
    rcases (hts t).mp hm with rfl | ⟨t, ht, rfl⟩
    · cases hd.symm.trans he
      have hinherited := subset_ancestorsVia hi p hp
      refine ⟨_, mem_append_filter.mpr (.inl ((hts _).mpr (.inr ⟨p, hinherited, rfl⟩))), ?_⟩
      exact (hs.parentAt_eq_ok_iff hd hlen).mpr ⟨happlied p hinherited, rfl⟩
    · obtain ⟨f, hf, hargs⟩ := registered_of_ancestorsVia hs hraw hi hraw' t ht
      have hname := TypeExpr.subst_of_none (t := t)
        (hs.bound_eq_none hd parent.args (hs.not_isParam_of_get? hf))
      rw [hname] at he
      cases hf.symm.trans he
      obtain ⟨u, hu, hup⟩ := ih₁ hraw' t ht e hf p hp
      exact ⟨_, mem_append_filter.mpr (.inl ((hts _).mpr (.inr ⟨u, hu, rfl⟩))),
        hs.parentAt_subst hd hf hargs hp hup parent.args⟩
  · obtain ⟨u, hu, hup⟩ := ih₂ hrest t hm e he p hp
    exact ⟨u, mem_append_filter.mpr (.inr hu), hup⟩

/-- The ancestors are in every closed set that contains the parents. -/
theorem mem_of_ancestorsVia {parents types : List TypeExpr} {S : Set TypeExpr}
    (h : r.ancestorsVia context trail parents = .ok types) (hparents : ∀ t ∈ parents, r.NotRaw t)
    (hsub : ∀ t ∈ parents, t ∈ S) (hclosed : r.ClosedUp S) : ∀ t ∈ types, t ∈ S := by
  revert hparents S
  refine ancestorsVia_induction (motive := fun _ parents types => ∀ {S : Set TypeExpr},
    (∀ t ∈ parents, r.NotRaw t) → (∀ t ∈ parents, t ∈ S) → r.ClosedUp S → ∀ t ∈ types, t ∈ S)
    (by simp) ?_ h
  intro trail parent rest d inherited ts others hd _ hi ht ih₁ ih₂ S hparents hsub hclosed t htypes
  obtain ⟨hparent, hrest⟩ := List.forall_mem_cons.mp hparents
  obtain ⟨hp, hsub⟩ := List.forall_mem_cons.mp hsub
  have hraw' := hraw d (List.mem_of_find?_eq_some hd)
  rcases mem_append_filter.mp htypes with hm | hm
  · obtain ⟨hlen, _, happlied, hts⟩ := hs.mem_throughParent hd hparent hi ht
    rcases (hts t).mp hm with rfl | ⟨t, ht, rfl⟩
    · exact hp
    -- The inherited types whose rewritten form is in the set are closed themselves.
    refine (ih₁ (S := {t | t ∈ inherited ∧ t.subst (bound d.typeParams.names parent.args) ∈ S})
      hraw' (fun p hp' => ?_) ?_ t ht).2
    · have hinherited := subset_ancestorsVia hi p hp'
      refine ⟨hinherited, hclosed parent hp d hd p hp' _ ?_⟩
      exact (hs.parentAt_eq_ok_iff hd hlen).mpr ⟨happlied p hinherited, rfl⟩
    · rintro t ⟨ht, htS⟩ e he p hp' u hu
      obtain ⟨f, hf, hargs⟩ := registered_of_ancestorsVia hs hraw hi hraw' t ht
      cases he.symm.trans hf
      obtain ⟨v, hv, hup⟩ := closed_of_ancestorsVia hs hraw hi hraw' t ht e he p hp'
      cases hu.symm.trans hup
      refine ⟨hv, hclosed _ htS e ?_ p hp' _ (hs.parentAt_subst hd he hargs hp' hu _)⟩
      rwa [TypeExpr.subst_of_none (hs.bound_eq_none hd _ (hs.not_isParam_of_get? he))]
  · exact ih₂ hrest hsub hclosed t hm

end Closure

/-! ## The least closed set -/

/-- The names of all type parameters of definitions. -/
def paramNames (r : Registry) : List String :=
  (r.definitions ++ r.anonymous).flatMap (·.typeParams.names)

/-- Type parameters are in scope wherever parents mention them, and no definition has the name of
one; none is named like the top type or a captured wildcard. -/
structure WellScoped (r : Registry) : Prop where
  supertypes : ∀ d ∈ r.definitions ++ r.anonymous, ∀ t ∈ d.supertypes,
    ∀ name ∈ t.allNames, name ∈ r.paramNames → name ∈ d.typeParams.names
  concrete : ∀ d ∈ r.definitions ++ r.anonymous, d.name ∉ r.paramNames
  top : TypeExpr.topName ∉ r.paramNames
  uncaptured : ∀ name ∈ r.paramNames, isCapture name = false

instance : DecidablePred WellScoped := fun r =>
  decidable_of_iff ((∀ d ∈ r.definitions ++ r.anonymous, ∀ t ∈ d.supertypes,
      ∀ name ∈ t.allNames, name ∈ r.paramNames → name ∈ d.typeParams.names) ∧
      (∀ d ∈ r.definitions ++ r.anonymous, d.name ∉ r.paramNames) ∧
      TypeExpr.topName ∉ r.paramNames ∧ ∀ name ∈ r.paramNames, isCapture name = false)
    ⟨fun ⟨h₁, h₂, h₃, h₄⟩ => ⟨h₁, h₂, h₃, h₄⟩,
      fun h => ⟨h.supertypes, h.concrete, h.top, h.uncaptured⟩⟩

theorem WellScoped.scoped (h : r.WellScoped) : r.Scoped (· ∈ r.paramNames) where
  params d hd _ hn := List.mem_flatMap.mpr ⟨d, hd, hn⟩
  supertypes d hd t ht name hn := h.supertypes d hd t ht name ((t.mem_allNames name).mpr hn)
  concrete := h.concrete
  top := h.top
  uncaptured := h.uncaptured

/-- Every parent has as many arguments as its definition has parameters. -/
def FullyApplied (r : Registry) : Prop :=
  ∀ d ∈ r.definitions ++ r.anonymous, ∀ t ∈ d.supertypes, ∀ e ∈ r.get? t.name,
    t.args.length = e.typeParams.length

instance : DecidablePred FullyApplied := fun r =>
  inferInstanceAs (Decidable (∀ d ∈ r.definitions ++ r.anonymous, ∀ t ∈ d.supertypes,
    ∀ e ∈ r.get? t.name, t.args.length = e.typeParams.length))

theorem FullyApplied.applied (h : r.FullyApplied) : r.Applied := by
  intro d hd t ht e he hne hargs
  have hlen := h d hd t ht e he
  rw [hargs, List.length_nil] at hlen
  exact hne (List.length_eq_zero_iff.mp hlen.symm)

/-- Interfaces, given by name, type parameters and parents. -/
def ofInterfaces (ds : List (String × List String × List TypeExpr)) : Registry :=
  { Registry.empty "Forms" with
    definitions := ds.map fun (name, params, parents) =>
      { Definition.make name (.interface parents none) with typeParams := .ofNames params } }

/-- The interface `Q<X, Y>` is reached through `P<A>` and through `R<B>`, in the first place with a
wildcard and an array of the argument. -/
def diamondModel : Registry :=
  ofInterfaces
    [("Q", ["X", "Y"], []),
     ("P", ["A"], [.generic "Q" [.upper (.named "A"), .plain ⟨"A", [], 1⟩]]),
     ("R", ["B"], [.generic "Q" [.plain (.named "B"), .plain (.named "String")]]),
     ("C", ["T"], [.generic "P" [.plain (.generic "List" [.plain (.named "T")])],
       .generic "R" [.plain (.named "T")]])]

end Registry

end FluentGrammar
