import FluentGrammar.Proofs.Ancestry
import FluentGrammar.Proofs.ConversionClosure

/-!
# Dropping redundant interfaces

An interface that a class implements is redundant if another parent has an ancestor of its name.
Once the redundant interfaces are dropped, the ancestors of the class are among those it had, and
each type that is lost has left another type of its name behind. So nothing is lost where a class
inherits from one type of each name. But redundancy goes by names alone: of two types of one name
that differ in their arguments, the one that the class names itself is dropped.

* `Registry.ComesThrough`: a type that a definition inherits through one of its parents.
* `Registry.mem_ancestorsVia_iff`: the ancestors, parent by parent.
* **`removeRedundant_ancestors`**: the ancestors once the redundant interfaces are dropped.
* `removeRedundant_loses_type`: types that are lost.
-/

namespace FluentGrammar

namespace Registry

variable {r : Registry} {context : String} {trail : List String}

/-- The type `t` is inherited through `parent`. -/
def ComesThrough (r : Registry) (parent t : TypeExpr) : Prop :=
  ∃ d inherited types, r.get? parent.name = some d ∧ r.ancestors d = .ok inherited ∧
    throughParent parent d inherited = .ok types ∧ t ∈ types

/-- **The ancestors** are the types that come through the parents. -/
theorem mem_ancestorsVia_iff {parents types : List TypeExpr}
    (h : r.ancestorsVia context trail parents = .ok types) {t : TypeExpr} :
    t ∈ types ↔ ∃ parent ∈ parents, r.ComesThrough parent t := by
  refine ancestorsVia_induction (motive := fun _ parents types =>
    t ∈ types ↔ ∃ parent ∈ parents, r.ComesThrough parent t) (by simp) ?_ h
  intro trail parent rest d inherited ts others hd _ hi hts _ ih
  have hhead : t ∈ ts ↔ r.ComesThrough parent t := by
    constructor
    · exact fun ht => ⟨d, inherited, ts, hd, hi, hts, ht⟩
    · rintro ⟨d', inherited', ts', hd', hi', hts', ht⟩
      cases hd.symm.trans hd'
      cases hi.symm.trans hi'
      cases hts.symm.trans hts'
      exact ht
  rw [mem_append_filter, hhead, ih, List.exists_mem_cons_iff]

theorem exists_redundantInterfaces {d : Definition} {types : List TypeExpr}
    (h : r.ancestors d = .ok types) : ∃ redundant, r.redundantInterfaces d = .ok redundant := by
  have hparents : ∀ parent ∈ d.supertypes, ∃ names, r.ancestorNames d.name parent = .ok names := by
    intro parent hp
    obtain ⟨us, hus⟩ := ancestorsVia_of_subset (List.cons_subset.mpr ⟨hp, List.nil_subset _⟩) h
    obtain ⟨p, inherited, _, _, hget, _, hi, _⟩ := ancestorsVia_cons_eq_ok_iff.mp hus
    exact ⟨_, ancestorNames_eq_ok_iff.mpr ⟨p, inherited, hget, ancestors_of_ancestorsVia hi, rfl⟩⟩
  choose! names hnames using hparents
  unfold redundantInterfaces
  split
  · exact ⟨[], rfl⟩
  · exact Except.exists_bind_eq_ok (Except.mapM_eq_ok_map hnames) ⟨_, rfl⟩

end Registry

/-! ## Classes without their redundant interfaces -/

theorem Definition.addPaths_nil (d : Definition) : d.addPaths [] = d := by
  obtain ⟨_, _, _, _, _, _, _, _, _, shape⟩ := d
  cases shape <;> rfl

section Remove

variable {r : Registry} {name : String} {d : Definition} {types : List TypeExpr}

/-- **Dropping the redundant interfaces** of a class gives a class whose ancestors are known and are
among the old ones. In a registry in which no definition inherits from a type of the name of one of
its own type parameters, each type that is lost has left another one of its name. So, if no two
ancestors of the class had the same name, it has the ancestors it had. -/
theorem removeRedundant_ancestors (hd : r.get? name = some d) (hc : d.isNamedClass = true)
    (ht : r.ancestors d = .ok types) :
    ∃ redundant types', r.redundantInterfaces d = .ok redundant ∧
      (r.modify name (·.removeInterfaces (redundant.map TypeExpr.name))).get? name =
        some (d.removeInterfaces (redundant.map TypeExpr.name)) ∧
      (r.modify name (·.removeInterfaces (redundant.map TypeExpr.name))).ancestors
        (d.removeInterfaces (redundant.map TypeExpr.name)) = .ok types' ∧
      types' ⊆ types ∧
      (r.Unshadowed → ∀ t ∈ types, ∃ t' ∈ types', t'.name = t.name) ∧
      (r.Unshadowed → (types.map TypeExpr.name).Nodup → ∀ t, t ∈ types' ↔ t ∈ types) := by
  have hr : ClassAt r name r d types := ⟨.refl name r, hd, hc, ht⟩
  obtain ⟨redundant, hred⟩ := Registry.exists_redundantInterfaces ht
  obtain ⟨types', hr'⟩ := hr.removeInterfaces [] (redundant.map TypeExpr.name)
  have hsub : types' ⊆ types := by
    intro t hm
    obtain ⟨parent, hp, hthrough⟩ := (Registry.mem_ancestorsVia_iff hr'.ancestorsVia).mp hm
    have hold := d.supertypes_removeInterfaces_addPaths [] (redundant.map TypeExpr.name) hp
    exact (Registry.mem_ancestorsVia_iff hr.ancestorsVia).mpr ⟨parent, hold, hthrough⟩
  have hnames : r.Unshadowed → ∀ t ∈ types, ∃ t' ∈ types', t'.name = t.name := fun hb t hm =>
    List.mem_map.mp ((hr.names_removeRedundant hb hred hr' rfl t.name).mpr (List.mem_map_of_mem hm))
  simp only [Definition.addPaths_nil] at hr'
  refine ⟨redundant, types', hred, hr'.found, hr'.ancestors, hsub, hnames,
    fun hb hnodup t => ⟨fun hm => hsub hm, fun hm => ?_⟩⟩
  obtain ⟨t', hm', he⟩ := hnames hb t hm
  rwa [← List.inj_on_of_nodup_map hnodup (hsub hm') hm he]

end Remove

/-- The interface `J<T>` inherits from `I<T>`, and `K` from `J<String>`. -/
def nestedModel (implemented : List TypeExpr) : Registry :=
  closureModel
    [("I", ["T"], []), ("J", ["T"], [.generic "I" [.plain (.named "T")]]),
     ("K", [], [.generic "J" [.plain (.named "String")]])]
    implemented

/-- A class `C` that implements interfaces. -/
def implementer (implemented : List TypeExpr) : Definition :=
  .make "C" (.namedClass none implemented ∅)

/-- A class that implements `I<String>`, `J<String>` and `K` is left with `K`, through which the
other two come as well. -/
theorem removeRedundant_ancestors_nested :
    let strings := [TypeArg.plain (.named "String")]
    let implemented := [.generic "I" strings, .generic "J" strings, .named "K"]
    let r := nestedModel implemented
    let d := implementer implemented
    r.Unshadowed ∧ ∃ types redundant types', r.get? "C" = some d ∧ d.isNamedClass = true ∧
      r.ancestors d = .ok types ∧ (types.map TypeExpr.name).Nodup ∧
      r.redundantInterfaces d = .ok redundant ∧
      redundant = [.generic "I" strings, .generic "J" strings] ∧
      (r.modify "C" (·.removeInterfaces (redundant.map TypeExpr.name))).ancestors
        (d.removeInterfaces (redundant.map TypeExpr.name)) = .ok types' ∧
      ∀ t, t ∈ types' ↔ t ∈ types := by
  intro strings implemented r d
  have hr : r.Unshadowed := by decide +kernel
  have hd : r.get? "C" = some d := by decide +kernel
  have ht : r.ancestors d = .ok implemented := by decide +kernel
  have hred : r.redundantInterfaces d = .ok [.generic "I" strings, .generic "J" strings] := by
    decide +kernel
  obtain ⟨redundant, types', hred', _, ht', _, _, hsame⟩ :=
    removeRedundant_ancestors hd (by decide) ht
  cases hred.symm.trans hred'
  exact ⟨hr, implemented, _, types', hd, by decide, ht, by decide, hred, rfl, ht',
    hsame hr (by decide)⟩

/-- **Types are lost.** A class that implements `I<Integer>` and `K` loses `I<Integer>`, as `K`
brings an ancestor of that name. A class that implements `T` and `J<Foo>`, where `J` inherits from
its own parameter `T`, loses `T`. -/
theorem removeRedundant_loses_type :
    let strings := [TypeArg.plain (.named "String")]
    let integers := TypeExpr.generic "I" [.plain (.named "Integer")]
    let foos := TypeExpr.generic "J" [.plain (.named "Foo")]
    let r := nestedModel [integers, .named "K"]
    let d := implementer [integers, .named "K"]
    let s := shadowedModel [.named "T", foos]
    let e := implementer [.named "T", foos]
    (r.get? "C" = some d ∧
      r.ancestors d = .ok [integers, .named "K", .generic "J" strings, .generic "I" strings] ∧
      r.redundantInterfaces d = .ok [integers] ∧
      (r.modify "C" (·.removeInterfaces ["I"])).ancestors (d.removeInterfaces ["I"]) =
        .ok [.named "K", .generic "J" strings, .generic "I" strings]) ∧
    s.get? "C" = some e ∧ s.ancestors e = .ok [.named "T", foos, .named "Foo"] ∧
      s.redundantInterfaces e = .ok [.named "T"] ∧
      (s.modify "C" (·.removeInterfaces ["T"])).ancestors (e.removeInterfaces ["T"]) =
        .ok [foos, .named "Foo"] := by
  decide +kernel

end FluentGrammar
