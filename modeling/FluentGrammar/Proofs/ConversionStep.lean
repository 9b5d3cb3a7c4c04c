import FluentGrammar.Proofs.Registry
import FluentGrammar.Resolution.Closure

/-!
# One conversion applied to a class

What a class has after it gained an interface. Interfaces that became redundant are dropped from
its parents, but each of them is an ancestor of a parent that stays, so no name is lost: the new
ancestors are exactly the interface and what its definition inherits from.

* `ClassAt`: a class as it stands while conversions are applied to it.
* `Registry.names_kept_by_maximal`: dropping what other parents bring along loses no name.
* `gainInterface_changes`, `gainInterface_cases`: the steps of a class that gains an interface.
* **`gainInterface_spec`**, `applyConversion_cases`: one conversion applied to a class.
-/

namespace FluentGrammar

/-! ## Changes to a class -/

namespace Definition

variable {d : Definition}

theorem isNamedClass_iff :
    d.isNamedClass = true ↔ ∃ superclass interfaces paths,
      d.shape = .namedClass superclass interfaces paths := by
  unfold isNamedClass kind
  cases d.shape <;> simp

@[simp] theorem name_addInterface (t : TypeExpr) : (d.addInterface t).name = d.name := by
  unfold addInterface
  split <;> rfl

theorem kind_mapInterfaces {f : List TypeExpr → List TypeExpr} :
    (d.mapInterfaces f).kind = d.kind := by
  unfold kind mapInterfaces
  cases d.shape <;> rfl

theorem owner_mapInterfaces {f : List TypeExpr → List TypeExpr} :
    (d.mapInterfaces f).owner = d.owner := by
  rw [owner, kind_mapInterfaces]
  rfl

theorem isAbstract_mapInterfaces {f : List TypeExpr → List TypeExpr} :
    (d.mapInterfaces f).isAbstract = d.isAbstract := by
  unfold isAbstract
  rw [kind_mapInterfaces]
  rfl

theorem isNamedClass_mapInterfaces (f : List TypeExpr → List TypeExpr)
    (h : d.isNamedClass = true) : (d.mapInterfaces f).isNamedClass = true := by
  obtain ⟨superclass, interfaces, paths, hs⟩ := isNamedClass_iff.mp h
  simp [isNamedClass, kind, mapInterfaces, hs]

theorem supertypes_mapInterfaces (f : List TypeExpr → List TypeExpr) (h : d.isNamedClass = true) :
    (d.mapInterfaces f).supertypes = d.superclass?.toList ++ f d.interfaces := by
  obtain ⟨superclass, interfaces, paths, hs⟩ := isNamedClass_iff.mp h
  simp [supertypes, mapInterfaces, superclass?, Definition.interfaces, hs]

theorem supertypes_of_isNamedClass (h : d.isNamedClass = true) :
    d.supertypes = d.superclass?.toList ++ d.interfaces := by
  obtain ⟨superclass, interfaces, paths, hs⟩ := isNamedClass_iff.mp h
  simp [supertypes, superclass?, Definition.interfaces, hs]

@[simp] theorem paths_mapInterfaces (f : List TypeExpr → List TypeExpr) :
    (d.mapInterfaces f).paths = d.paths := by
  unfold paths mapInterfaces
  cases d.shape <;> rfl

theorem isNamedClass_addInterface (t : TypeExpr) (h : d.isNamedClass = true) :
    (d.addInterface t).isNamedClass = true := by
  unfold addInterface
  split
  · exact isNamedClass_mapInterfaces _ h
  · exact h

@[simp] theorem paths_addInterface (t : TypeExpr) : (d.addInterface t).paths = d.paths := by
  unfold addInterface
  split
  · exact paths_mapInterfaces _
  · rfl

theorem supertypes_addInterface_subset (t : TypeExpr) (h : d.isNamedClass = true) :
    (d.addInterface t).supertypes ⊆ d.supertypes ++ [t] := by
  unfold addInterface
  split
  · rw [supertypes_mapInterfaces _ h, supertypes_of_isNamedClass h, List.append_assoc]
    exact List.Subset.refl _
  · exact List.subset_append_left _ _

theorem addInterface_eq {t : TypeExpr} (h : d.isNamedClass = true)
    (hn : ∀ i ∈ d.interfaces, i.name ≠ t.name) : d.addInterface t = d.mapInterfaces (· ++ [t]) := by
  refine if_pos ?_
  simp only [lacksInterface, h, Bool.true_and, List.all_eq_true, decide_eq_true_eq]
  exact hn

theorem isNamedClass_addPaths (ps : List ConversionPath) :
    (d.addPaths ps).isNamedClass = d.isNamedClass := by
  unfold isNamedClass kind addPaths
  cases d.shape <;> rfl

theorem superclass?_addPaths (ps : List ConversionPath) :
    (d.addPaths ps).superclass? = d.superclass? := by
  unfold superclass? addPaths
  cases d.shape <;> rfl

theorem interfaces_addPaths (ps : List ConversionPath) :
    (d.addPaths ps).interfaces = d.interfaces := by
  unfold Definition.interfaces addPaths
  cases d.shape <;> rfl

theorem paths_addPaths (ps : List ConversionPath) (h : d.isNamedClass = true) :
    (d.addPaths ps).paths =
      ps.foldl (fun t path => t.insertNew path.target.name path) d.paths := by
  obtain ⟨superclass, interfaces, paths, hs⟩ := isNamedClass_iff.mp h
  simp [Definition.paths, addPaths, hs]

theorem supertypes_removeInterfaces_addPaths (d : Definition) (paths : List ConversionPath)
    (names : List String) :
    ((d.addPaths paths).removeInterfaces names).supertypes ⊆ d.supertypes := by
  unfold addPaths removeInterfaces mapInterfaces supertypes
  cases d.shape with
  | interface parents archetype => exact fun _ => id
  | anonymousClass parent => exact fun _ => id
  | namedClass superclass interfaces known =>
    exact List.append_subset.mpr ⟨List.subset_append_left _ _, fun t ht =>
      List.mem_append_right _ (List.mem_of_mem_filter ht)⟩

theorem supertypes_of_dropped {d' : Definition} {paths : List ConversionPath} {names : List String}
    (h : d.isNamedClass = true)
    (hshape : d'.shape = ((d.addPaths paths).removeInterfaces names).shape) :
    d'.supertypes = d.superclass?.toList ++ d.interfaces.filter (·.name ∉ names) := by
  rw [supertypes, hshape]
  change ((d.addPaths paths).mapInterfaces _).supertypes = _
  rw [supertypes_mapInterfaces _ ((isNamedClass_addPaths paths).trans h), superclass?_addPaths,
    interfaces_addPaths]

end Definition

/-! ## Redundant parents -/

namespace Registry

variable {r : Registry} {context : String} {trail : List String}

/-- Parents that are ancestors of other parents can be dropped without loss of a name. -/
theorem names_kept_by_maximal (hr : r.Unshadowed) {parents kept types types' : List TypeExpr}
    (hsub : kept ⊆ parents)
    (hdropped : ∀ p ∈ parents, p ∉ kept → ∃ q ∈ parents, r.HasAncestor q.name p.name)
    (h : r.ancestorsVia context trail parents = .ok types)
    (h' : r.ancestorsVia context trail kept = .ok types') {name : String} :
    name ∈ types'.map TypeExpr.name ↔ name ∈ types.map TypeExpr.name := by
  rw [mem_names_ancestorsVia hr h, mem_names_ancestorsVia hr h']
  constructor
  · rintro ⟨p, hp, hname⟩
    exact ⟨p, hsub hp, hname⟩
  · rintro ⟨p, hp, hname⟩
    obtain ⟨top, ht, hle, hmax⟩ := exists_maximal_parent hr parents p hp
    have hkept : top ∈ kept := by
      by_contra hk
      obtain ⟨q, hq, ha⟩ := hdropped top ht hk
      exact hmax q hq ha
    refine ⟨top, hkept, ?_⟩
    rcases hle with he | hlt
    · exact he ▸ hname
    · rcases hname with rfl | ha
      · exact .inr hlt
      · exact .inr (hlt.trans hr ha)

theorem hasAncestor_of_mem_redundantInterfaces {d : Definition} {redundant : List TypeExpr}
    (h : r.redundantInterfaces d = .ok redundant) {i : TypeExpr} (hi : i ∈ redundant) :
    ∃ parent ∈ d.supertypes, r.HasAncestor parent.name i.name := by
  unfold redundantInterfaces at h
  split at h
  · cases h
    cases hi
  simp only [Except.bind_eq_ok_iff, Except.pure_eq_ok_iff] at h
  obtain ⟨reachable, hreach, rfl⟩ := h
  obtain ⟨⟨_, position⟩, hm, rfl⟩ := List.mem_map.mp hi
  obtain ⟨⟨names, other⟩, hnames, hcond⟩ := List.any_eq_true.mp (List.mem_filter.mp hm).2
  simp only [Bool.and_eq_true, decide_eq_true_eq] at hcond
  obtain ⟨parent, hp, hname⟩ :=
    Except.exists_of_mem_mapM hreach names (List.fst_mem_of_mem_zipIdx hnames)
  obtain ⟨p, types, hget, ht, rfl⟩ := ancestorNames_eq_ok_iff.mp hname
  exact ⟨parent, hp, p, types, hget, ht, hcond.2⟩

end Registry

/-! ## A class on the way -/

/-- In a registry that differs from `base` in the class `name` at most, that class is `d` and has
the ancestors `types`. -/
structure ClassAt (base : Registry) (name : String) (r : Registry) (d : Definition)
    (types : List TypeExpr) : Prop where
  agrees : base.AgreesOff name r
  found : r.get? name = some d
  named : d.isNamedClass = true
  ancestors : r.ancestors d = .ok types

namespace ClassAt

variable {base r r' : Registry} {name : String} {d d' : Definition} {types types' : List TypeExpr}

theorem name_eq (h : ClassAt base name r d types) : d.name = name :=
  Registry.name_of_get? h.found

theorem ancestorsVia (h : ClassAt base name r d types) :
    base.ancestorsVia name [name] d.supertypes = .ok types := by
  have := h.agrees.ancestors_eq h.name_eq
  rw [h.ancestors, h.name_eq] at this
  exact this.symm

theorem mem_names_iff (hb : base.Unshadowed) (h : ClassAt base name r d types) {n : String} :
    n ∈ types.map TypeExpr.name ↔
      ∃ parent ∈ d.supertypes, n = parent.name ∨ base.HasAncestor parent.name n :=
  Registry.mem_names_ancestorsVia hb h.ancestorsVia

theorem mem_base_names (hb : base.Unshadowed) (h : ClassAt base name r d types) {n : String}
    (hn : n ∈ types.map TypeExpr.name) : n ∈ base.names := by
  obtain ⟨p, _, hp, _⟩ := Registry.exists_ancestors_of_mem_names hb h.ancestorsVia n hn
  exact Registry.mem_names_of_get? hp

theorem modify (h : ClassAt base name r d types) {f : Definition → Definition}
    (hf : ∀ e, e.name = name → (f e).name = name) (hc : (f d).isNamedClass = true)
    (ht : base.ancestorsVia name [name] (f d).supertypes = .ok types') :
    ClassAt base name (r.modify name f) (f d) types' := by
  have hagrees := h.agrees.trans (Registry.agreesOff_modify hf)
  have hname : (f d).name = name := hf d h.name_eq
  refine ⟨hagrees, ?_, hc, ?_⟩
  · rw [Registry.get?_modify hf, if_pos rfl, h.found]
    rfl
  · rw [hagrees.ancestors_eq hname, hname, ht]

theorem addMethods (h : ClassAt base name r d types) {ms : List Method} {u : Unit}
    (hm : ms.forM (Resolution.addMethod name name) r = .ok u r') :
    ∃ d', ClassAt base name r' d' types ∧ d'.shape = d.shape := by
  refine Resolution.forM_induction (fun s => ∃ d', ClassAt base name s d' types ∧
    d'.shape = d.shape) ?_ ⟨d, h, rfl⟩ hm
  rintro m _ s t u ⟨e, he, hshape⟩ hstep
  obtain ⟨e₁, e₂, hget, hadd, rfl⟩ := Resolution.addMethod_eq_ok_iff.mp hstep
  cases he.found.symm.trans hget
  have hsame := Definition.sameFrame_of_addMethod hadd
  refine ⟨e₂, he.modify (fun _ _ => hsame.name.trans he.name_eq) ?_ ?_, hsame.shape.trans hshape⟩
  · rw [Definition.isNamedClass, hsame.kind]
    exact he.named
  · rw [hsame.supertypes]
    exact he.ancestorsVia

end ClassAt

/-! ## One conversion -/

section Step

variable {base r r' : Registry} {name utility : String} {d : Definition}
  {types gained : List TypeExpr} {via target : TypeExpr} {c : Conversion}

theorem mem_names_newAncestors {before after : List TypeExpr} {n : String} :
    n ∈ (newAncestors before after).map TypeExpr.name ↔
      n ∈ after.map TypeExpr.name ∧ n ∉ before.map TypeExpr.name := by
  simp only [newAncestors, List.mem_map, List.mem_filter, List.all_eq_true, decide_eq_true_eq]
  constructor
  · rintro ⟨t, ⟨ht, hne⟩, rfl⟩
    exact ⟨⟨t, ht, rfl⟩, fun ⟨u, hu, he⟩ => hne u hu he⟩
  · rintro ⟨⟨t, ht, rfl⟩, hne⟩
    exact ⟨t, ⟨ht, fun u hu he => hne ⟨u, hu, he⟩⟩, rfl⟩

theorem ClassAt.addInterface (hr : ClassAt base name r d types) {types₁ : List TypeExpr}
    (ht : (r.modify name (·.addInterface target)).ancestors (d.addInterface target) = .ok types₁) :
    ClassAt base name (r.modify name (·.addInterface target)) (d.addInterface target) types₁ := by
  have hf : ∀ e : Definition, e.name = name → (e.addInterface target).name = name :=
    fun e he => by rw [Definition.name_addInterface, he]
  have hname : (d.addInterface target).name = name := hf d hr.name_eq
  rw [(hr.agrees.trans (Registry.agreesOff_modify hf)).ancestors_eq hname, hname] at ht
  exact hr.modify hf (Definition.isNamedClass_addInterface target hr.named) ht

theorem ClassAt.removeInterfaces (hr : ClassAt base name r d types) (paths : List ConversionPath)
    (names : List String) :
    ∃ types', ClassAt base name (r.modify name fun e => (e.addPaths paths).removeInterfaces names)
      ((d.addPaths paths).removeInterfaces names) types' := by
  obtain ⟨types', ht'⟩ := Registry.ancestorsVia_of_subset
    (d.supertypes_removeInterfaces_addPaths paths names) hr.ancestorsVia
  have hc : (d.addPaths paths).isNamedClass = true :=
    (Definition.isNamedClass_addPaths paths).trans hr.named
  exact ⟨types', hr.modify (fun e he => he) (Definition.isNamedClass_mapInterfaces _ hc) ht'⟩

/-- What a class goes through that takes up an interface: with its new ancestors and the new table at
hand it gets paths, loses redundant interfaces and gets methods. -/
theorem gainInterface_eq_ok {tables : TableSource}
    (h : tables.gainInterface name utility via target c r = .ok gained r') :
    let r₁ := r.modify name (·.addInterface target)
    ∃ old before known d₁ types₁ redundant table methods,
      r.get? name = some old ∧ r.ancestors old = .ok before ∧ tables r old = .ok known ∧
      r₁.get? name = some d₁ ∧ r₁.ancestors d₁ = .ok types₁ ∧
      gained = newAncestors before types₁ ∧ r₁.redundantInterfaces d₁ = .ok redundant ∧
      tables r₁ d₁ = .ok table ∧
      convertedMethods utility c.method.name known.keys table = .ok methods ∧
      methods.forM (Resolution.addMethod name name) (r₁.modify name fun d => (d.addPaths
        (gained.map fun t => ⟨via, t, c.method.name, old.distanceTo via.name + 1⟩)).removeInterfaces
          (redundant.map TypeExpr.name)) = .ok () r' := by
  unfold TableSource.gainInterface at h
  simp only [Resolution.bind_eq_ok_iff, Resolution.inspect_eq_ok_iff,
    Resolution.modify_eq_ok_iff, Resolution.check_eq_ok_iff, Resolution.pure_eq_ok_iff,
    Registry.require_eq_ok_iff] at h
  obtain ⟨old, _, ⟨hold, rfl⟩, before, _, ⟨hbefore, rfl⟩, known, _, ⟨hknown, rfl⟩, _, _, rfl, d₁, _,
    ⟨hd₁, rfl⟩, types₁, _, ⟨ht₁, rfl⟩, redundant, _, ⟨hred, rfl⟩, table, _, ⟨htable, rfl⟩, methods, _,
    ⟨hmethods, rfl⟩, _, _, rfl, _, _, hadd, rfl, rfl⟩ := h
  exact ⟨old, before, known, d₁, types₁, redundant, table, methods, hold, hbefore, hknown, hd₁, ht₁,
    rfl, hred, htable, hmethods, hadd⟩

/-- What changes when a class takes up an interface: it has the interface and paths, loses some
interfaces, and gets methods made of those in its new table. -/
theorem gainInterface_changes {tables : TableSource}
    (h : tables.gainInterface name utility via target c r = .ok gained r') :
    let r₁ := r.modify name (·.addInterface target)
    ∃ paths names known d₁ table methods, r₁.get? name = some d₁ ∧ tables r₁ d₁ = .ok table ∧
      convertedMethods utility c.method.name known table = .ok methods ∧
      methods.forM (Resolution.addMethod name name)
        (r₁.modify name fun d => (d.addPaths paths).removeInterfaces names) = .ok () r' := by
  obtain ⟨_, _, _, d₁, _, _, table, methods, -, -, -, hd₁, -, -, -, htable, hmethods, hadd⟩ :=
    gainInterface_eq_ok h
  exact ⟨_, _, _, d₁, table, methods, hd₁, htable, hmethods, hadd⟩

/-- A class takes up an interface, and ancestors are found with it. Then it has paths to those of new
names and is rid of its redundant interfaces. -/
theorem gainInterface_cases (hr : ClassAt base name r d types)
    (h : gainInterface name utility via target c r = .ok gained r') :
    ∃ types₁ redundant d' types',
      ClassAt base name (r.modify name (·.addInterface target)) (d.addInterface target) types₁ ∧
      gained = newAncestors types types₁ ∧
      (r.modify name (·.addInterface target)).redundantInterfaces (d.addInterface target) =
        .ok redundant ∧
      ClassAt base name r' d' types' ∧
      d'.shape = (((d.addInterface target).addPaths (gained.map fun t =>
        ⟨via, t, c.method.name, d.distanceTo via.name + 1⟩)).removeInterfaces
          (redundant.map TypeExpr.name)).shape := by
  obtain ⟨old, before, known, d₁, types₁, redundant, table, methods, hold, hbefore, -, hd₁, ht₁, rfl,
    hred, -, -, hadd⟩ := gainInterface_eq_ok h
  cases hr.found.symm.trans hold
  cases hr.ancestors.symm.trans hbefore
  have hget : (r.modify name (·.addInterface target)).get? name = some (d.addInterface target) := by
    rw [Registry.get?_modify fun e he => (Definition.name_addInterface target).trans he, if_pos rfl,
      hr.found]
    rfl
  cases hget.symm.trans hd₁
  have hr₁ := hr.addInterface ht₁
  obtain ⟨types₂, hr₂⟩ := hr₁.removeInterfaces _ _
  obtain ⟨d', hr', hshape⟩ := hr₂.addMethods hadd
  exact ⟨types₁, redundant, d', types₂, hr₁, rfl, hred, hr', hshape⟩

theorem ClassAt.names_addInterface (hb : base.Unshadowed) (hr : ClassAt base name r d types)
    (hn : target.name ∉ types.map TypeExpr.name) {r₁ : Registry} {types₁ : List TypeExpr}
    (hr₁ : ClassAt base name r₁ (d.addInterface target) types₁) (n : String) :
    n ∈ types₁.map TypeExpr.name ↔
      n ∈ types.map TypeExpr.name ∨ n = target.name ∨ base.HasAncestor target.name n := by
  have hadd : d.addInterface target = d.mapInterfaces (· ++ [target]) := by
    refine Definition.addInterface_eq hr.named fun i hi he => hn ?_
    refine he ▸ (hr.mem_names_iff hb).mpr ⟨i, ?_, .inl rfl⟩
    rw [Definition.supertypes_of_isNamedClass hr.named]
    exact List.mem_append_right _ hi
  have hparents : (d.addInterface target).supertypes = d.supertypes ++ [target] := by
    rw [hadd, Definition.supertypes_mapInterfaces _ hr.named,
      Definition.supertypes_of_isNamedClass hr.named, List.append_assoc]
  rw [hr₁.mem_names_iff hb, hr.mem_names_iff hb, hparents]
  simp only [List.mem_append, List.mem_singleton, or_and_right, exists_or, exists_eq_left]

theorem ClassAt.names_removeRedundant (hb : base.Unshadowed) (hr : ClassAt base name r d types)
    {redundant : List TypeExpr} (h : r.redundantInterfaces d = .ok redundant)
    {paths : List ConversionPath} {d' : Definition} {types' : List TypeExpr}
    (hr' : ClassAt base name r' d' types')
    (hshape : d'.shape = ((d.addPaths paths).removeInterfaces (redundant.map TypeExpr.name)).shape)
    (n : String) : n ∈ types'.map TypeExpr.name ↔ n ∈ types.map TypeExpr.name := by
  have hparents := Definition.supertypes_of_dropped hr.named hshape
  have hold := Definition.supertypes_of_isNamedClass hr.named
  have hsub : d'.supertypes ⊆ d.supertypes := by
    rw [hparents, hold]
    exact List.append_subset.mpr ⟨List.subset_append_left _ _,
      fun i hi => List.mem_append_right _ (List.mem_filter.mp hi).1⟩
  refine Registry.names_kept_by_maximal hb hsub (fun p hp hk => ?_) hr.ancestorsVia hr'.ancestorsVia
  have hred : p.name ∈ redundant.map TypeExpr.name := by
    by_contra hnot
    rw [hold] at hp
    rw [hparents] at hk
    rcases List.mem_append.mp hp with hp | hp
    · exact hk (List.mem_append_left _ hp)
    · exact hk (List.mem_append_right _ (List.mem_filter.mpr ⟨hp, decide_eq_true hnot⟩))
  obtain ⟨i, hi, he⟩ := List.mem_map.mp hred
  obtain ⟨q, hq, ha⟩ := Registry.hasAncestor_of_mem_redundantInterfaces h hi
  exact ⟨q, hq, he ▸ hr.agrees.hasAncestor_parent hr.name_eq hr.ancestors hq ha⟩

theorem paths_of_gainInterface {d' : Definition} {names : List String} (hc : d.isNamedClass = true)
    (hshape : d'.shape = (((d.addInterface target).addPaths (gained.map fun t =>
      ⟨via, t, c.method.name, d.distanceTo via.name + 1⟩)).removeInterfaces names).shape) :
    d'.paths = gained.foldl (fun paths t => paths.insertNew t.name
      ⟨via, t, c.method.name, d.distanceTo via.name + 1⟩) d.paths := by
  rw [Definition.paths, hshape]
  change ((((d.addInterface target).addPaths _).mapInterfaces _).paths) = _
  rw [Definition.paths_mapInterfaces, Definition.paths_addPaths _
    (Definition.isNamedClass_addInterface target hc), Definition.paths_addInterface, List.foldl_map]

/-- **A gained interface** brings its own name and those its definition inherits from, loses none,
and leaves a path to each type whose name is new. -/
theorem gainInterface_spec (hb : base.Unshadowed) (hr : ClassAt base name r d types)
    (hn : target.name ∉ types.map TypeExpr.name)
    (h : gainInterface name utility via target c r = .ok gained r') :
    ∃ d' types', ClassAt base name r' d' types' ∧
      (∀ n, n ∈ types'.map TypeExpr.name ↔
        n ∈ types.map TypeExpr.name ∨ n = target.name ∨ base.HasAncestor target.name n) ∧
      (∀ n, n ∈ gained.map TypeExpr.name ↔
        n ∈ types'.map TypeExpr.name ∧ n ∉ types.map TypeExpr.name) ∧
      d'.paths = gained.foldl (fun paths t => paths.insertNew t.name
        ⟨via, t, c.method.name, d.distanceTo via.name + 1⟩) d.paths := by
  obtain ⟨types₁, redundant, d', types', hr₁, rfl, hred, hr', hshape⟩ := gainInterface_cases hr h
  have hkept := hr₁.names_removeRedundant hb hred hr' hshape
  refine ⟨d', types', hr', fun n => ?_, fun n => ?_, paths_of_gainInterface hr.named hshape⟩
  · rw [hkept, hr.names_addInterface hb hn hr₁]
  · rw [mem_names_newAncestors, hkept]

/-- A conversion leads to a type of a new name, unless it does not apply or leads to the class or
to one of its ancestors. -/
theorem conversionTarget?_cases (ht : r.ancestors d = .ok types) {target? : Option TypeExpr}
    (h : conversionTarget? r d via c = .ok target?) :
    (target? = none ∧ ∀ s, c.typeParams.infer c.source via = .ok s →
      ∃ target, c.target.replace s = .ok target ∧
        (target.name = d.name ∨ target.name ∈ types.map TypeExpr.name)) ∨
    ∃ s target, target? = some target ∧ c.typeParams.infer c.source via = .ok s ∧
      c.target.replace s = .ok target ∧ target.name ≠ d.name ∧
      target.name ∉ types.map TypeExpr.name := by
  unfold conversionTarget? at h
  cases hs : c.typeParams.infer c.source via with
  | error e =>
    rw [hs] at h
    exact .inl ⟨(Except.ok.inj h).symm, fun s he => nomatch he⟩
  | ok s =>
    simp only [hs, Except.bind_eq_ok_iff] at h
    obtain ⟨target, hreplace, h⟩ := h
    split at h
    · rename_i hself
      refine .inl ⟨(Except.pure_eq_ok_iff.mp h).symm, fun s' hs' => ⟨target, ?_, .inl hself⟩⟩
      exact Except.ok.inj hs' ▸ hreplace
    rename_i hself
    simp only [Except.bind_eq_ok_iff, Registry.findAncestor, ht, Except.pure_eq_ok_iff] at h
    obtain ⟨found, ⟨_, hok, rfl⟩, h⟩ := h
    cases hok
    have hfind : (types.find? (·.name = target.name)).isSome = true ↔
        target.name ∈ types.map TypeExpr.name := by
      simp [List.find?_isSome, List.mem_map]
    split at h
    · rename_i hfound
      refine .inl ⟨(Except.pure_eq_ok_iff.mp h).symm, fun s' hs' =>
        ⟨target, ?_, .inr (hfind.mp hfound)⟩⟩
      exact Except.ok.inj hs' ▸ hreplace
    · rename_i hfound
      exact .inr ⟨s, target, (Except.pure_eq_ok_iff.mp h).symm, rfl, hreplace, hself,
        fun hm => hfound (hfind.mpr hm)⟩

theorem applyConversion_cases (hr : ClassAt base name r d types)
    (h : applyConversion name utility via c r = .ok gained r') :
    (gained = [] ∧ r' = r ∧ ∀ s, c.typeParams.infer c.source via = .ok s →
      ∃ target, c.target.replace s = .ok target ∧
        (target.name = name ∨ target.name ∈ types.map TypeExpr.name)) ∨
    ∃ s target, c.typeParams.infer c.source via = .ok s ∧ c.target.replace s = .ok target ∧
      target.name ≠ name ∧ target.name ∉ types.map TypeExpr.name ∧
      gainInterface name utility via target c r = .ok gained r' := by
  unfold applyConversion TableSource.applyConversion at h
  simp only [Resolution.bind_eq_ok_iff, Resolution.inspect_eq_ok_iff, Except.bind_eq_ok_iff,
    Registry.require_eq_ok_iff] at h
  obtain ⟨target?, _, ⟨⟨e, hget, htarget⟩, rfl⟩, h⟩ := h
  cases hr.found.symm.trans hget
  rcases conversionTarget?_cases hr.ancestors htarget with
    ⟨rfl, hnone⟩ | ⟨s, target, rfl, hs, hreplace, hself, hnew⟩
  · obtain ⟨rfl, rfl⟩ := Resolution.pure_eq_ok_iff.mp h
    exact .inl ⟨rfl, rfl, hr.name_eq ▸ hnone⟩
  · exact .inr ⟨s, target, hs, hreplace, hr.name_eq ▸ hself, hnew, h⟩

end Step

/-! ## Explorations -/

section Exploration

variable {r r' : Registry} {name utility : String} {via : TypeExpr} {c : Conversion}
  {conversions cs : List Conversion} {f : Frontier} {queue : List TypeExpr} {unseen : List String}
  {u : Unit}

theorem applyConversions_nil_eq_ok {g : { g : Frontier // g.size = f.size }}
    (h : applyConversions name utility via f [] r = .ok g r') : g.1 = f ∧ r' = r := by
  obtain ⟨rfl, rfl⟩ := Resolution.pure_eq_ok_iff.mp h
  exact ⟨rfl, rfl⟩

theorem applyConversions_cons_eq_ok {g : { g : Frontier // g.size = f.size }}
    (h : applyConversions name utility via f (c :: cs) r = .ok g r') :
    ∃ gained s g', applyConversion name utility via c r = .ok gained s ∧
      applyConversions name utility via (f.pushAll gained) cs s = .ok g' r' ∧ g.1 = g'.1 := by
  obtain ⟨gained, s, hstep, h⟩ := Resolution.bind_eq_ok_iff.mp h
  obtain ⟨g', _, hrest, h⟩ := Resolution.bind_eq_ok_iff.mp h
  obtain ⟨rfl, rfl⟩ := Resolution.pure_eq_ok_iff.mp h
  exact ⟨gained, s, g', hstep, hrest, rfl⟩

theorem explore_nil_eq_ok (h : explore name utility conversions ⟨[], unseen⟩ r = .ok u r') :
    r' = r := by
  rw [explore, TableSource.explore] at h
  exact (Resolution.pure_eq_ok_iff.mp h).2.symm

theorem explore_cons_eq_ok
    (h : explore name utility conversions ⟨via :: queue, unseen⟩ r = .ok u r') :
    ∃ g s, applyConversions name utility via ⟨queue, unseen⟩ conversions r = .ok g s ∧
      explore name utility conversions g.1 s = .ok u r' := by
  rw [explore, TableSource.explore] at h
  exact Resolution.bind_eq_ok_iff.mp h

theorem closeClass_eq_ok_iff :
    closeClass name utility conversions r = .ok u r' ↔ ∃ d types, r.get? name = some d ∧
      r.ancestors d = .ok types ∧
      explore name utility conversions (startFrontier r conversions types) r = .ok u r' := by
  unfold closeClass TableSource.closeClass
  simp only [Resolution.bind_eq_ok_iff, Resolution.inspect_eq_ok_iff, Resolution.get_eq_ok_iff,
    Registry.require_eq_ok_iff]
  constructor
  · rintro ⟨d, _, ⟨hd, rfl⟩, types, _, ⟨ht, rfl⟩, _, _, ⟨rfl, rfl⟩, h⟩
    exact ⟨d, types, hd, ht, h⟩
  · rintro ⟨d, types, hd, ht, h⟩
    exact ⟨d, r, ⟨hd, rfl⟩, types, r, ⟨ht, rfl⟩, r, r, ⟨rfl, rfl⟩, h⟩

end Exploration

end FluentGrammar
