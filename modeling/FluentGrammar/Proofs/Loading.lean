import FluentGrammar.Proofs.StageEvolution

/-!
# Declarations and their loading

Definitions that are read from a tree are well-formed, and so is the registry once they are loaded.
Loading only appends: interfaces with the methods of their archetypes, then classes as they are.

* `Declaration.Proper`: what holds of every declaration that is read.
* `proper_readUnits`: reading gives proper declarations.
* `Registry.withDefinitions`: a registry with more definitions.
* `loadInterfaces_spec`, `loadClasses_spec`, `loaded_of_load`: what the two loading stages register.
* **`grounded_of_load`**: what is loaded is sound and grounded.
-/

namespace FluentGrammar

/-! ## Reading -/

/-- All methods of the definition stem from it. -/
def Definition.OwnsOrigins (d : Definition) : Prop :=
  ∀ m ∈ d.methods.values, m.origin = d.name

/-- Definitions are of their kind and well-formed, and methods are as they are declared. -/
def Declaration.Proper : Declaration → Prop
  | .interface d => d.kind = .interface ∧ d.WellFormed ∧ d.OwnsOrigins
  | .namedClass d => d.kind = .namedClass ∧ d.WellFormed ∧ d.OwnsOrigins
  | .rule _ => True
  | .method m => m.state = .declared

namespace Tree

variable {node : Tree} {d d' : Definition} {kind : Kind}

theorem methodOf_spec {owner : Owner} {m : Method} (h : methodOf owner node = .ok m) :
    m.state = .declared ∧ m.owner = owner ∧ m.origin = owner.name := by
  unfold methodOf at h
  simp only [Except.bind_eq_ok_iff] at h
  obtain ⟨name, _, resultNode, _, params, _, throws, _, result, _, typeParams, _, h⟩ := h
  split at h
  · cases h
  · obtain rfl := Except.pure_eq_ok_iff.mp h
    exact ⟨rfl, rfl, rfl⟩

theorem state_of_methodOf {owner : Owner} {m : Method} (h : methodOf owner node = .ok m) :
    m.state = .declared :=
  (methodOf_spec h).1

theorem adds_of_withMethodNode (h : withMethodNode d node = .ok d') :
    d.Adds (fun m => m.origin = d.name) d' := by
  obtain ⟨m, hm, h⟩ := Except.bind_eq_ok_iff.mp h
  obtain ⟨hstate, howner, horigin⟩ := methodOf_spec hm
  refine Definition.adds_of_addMethod (Except.mapError_eq_ok_iff.mp h)
    (Method.fits_of_declared hstate) ?_
  rw [Method.reown, howner, horigin, if_pos rfl]
  rfl

theorem adds_of_foldlM_withMethodNode {nodes : List Tree}
    (h : nodes.foldlM withMethodNode d = .ok d') : d.Adds (fun m => m.origin = d.name) d' := by
  induction nodes generalizing d with
  | nil =>
    obtain rfl := Except.pure_eq_ok_iff.mp h
    exact .refl _ d
  | cons n nodes ih =>
    obtain ⟨e, he, h⟩ := Except.bind_eq_ok_iff.mp h
    have hadds := adds_of_withMethodNode he
    exact hadds.trans (hadds.frame.name ▸ ih h)

theorem sameFrame_of_withMembers (h : node.withMembers d = .ok d') :
    d.SameFrame d' ∧ (d.WellFormed → d'.WellFormed) := by
  obtain ⟨e, he, h⟩ := Except.bind_eq_ok_iff.mp h
  obtain rfl := Except.pure_eq_ok_iff.mp h
  have hadds := adds_of_foldlM_withMethodNode he
  exact ⟨hadds.frame.trans ⟨rfl, rfl, rfl⟩,
    fun hd => (hadds.wellFormed hd).congr ⟨rfl, rfl, rfl⟩ rfl⟩

theorem ownsOrigins_of_withMembers (hd : d.methods = ∅) (h : node.withMembers d = .ok d') :
    d'.OwnsOrigins := by
  obtain ⟨e, he, h⟩ := Except.bind_eq_ok_iff.mp h
  obtain rfl := Except.pure_eq_ok_iff.mp h
  have hadds := adds_of_foldlM_withMethodNode he
  obtain ⟨more, hmore, hall⟩ := hadds.methods
  rw [hd] at hmore
  intro m hm
  obtain ⟨entry, hentry, rfl⟩ := List.mem_map.mp hm
  obtain ⟨n, hn, rfl⟩ := List.mem_map.mp (hmore ▸ hentry)
  exact (hall n hn).2.trans hadds.frame.name.symm

/-- A definition of the given kind before its members are read. -/
def Plain (kind : Kind) (d : Definition) : Prop :=
  d.kind = kind ∧ d.methods = ∅

theorem Plain.extending (h : Plain kind d) (t : TypeExpr) : Plain kind (d.extending t) := by
  obtain ⟨hk, hm⟩ := h
  refine ⟨?_, hm⟩
  rw [← hk, Definition.kind, Definition.kind, Definition.extending]
  cases d.shape <;> rfl

theorem Plain.implementing (h : Plain kind d) (t : TypeExpr) : Plain kind (d.implementing t) := by
  obtain ⟨hk, hm⟩ := h
  refine ⟨?_, hm⟩
  rw [← hk, Definition.kind, Definition.kind, Definition.implementing]
  cases d.shape <;> rfl

theorem Plain.withArchetype (h : Plain kind d) (archetype : String) :
    Plain kind (d.withArchetype archetype) := by
  obtain ⟨hk, hm⟩ := h
  refine ⟨?_, hm⟩
  rw [← hk, Definition.kind, Definition.kind, Definition.withArchetype]
  cases d.shape <;> rfl

theorem Plain.foldl {f : Definition → TypeExpr → Definition}
    (hf : ∀ d t, Plain kind d → Plain kind (f d t)) (ts : List TypeExpr) (h : Plain kind d) :
    Plain kind (ts.foldl f d) := by
  induction ts generalizing d with
  | nil => exact h
  | cons t ts ih => exact ih (hf d t h)

theorem Plain.withHeader (h : Plain kind d) (hd : node.withHeader d = .ok d') : Plain kind d' := by
  obtain ⟨typeParams, _, hd⟩ := Except.bind_eq_ok_iff.mp hd
  obtain rfl := Except.pure_eq_ok_iff.mp hd
  exact h

theorem Plain.withMembers (h : Plain kind d) (hd : node.withMembers d = .ok d') :
    d'.kind = kind ∧ d'.WellFormed ∧ d'.OwnsOrigins := by
  obtain ⟨hf, hwf⟩ := sameFrame_of_withMembers hd
  refine ⟨hf.kind.trans h.1, hwf fun e he => ?_, ownsOrigins_of_withMembers h.2 hd⟩
  rw [h.2] at he
  cases he

theorem proper_interfaceOf (h : node.interfaceOf = .ok d) : (Declaration.interface d).Proper := by
  unfold interfaceOf at h
  simp only [Except.bind_eq_ok_iff] at h
  obtain ⟨name, _, header, hheader, parents, _, h⟩ := h
  have hplain : Plain .interface (parents.foldl Definition.extending header) :=
    .foldl (fun _ t h => h.extending t) parents (.withHeader ⟨rfl, rfl⟩ hheader)
  refine Plain.withMembers ?_ h
  cases node.valueOf? "Archetype" with
  | none => exact hplain
  | some archetype => exact hplain.withArchetype archetype

theorem proper_classOf (h : node.classOf = .ok d) : (Declaration.namedClass d).Proper := by
  unfold classOf at h
  obtain ⟨name, _, h⟩ := Except.bind_eq_ok_iff.mp h
  obtain ⟨header, hheader, h⟩ := Except.bind_eq_ok_iff.mp h
  dsimp only at h
  split at h
  · cases h
  · simp only [Except.bind_eq_ok_iff] at h
    obtain ⟨superclass, _, interfaces, _, h⟩ := h
    refine Plain.withMembers ?_ h
    exact .foldl (fun _ t h => h.implementing t) interfaces
      (.foldl (fun _ t h => h.extending t) superclass (.withHeader ⟨rfl, rfl⟩ hheader))

/-- A child of a unit is read as a declaration. -/
inductive Denotes (utility : Owner) (child : Tree) : Declaration → Prop
  | interface {d : Definition} (h : child.interfaceOf = .ok d) : Denotes utility child (.interface d)
  | namedClass {d : Definition} (h : child.classOf = .ok d) : Denotes utility child (.namedClass d)
  | rule {rule : ProductionRule} (h : child.ruleOf = .ok rule) : Denotes utility child (.rule rule)
  | method {m : Method} (h : methodOf utility child = .ok m) : Denotes utility child (.method m)

theorem declarations_of_withChild {utility : Owner} {unit unit' : CompilationUnit} {child : Tree}
    (h : withChild utility unit child = .ok unit') : ∀ decl ∈ unit'.declarations,
      decl ∈ unit.declarations ∨ Denotes utility child decl := by
  have hdeclare : ∀ e, Denotes utility child e → ∀ decl ∈ (declare unit e).declarations,
      decl ∈ unit.declarations ∨ Denotes utility child decl := by
    intro e he decl hdecl
    rcases List.mem_append.mp hdecl with hdecl | hdecl
    · exact .inl hdecl
    · exact .inr (List.mem_singleton.mp hdecl ▸ he)
  unfold withChild at h
  split at h
  · obtain rfl := Except.pure_eq_ok_iff.mp h
    exact fun decl hdecl => .inl hdecl
  · obtain ⟨d, hd, h⟩ := Except.bind_eq_ok_iff.mp h
    obtain rfl := Except.pure_eq_ok_iff.mp h
    exact hdeclare _ (.interface hd)
  · obtain ⟨d, hd, h⟩ := Except.bind_eq_ok_iff.mp h
    obtain rfl := Except.pure_eq_ok_iff.mp h
    exact hdeclare _ (.namedClass hd)
  · obtain ⟨rule, hrule, h⟩ := Except.bind_eq_ok_iff.mp h
    obtain rfl := Except.pure_eq_ok_iff.mp h
    exact hdeclare _ (.rule hrule)
  · obtain ⟨m, hm, h⟩ := Except.bind_eq_ok_iff.mp h
    obtain rfl := Except.pure_eq_ok_iff.mp h
    exact hdeclare _ (.method hm)
  · cases h

theorem exists_denotes_of_unitOf {utility : Owner} {unit : CompilationUnit}
    (h : unitOf utility node = .ok unit) : ∀ decl ∈ unit.declarations, ∃ child read imports,
      Denotes utility child read ∧ decl = withImports imports read := by
  unfold unitOf at h
  split at h
  · cases h
  · obtain ⟨last, hread, h⟩ := Except.bind_eq_ok_iff.mp h
    obtain rfl := Except.pure_eq_ok_iff.mp h
    have hall : ∀ decl ∈ last.declarations, ∃ child, Denotes utility child decl := by
      have hstart : ∀ decl ∈ (⟨∅, []⟩ : CompilationUnit).declarations,
          ∃ child, Denotes utility child decl := by simp
      generalize (⟨∅, []⟩ : CompilationUnit) = start at hread hstart
      generalize node.children = children at hread
      induction children generalizing start with
      | nil =>
        obtain rfl := Except.pure_eq_ok_iff.mp hread
        exact hstart
      | cons child children ih =>
        obtain ⟨next, hnext, hread⟩ := Except.bind_eq_ok_iff.mp hread
        refine ih next (fun decl hdecl => ?_) hread
        exact (declarations_of_withChild hnext decl hdecl).elim (hstart decl) fun h => ⟨child, h⟩
    intro decl hdecl
    obtain ⟨read, hmem, rfl⟩ := List.mem_map.mp hdecl
    obtain ⟨child, hchild⟩ := hall read hmem
    exact ⟨child, read, _, hchild, rfl⟩

theorem proper_unitOf {utility : Owner} {unit : CompilationUnit}
    (h : unitOf utility node = .ok unit) : ∀ d ∈ unit.declarations, d.Proper := by
  intro decl hdecl
  obtain ⟨child, read, imports, hchild, rfl⟩ := exists_denotes_of_unitOf h decl hdecl
  cases hchild with
  | interface hd =>
    obtain ⟨hkind, hwf, horigins⟩ := proper_interfaceOf hd
    exact ⟨hkind, hwf.congr ⟨rfl, rfl, rfl⟩ rfl, horigins⟩
  | namedClass hd =>
    obtain ⟨hkind, hwf, horigins⟩ := proper_classOf hd
    exact ⟨hkind, hwf.congr ⟨rfl, rfl, rfl⟩ rfl, horigins⟩
  | rule => trivial
  | method hm => exact state_of_methodOf hm

end Tree

theorem proper_of_unitOf {units : List CompilationUnit}
    (hu : ∀ unit ∈ units, ∃ utility tree, Tree.unitOf utility tree = .ok unit) :
    ∀ unit ∈ units, ∀ d ∈ unit.declarations, d.Proper := by
  intro unit hunit
  obtain ⟨utility, tree, htree⟩ := hu unit hunit
  exact Tree.proper_unitOf htree

theorem exists_tree_of_readUnits {settings : Settings} {trees : List Tree}
    {units : List CompilationUnit} (h : readUnits settings trees = .ok units) :
    ∀ unit ∈ units, ∃ utility tree, Tree.unitOf utility tree = .ok unit := by
  intro unit hunit
  obtain ⟨tree, _, htree⟩ := Except.exists_of_mem_mapM h unit hunit
  exact ⟨_, tree, htree⟩

theorem proper_readUnits {settings : Settings} {trees : List Tree} {units : List CompilationUnit}
    (h : readUnits settings trees = .ok units) :
    ∀ unit ∈ units, ∀ d ∈ unit.declarations, d.Proper :=
  proper_of_unitOf (exists_tree_of_readUnits h)

section Units

variable {units : List CompilationUnit} {d : Definition}
  (hp : ∀ unit ∈ units, ∀ d ∈ unit.declarations, d.Proper)
include hp

theorem proper_of_mem_interfaces (hd : d ∈ units.flatMap CompilationUnit.interfaces) :
    d.kind = .interface ∧ d.WellFormed ∧ d.OwnsOrigins := by
  obtain ⟨unit, hunit, hd⟩ := List.mem_flatMap.mp hd
  obtain ⟨decl, hdecl, he⟩ := List.mem_filterMap.mp hd
  cases decl with
  | interface e =>
    cases he
    exact hp unit hunit _ hdecl
  | namedClass | rule | method => cases he

theorem proper_of_mem_classes (hd : d ∈ units.flatMap CompilationUnit.classes) :
    d.kind = .namedClass ∧ d.WellFormed ∧ d.OwnsOrigins := by
  obtain ⟨unit, hunit, hd⟩ := List.mem_flatMap.mp hd
  obtain ⟨decl, hdecl, he⟩ := List.mem_filterMap.mp hd
  cases decl with
  | namedClass e =>
    cases he
    exact hp unit hunit _ hdecl
  | interface | rule | method => cases he

theorem declaredMethods_of_proper : DeclaredMethods units := by
  intro unit hunit m hm
  obtain ⟨decl, hdecl, he⟩ := List.mem_filterMap.mp hm
  cases decl with
  | method n =>
    cases he
    exact hp unit hunit _ hdecl
  | interface | namedClass | rule => cases he

end Units

/-! ## Loading -/

section Load

variable {r r' : Registry} {settings : Settings} {d d' : Definition}

theorem sound_empty (utility : String) : (Registry.empty utility).Sound where
  nodup := by simp [Registry.names, Registry.empty]
  wellFormed d hd e he := by
    obtain rfl : d = _ := List.mem_singleton.mp hd
    cases he
  named d hd := by
    obtain rfl : d = _ := List.mem_singleton.mp hd
    simp [Definition.kind, Definition.withWords, Definition.namedClass, Definition.make]
  unnamed d hd := by cases hd
  tests d hd := by cases hd
  utility := ⟨_, List.mem_singleton_self _, rfl, rfl, fun m hm => by cases hm⟩

/-- The registry with more definitions, and with their names in the table of upper-case forms. -/
def Registry.withDefinitions (r : Registry) (ds : List Definition) : Registry :=
  { r with
    definitions := r.definitions ++ ds
    foldedNames := ds.foldl (fun t d => t.insert (Text.upperCase d.name) d.name) r.foldedNames }

theorem Registry.withDefinitions_nil (r : Registry) : r.withDefinitions [] = r := by
  simp [withDefinitions]

theorem Registry.withDefinitions_cons (r : Registry) (d : Definition) (ds : List Definition) :
    r.withDefinitions (d :: ds) = (r.withDefinitions [d]).withDefinitions ds := by
  simp [withDefinitions]

theorem Registry.utilityClass?_withDefinitions {u : Definition} (hu : r.utilityClass? = some u)
    (ds : List Definition) : (r.withDefinitions ds).utilityClass? = some u := by
  unfold utilityClass? at hu ⊢
  rw [withDefinitions, List.find?_append, hu, Option.some_or]

theorem sound_addDefinition (hs : r.Sound) (ha : r.anonymous = []) (hd : d.WellFormed) {u : Unit}
    (h : Resolution.addDefinition d r = .ok u r') : r' = r.withDefinitions [d] ∧ r'.Sound := by
  obtain ⟨hk, hn, -, rfl⟩ := Resolution.addDefinition_eq_ok_iff.mp h
  refine ⟨rfl, ?_, fun e he => ?_, fun e he => ?_, hs.unnamed, hs.tests, ?_⟩
  · have hnodup := hs.nodup
    simp only [Registry.names, ha, List.append_nil, List.map_append] at hnodup ⊢
    rw [List.nodup_append]
    refine ⟨hnodup, by simp, fun a hmem b hb hab => hn ?_⟩
    obtain rfl : b = d.name := by simpa using hb
    exact hab ▸ hmem
  · simp only [ha, List.append_nil, List.mem_append, List.mem_singleton] at he
    rcases he with he | rfl
    · exact hs.wellFormed e (List.mem_append_left _ he)
    · exact hd
  · rcases List.mem_append.mp he with he | he
    · exact hs.named e he
    · exact List.mem_singleton.mp he ▸ hk
  · obtain ⟨u, hu, hrest⟩ := hs.utility
    exact ⟨u, List.mem_append_left _ hu, hrest⟩

theorem adds_of_withArchetypeMethods (h : withArchetypeMethods settings d = .ok d') :
    d.Adds (fun _ => True) d' := by
  unfold withArchetypeMethods at h
  split at h
  · exact Except.ok.inj h ▸ .refl _ d
  · split at h
    · cases h
    · refine Definition.adds_of_addMethods (Except.mapError_eq_ok_iff.mp h) fun m hm => ?_
      obtain ⟨method, _, rfl⟩ := List.mem_map.mp hm
      exact ⟨Method.fits_of_declared rfl, trivial⟩

theorem loadInterface_eq_ok {u : Unit} (h : loadInterface settings d r = .ok u r') :
    ∃ d', checkReserved settings d = .ok () ∧ withArchetypeMethods settings d = .ok d' ∧
      Resolution.addDefinition d' r = .ok u r' := by
  unfold loadInterface at h
  simp only [Resolution.bind_eq_ok_iff, Resolution.check_eq_ok_iff,
    Resolution.located_eq_ok_iff] at h
  obtain ⟨_, _, ⟨hc, rfl⟩, d', _, ⟨hd', rfl⟩, hadd⟩ := h
  exact ⟨d', hc, hd', hadd⟩

theorem loadInterfaces_spec {ds : List Definition} (hp : ∀ d ∈ ds, d.WellFormed) (hs : r.Sound)
    (ha : r.anonymous = []) {u : Unit} (h : ds.forM (loadInterface settings) r = .ok u r') :
    ∃ loaded, List.Forall₂ Definition.SameFrame ds loaded ∧ r' = r.withDefinitions loaded ∧
      r'.Sound := by
  induction ds generalizing r with
  | nil =>
    obtain rfl := Resolution.forM_nil_eq_ok_iff.mp h
    exact ⟨[], .nil, r.withDefinitions_nil.symm, hs⟩
  | cons d ds ih =>
    obtain ⟨hd, hds⟩ := List.forall_mem_cons.mp hp
    obtain ⟨s, hstep, h⟩ := Resolution.forM_cons_eq_ok_iff.mp h
    obtain ⟨d', -, hd', hadd⟩ := loadInterface_eq_ok hstep
    have hadds := adds_of_withArchetypeMethods hd'
    obtain ⟨rfl, hs'⟩ := sound_addDefinition hs ha (hadds.wellFormed hd) hadd
    obtain ⟨loaded, hloaded, rfl, hs''⟩ := ih hds hs' ha h
    exact ⟨d' :: loaded, .cons hadds.frame hloaded, (r.withDefinitions_cons d' loaded).symm, hs''⟩

theorem addDefinitions_spec {ds : List Definition} (hp : ∀ d ∈ ds, d.WellFormed) (hs : r.Sound)
    (ha : r.anonymous = []) {u : Unit} (h : (ds.forM fun d =>
      Resolution.located d.source (Resolution.addDefinition d)) r = .ok u r') :
    r' = r.withDefinitions ds ∧ r'.Sound := by
  induction ds generalizing r with
  | nil =>
    obtain rfl := Resolution.forM_nil_eq_ok_iff.mp h
    exact ⟨r.withDefinitions_nil.symm, hs⟩
  | cons d ds ih =>
    obtain ⟨hd, hds⟩ := List.forall_mem_cons.mp hp
    obtain ⟨s, hstep, h⟩ := Resolution.forM_cons_eq_ok_iff.mp h
    rw [Resolution.located_eq_ok_iff] at hstep
    obtain ⟨rfl, hs'⟩ := sound_addDefinition hs ha hd hstep
    obtain ⟨rfl, hs''⟩ := ih hds hs' ha h
    exact ⟨(r.withDefinitions_cons d ds).symm, hs''⟩

theorem checkAncestors_spec {ds : List Definition} {u : Unit}
    (h : ds.forM checkAncestors r = .ok u r') :
    r' = r ∧ ∀ d ∈ ds, ∃ types, r.ancestors d = .ok types := by
  induction ds with
  | nil =>
    obtain rfl := Resolution.forM_nil_eq_ok_iff.mp h
    exact ⟨rfl, by simp⟩
  | cons d ds ih =>
    obtain ⟨s, hstep, h⟩ := Resolution.forM_cons_eq_ok_iff.mp h
    rw [checkAncestors, Resolution.located_eq_ok_iff, Resolution.inspect_eq_ok_iff] at hstep
    obtain ⟨hd, rfl⟩ := hstep
    obtain ⟨types, htypes, _⟩ := Except.map_eq_ok_iff.mp hd
    obtain ⟨rfl, hds⟩ := ih h
    exact ⟨rfl, List.forall_mem_cons.mpr ⟨⟨types, htypes⟩, hds⟩⟩

/-- Classes are registered as they are, and then the ancestors of all definitions are known. -/
theorem loadClasses_spec {units : List CompilationUnit}
    (hp : ∀ unit ∈ units, ∀ d ∈ unit.declarations, d.Proper) (hs : r.Sound)
    (ha : r.anonymous = []) {u : Unit} (h : loadClasses units r = .ok u r') :
    r' = r.withDefinitions (units.flatMap CompilationUnit.classes) ∧ r'.Sound ∧
      ∀ d ∈ r'.definitions, ∃ types, r'.ancestors d = .ok types := by
  obtain ⟨_, s, hadd, hrest⟩ := Resolution.bind_eq_ok_iff.mp h
  obtain ⟨_, _, hget, hcheck⟩ := Resolution.bind_eq_ok_iff.mp hrest
  obtain ⟨rfl, rfl⟩ := Resolution.get_eq_ok_iff.mp hget
  obtain ⟨hr', hs'⟩ := addDefinitions_spec (fun d hd => (proper_of_mem_classes hp hd).2.1) hs ha hadd
  obtain ⟨rfl, hall⟩ := checkAncestors_spec hcheck
  exact ⟨hr', hs', hall⟩

/-- **What is loaded**: the utility class, the interfaces with the methods of their archetypes, and
the classes as they are. -/
theorem load_spec {units : List CompilationUnit} {r₁ r₂ : Registry} {u₁ u₂ : Unit}
    (hp : ∀ unit ∈ units, ∀ d ∈ unit.declarations, d.Proper)
    (h₁ : loadInterfaces settings units (Registry.empty settings.utilityClass) = .ok u₁ r₁)
    (h₂ : loadClasses units r₁ = .ok u₂ r₂) :
    ∃ loaded,
      List.Forall₂ Definition.SameFrame (units.flatMap CompilationUnit.interfaces) loaded ∧
      r₁ = (Registry.empty settings.utilityClass).withDefinitions loaded ∧
      r₂ = r₁.withDefinitions (units.flatMap CompilationUnit.classes) ∧
      r₂.Sound ∧ ∀ d ∈ r₂.definitions, ∃ types, r₂.ancestors d = .ok types := by
  obtain ⟨loaded, hframes, rfl, hs₁⟩ := loadInterfaces_spec
    (fun d hd => (proper_of_mem_interfaces hp hd).2.1) (sound_empty _) rfl h₁
  obtain ⟨hr₂, hs₂, hancestors⟩ := loadClasses_spec hp hs₁ rfl h₂
  exact ⟨loaded, hframes, rfl, hr₂, hs₂, hancestors⟩

/-- The interfaces and the classes of all units. -/
def declaredDefinitions (units : List CompilationUnit) : List Definition :=
  units.flatMap CompilationUnit.interfaces ++ units.flatMap CompilationUnit.classes

/-- The registry holds nothing but a class without parents and the declared definitions, and the
ancestors of all are known. -/
structure Registry.Loaded (units : List CompilationUnit) (r : Registry) : Prop where
  anonymous : r.anonymous = []
  conversions : r.conversions = []
  ancestors : ∀ d ∈ r.definitions, ∃ types, r.ancestors d = .ok types
  origin : ∀ d ∈ r.definitions, d.shape = .namedClass none [] ∅ ∨
    ∃ e ∈ declaredDefinitions units, e.SameFrame d

theorem Registry.Loaded.mem_of_get? {units : List CompilationUnit} (hr : r.Loaded units)
    {name : String} (hd : r.get? name = some d) : d ∈ r.definitions := by
  have hmem := Registry.mem_of_get? hd
  rwa [hr.anonymous, List.append_nil] at hmem

theorem loaded_of_load {units : List CompilationUnit} {r₁ r₂ : Registry} {u₁ u₂ : Unit}
    (hp : ∀ unit ∈ units, ∀ d ∈ unit.declarations, d.Proper)
    (h₁ : loadInterfaces settings units (Registry.empty settings.utilityClass) = .ok u₁ r₁)
    (h₂ : loadClasses units r₁ = .ok u₂ r₂) : r₂.Loaded units := by
  obtain ⟨loaded, hframes, rfl, rfl, -, hancestors⟩ := load_spec hp h₁ h₂
  refine ⟨rfl, rfl, hancestors, fun d hd => ?_⟩
  rcases List.mem_append.mp hd with hd | hd
  · rcases List.mem_append.mp hd with hd | hd
    · obtain rfl := List.mem_singleton.mp hd
      exact .inl rfl
    · obtain ⟨e, he, hf⟩ := exists_left_of_forall₂ hframes d hd
      exact .inr ⟨e, List.mem_append_left _ he, hf⟩
  · exact .inr ⟨d, List.mem_append_right _ hd, .refl d⟩

theorem exists_parent_of_ancestors {types : List TypeExpr} (h : r.ancestors d = .ok types)
    {t : TypeExpr} (ht : t ∈ d.supertypes) : ∃ p, r.get? t.name = some p := by
  obtain ⟨us, hus⟩ := Registry.ancestorsVia_of_subset
    (List.cons_subset.mpr ⟨ht, List.nil_subset _⟩) h
  obtain ⟨p, _, _, _, hp, _⟩ := Registry.ancestorsVia_cons_eq_ok_iff.mp hus
  exact ⟨p, hp⟩

theorem supertypes_of_superclass? {t : TypeExpr} (h : d.superclass? = some t) :
    d.supertypes = t :: d.interfaces := by
  rw [Definition.superclass?] at h
  rw [Definition.supertypes, Definition.interfaces]
  cases hshape : d.shape with
  | namedClass superclass interfaces paths =>
    rw [hshape] at h
    cases h
    rfl
  | interface | anonymousClass => simp [hshape] at h

/-- The declared interfaces extend only interfaces. -/
def ExtendsInterfaces (units : List CompilationUnit) : Prop :=
  ∀ d ∈ units.flatMap CompilationUnit.interfaces, ∀ t ∈ d.supertypes,
    ∃ e ∈ units.flatMap CompilationUnit.interfaces, e.name = t.name

instance : DecidablePred ExtendsInterfaces := fun units =>
  inferInstanceAs (Decidable (∀ d ∈ units.flatMap CompilationUnit.interfaces, ∀ t ∈ d.supertypes,
    ∃ e ∈ units.flatMap CompilationUnit.interfaces, e.name = t.name))

/-- **What is loaded is sound and grounded**, if the declared interfaces extend only interfaces. -/
theorem grounded_of_load {units : List CompilationUnit} {r₁ r₂ : Registry} {u₁ u₂ : Unit}
    (hp : ∀ unit ∈ units, ∀ d ∈ unit.declarations, d.Proper) (hi : ExtendsInterfaces units)
    (h₁ : loadInterfaces settings units (Registry.empty settings.utilityClass) = .ok u₁ r₁)
    (h₂ : loadClasses units r₁ = .ok u₂ r₂) : r₂.Sound ∧ r₂.Grounded := by
  obtain ⟨loaded, hloaded, hr₁, hr₂, hs₂, hall⟩ := load_spec hp h₁ h₂
  have ha : r₂.anonymous = [] := by rw [hr₂, hr₁]; rfl
  have hdefs : r₂.definitions = (Registry.empty settings.utilityClass).definitions ++ loaded ++
      units.flatMap CompilationUnit.classes := by rw [hr₂, hr₁]; rfl
  have hinterface : ∀ d ∈ units.flatMap CompilationUnit.interfaces, r₂.HasInterface d.name := by
    intro d hd
    obtain ⟨e, he, hframe⟩ := exists_right_of_forall₂ hloaded d hd
    refine ⟨e, List.mem_filter.mpr ⟨?_, ?_⟩, hframe.name⟩
    · rw [hdefs]
      exact List.mem_append_left _ (List.mem_append_right _ he)
    · simp [Definition.isInterface, hframe.kind, (proper_of_mem_interfaces hp hd).1]
  refine ⟨hs₂, fun d hd t ht => ?_, fun d hd t ht => ?_, fun d hd => ?_⟩
  · obtain ⟨hd, hk⟩ := List.mem_filter.mp hd
    rw [Definition.isInterface, decide_eq_true_eq] at hk
    rw [hdefs] at hd
    rcases List.mem_append.mp hd with hd | hd
    · rcases List.mem_append.mp hd with hd | hd
      · obtain rfl := List.mem_singleton.mp hd
        cases hk
      · obtain ⟨e, he, hframe⟩ := exists_left_of_forall₂ hloaded d hd
        rw [hframe.supertypes] at ht
        obtain ⟨f, hf, hname⟩ := hi e he t ht
        exact hname ▸ hinterface f hf
    · rw [(proper_of_mem_classes hp hd).1] at hk
      cases hk
  · obtain ⟨types, htypes⟩ := hall d hd
    have hmem : t ∈ d.supertypes := by simp [supertypes_of_superclass? ht]
    obtain ⟨p, hp⟩ := exists_parent_of_ancestors htypes hmem
    have hmem := Registry.mem_of_get? hp
    rw [ha, List.append_nil] at hmem
    exact List.mem_map.mpr ⟨p, hmem, Registry.name_of_get? hp⟩
  · rw [ha] at hd
    cases hd

end Load

end FluentGrammar
