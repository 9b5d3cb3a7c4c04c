import FluentGrammar.Proofs.ConversionStep
import FluentGrammar.Proofs.FinalTables
import FluentGrammar.Proofs.Foundation

/-!
# Tables are asked for in founded registries only

Once the declarations are loaded, every definition has known ancestors, so the registry is founded.
Later stages add parents at two places: an anonymous class inherits from the target of its rule, and
a class gains an interface by a conversion. In between, while a class has its new interface, the
registry need not be founded. But the ancestors of the class are looked for before its table is, and
they are not found if the interface closes a cycle or leads to an unknown name.

* `TableSource.Faithful`: a source that gives the tables of founded registries, and anything else
  elsewhere.
* **`laterStages_founded`**: stages cannot tell a faithful source from the tables of the registry.
-/

namespace FluentGrammar

variable {ε α β : Type}

theorem Except.bind_congr_ok {x : Except ε α} {f g : α → Except ε β}
    (h : ∀ a, x = .ok a → f a = g a) : (x >>= f) = (x >>= g) := by
  cases x with
  | error e => rfl
  | ok a => exact h a rfl

/-! ## What a source gives in a founded registry -/

namespace TableSource

variable {tables : TableSource} {r : Registry} {d : Definition} {settings : Settings}

/-- In founded registries the source gives the tables of all definitions that are registered. -/
def Faithful (tables : TableSource) : Prop :=
  ∀ r d, r.Founded → r.get? d.name = some d → tables r d = r.allMethods d

theorem Faithful.of_get? (ht : tables.Faithful) (hr : r.Founded) {name : String}
    (hd : r.get? name = some d) : tables r d = r.allMethods d :=
  ht r d hr (by rwa [Registry.name_of_get? hd])

section Pure

variable (ht : tables.Faithful) (hr : r.Founded)
include ht hr

theorem anonymousFor_eq {rule : ProductionRule} {kind name : String} :
    tables.anonymousFor r settings rule kind name =
      FluentGrammar.anonymousFor r settings rule kind name := by
  unfold FluentGrammar.anonymousFor anonymousFor
  refine Except.bind_congr_ok fun target htarget => ?_
  rw [ht.of_get? hr (Registry.require_eq_ok_iff.mp htarget)]

theorem settledMethods_eq {name : String} (hd : r.get? name = some d) :
    tables.settledMethods r d = FluentGrammar.settledMethods r d := by
  rw [FluentGrammar.settledMethods, settledMethods, settledMethods, ht.of_get? hr hd]

theorem richness_eq {result : TypeExpr} :
    tables.richness r result = FluentGrammar.richness r result := by
  unfold FluentGrammar.richness richness
  cases hd : r.get? result.name with
  | none => rfl
  | some d =>
    dsimp only
    rw [ht.of_get? hr hd]

theorem memberFor?_eq {name : String} (hd : r.get? name = some d) {ms : List Method} :
    tables.memberFor? r d ms = FluentGrammar.memberFor? r d ms := by
  have hselect : tables.select r d ms = FluentGrammar.select r d ms := by
    have hrichness : tables.richness r = FluentGrammar.richness r :=
      funext fun _ => richness_eq ht hr
    unfold FluentGrammar.select select
    exact hrichness ▸ rfl
  unfold FluentGrammar.memberFor? memberFor?
  rw [hselect]
  exact ht.of_get? hr hd ▸ rfl

theorem allTests_eq : tables.allTests r settings = FluentGrammar.allTests r settings := by
  have htests : ∀ d ∈ r.classes.filter (·.name ≠ r.utility),
      tables.classTests r settings d = FluentGrammar.classTests r settings d := by
    intro d hd
    have hmem : d ∈ r.definitions := List.mem_of_mem_filter (List.mem_of_mem_filter hd)
    have hget := Registry.get?_of_nodup hr.nodup (List.mem_append_left r.anonymous hmem)
    rw [FluentGrammar.classTests, classTests, classTests, ht.of_get? hr hget]
  unfold FluentGrammar.allTests allTests
  dsimp only
  rw [Except.mapM_congr htests]

end Pure

end TableSource

/-! ## Changes that stages make -/

section Changes

variable {r r' : Registry} {name : String} {d : Definition} {settings : Settings}

/-- A founded registry in which the definition of one name was changed. -/
def Registry.FoundedOff (name : String) (r' : Registry) : Prop :=
  ∃ r : Registry, r.Founded ∧ r'.names = r.names ∧ AgreesOff name r r'

theorem Registry.FoundedOff.founded (h : FoundedOff name r) (hd : r.get? name = some d)
    {types : List TypeExpr} (ha : r.ancestors d = .ok types) : r.Founded := by
  obtain ⟨s, hs, hnames, hoff⟩ := h
  exact hs.of_ancestors hnames hoff hd ha

theorem addUtilityImports_founded (imports : OrderedSet String) :
    Preserves Registry.Founded (addUtilityImports imports) :=
  .modify fun _ hr => hr.modify (fun _ => id) fun _ _ _ => id

theorem promoteMethod_founded (hr : r.Founded) {m : Method} {u : Unit}
    (h : promoteMethod m r = .ok u r') : r'.Founded := by
  rcases promoteMethod_cases h with rfl | ⟨d, _, member, _, _, hadd⟩
  · exact hr
  · have hnoted : (r.recordPromotion m d.name member).Founded := hr.of_eq rfl rfl
    exact hnoted.addMethod hadd

theorem founded_documentRules (hr : r.Founded) : (documentRules r).Founded := by
  have hframe : List.Forall₂ Definition.SameFrame r.definitions (documentRules r).definitions :=
    forall₂_documentRules fun _ _ => ⟨rfl, rfl, rfl⟩
  have hsame : List.Forall₂ Definition.SameFrame r.anonymous (documentRules r).anonymous :=
    List.forall₂_same.mpr fun d _ => .refl d
  refine hr.of_sameFrame ?_ (Registry.related_of_forall₂ (fun _ _ => (·.name)) hframe hsame)
  rw [Registry.names, Registry.names, List.map_append, List.map_append,
    Registry.names_of_forall₂ (fun _ _ => (·.name)) hframe]
  rfl

theorem founded_documentPromotions (hr : r.Founded) : (documentPromotions r).Founded :=
  documentPromotions_induction Registry.Founded
    (fun _ _ hs => hs.modify (fun _ => id) fun _ _ _ => id) hr

end Changes

/-! ## Stages over a faithful source -/

namespace TableSource

variable {tables : TableSource} {settings : Settings}

variable {name utility : String}

section Steps

variable (ht : tables.Faithful)
include ht

theorem handleRule_alike {rule : ProductionRule} :
    Alike Registry.Founded (tables.handleRule settings rule)
      (FluentGrammar.handleRule settings rule) (fun _ => Registry.Founded) := by
  unfold FluentGrammar.handleRule handleRule
  refine Alike.bind (.inspect fun _ _ => rfl) fun kind => ?_
  refine Alike.bind .get fun s => Alike.bind .get fun _ => ?_
  refine Alike.bind (.modify (S := Registry.Founded) fun r hr => hr.1.1.1.of_eq rfl rfl) fun _ => ?_
  refine Alike.located ?_
  refine Alike.bind (.inspect fun r hr => anonymousFor_eq ht hr) fun anonymous => ?_
  refine Alike.bind (R := fun _ => Registry.Founded) (.refl ?_) fun _ => ?_
  · rintro r _ r' ⟨hr, hanonymous⟩ h
    refine hr.addAnonymous h fun t htarget => ?_
    rw [(adds_anonymousFor hanonymous).frame.supertypes] at htarget
    obtain rfl := List.mem_singleton.mp htarget
    obtain ⟨target, hrequire, _⟩ := Except.bind_eq_ok_iff.mp hanonymous
    exact Registry.mem_names_of_get? (Registry.require_eq_ok_iff.mp hrequire)
  refine Alike.bind (R := fun _ => Registry.Founded) ?_ fun _ => ?_
  · cases conversionFor? rule _ with
    | none => exact Alike.pure fun _ hr => hr
    | some c => exact Alike.modify fun r hr => hr.of_eq rfl rfl
  refine Alike.bind (R := fun _ => Registry.Founded) (.refl ?_) fun _ =>
    Alike.modify fun r hr => hr.of_eq rfl rfl
  intro r _ r' hr h
  unfold addFactory at h
  split at h
  · exact hr.addExplicit h
  · exact hr.addMethod h

/-- The two tables are asked for before the class has its new interface and once its ancestors are
found with it. -/
theorem gainInterface_alike {via target : TypeExpr} {c : Conversion} :
    Alike Registry.Founded (tables.gainInterface name utility via target c)
      (FluentGrammar.gainInterface name utility via target c) (fun _ => Registry.Founded) := by
  have hname : ∀ d : Definition, d.name = name → (d.addInterface target).name = name :=
    fun d hd => (Definition.name_addInterface target).trans hd
  unfold FluentGrammar.gainInterface gainInterface
  refine Alike.bind (.inspect fun _ _ => rfl) fun old => ?_
  refine Alike.bind (.inspect fun _ _ => rfl) fun before => ?_
  refine Alike.bind (.inspect fun r hr => ?_) fun known => ?_
  · exact ht.of_get? hr.1.1 (Registry.require_eq_ok_iff.mp hr.1.2)
  refine Alike.bind (.modify (S := Registry.FoundedOff name) fun r hr => ?_) fun _ => ?_
  · exact ⟨r, hr.1.1.1, Registry.names_modify hname, Registry.agreesOff_modify hname⟩
  refine Alike.bind (.inspect fun _ _ => rfl) fun d => ?_
  refine Alike.bind (R := fun _ r => r.Founded ∧ r.get? name = some d)
    (Alike.imp (.inspect fun _ _ => rfl) (fun _ => id) ?_) fun after => ?_
  · rintro _ r ⟨⟨hr, hd⟩, hancestors⟩
    have hd := Registry.require_eq_ok_iff.mp hd
    exact ⟨hr.founded hd hancestors, hd⟩
  refine Alike.bind (.inspect fun _ _ => rfl) fun redundant => ?_
  refine Alike.bind (.inspect fun r hr => ht.of_get? hr.1.1 hr.1.2) fun table => ?_
  refine Alike.bind .check fun methods => ?_
  refine Alike.bind (.modify (S := Registry.Founded) fun r hr => ?_) fun _ => ?_
  · exact hr.1.1.1.1.modify (fun _ => id) fun d _ => d.supertypes_removeInterfaces_addPaths _ _
  refine Alike.bind (.forM fun m _ => ?_) fun _ => Alike.pure fun _ hr => hr
  exact .refl fun r _ r' hr h => hr.addMethod h

theorem implementClass_alike : Alike Registry.Founded (tables.implementClass name)
    (FluentGrammar.implementClass name) (fun _ => Registry.Founded) := by
  unfold FluentGrammar.implementClass implementClass
  refine Alike.bind (.unlocated (.inspect fun _ _ => rfl)) fun d => Alike.located ?_
  refine Alike.bind (.inspect fun r hr => ?_) fun methods => ?_
  · exact settledMethods_eq ht hr.1 (Registry.require_eq_ok_iff.mp hr.2)
  refine Alike.imp (.forM fun m _ => ?_) (fun _ hr => hr.1.1) fun _ _ => id
  exact .refl fun r _ r' hr h => hr.addMethod h

theorem selectFor_alike {group : String × List Method} :
    Alike Registry.Founded (tables.selectFor name group) (FluentGrammar.selectFor name group)
      (fun _ => Registry.Founded) := by
  unfold FluentGrammar.selectFor selectFor
  refine Alike.bind (.unlocated (.inspect fun _ _ => rfl)) fun d => ?_
  split
  · exact Alike.pure fun _ hr => hr.1
  · refine Alike.located (Alike.bind (.inspect fun r hr => ?_) fun member => ?_)
    · exact memberFor?_eq ht hr.1 (Registry.require_eq_ok_iff.mp hr.2)
    cases member with
    | none => exact Alike.pure fun _ hr => hr.1.1
    | some member =>
      refine Alike.bind (.modify (S := Registry.Founded) fun r hr => hr.1.1.of_eq rfl rfl) fun _ => ?_
      exact .refl fun r _ r' hr h => hr.addMethod h

theorem finish_alike : Alike Registry.Founded (tables.finish settings)
    (FluentGrammar.finish settings) (fun _ => Registry.Founded) := by
  unfold FluentGrammar.finish finish
  refine Alike.bind (.modify fun r hr => founded_documentRules hr) fun _ => ?_
  refine Alike.bind (.modify fun r hr => founded_documentPromotions hr) fun _ => ?_
  refine Alike.unlocated (Alike.bind (.inspect fun r hr => allTests_eq ht hr) fun tests => ?_)
  refine Alike.imp (.forM fun d _ => .refl fun r _ r' hr h => ?_) (fun _ hr => hr.1) fun _ _ => id
  obtain ⟨-, rfl⟩ := addTestInterface_eq_ok_iff.mp h
  exact hr.of_eq rfl rfl

theorem run_alike {units : List CompilationUnit} {stage : Stage}
    (hi : stage ≠ .loadInterfaces) (hc : stage ≠ .loadClasses) :
    Alike Registry.Founded (tables.run settings units stage) (stage.run settings units)
      (fun _ => Registry.Founded) := by
  refine fun start hstart => Stage.run_alike (P := Registry.Founded) ?_ start ⟨hstart, rfl⟩
  cases stage with
  | loadInterfaces => exact absurd rfl hi
  | loadClasses => exact absurd rfl hc
  | productionRules =>
    exact fun unit _ => ⟨addUtilityImports_founded _, fun rule _ => handleRule_alike ht⟩
  | explicitMethods =>
    exact fun unit _ => ⟨addUtilityImports_founded _, fun m _ _ =>
      .refl fun r _ r' hr h => hr.addExplicit h⟩
  | conversionClosure => exact fun d _ _ via target c _ => gainInterface_alike ht
  | interfaceEnhancement => exact fun m _ => .refl fun r _ r' hr h => promoteMethod_founded hr h
  | implementMethods => exact fun sorted _ name _ => implementClass_alike ht
  | ambiguityResolution => exact fun name _ group _ => selectFor_alike ht
  | finalize => exact finish_alike ht

end Steps

end TableSource

/-! ## From loading on -/

section Runs

variable {r r' : Registry} {settings : Settings} {units : List CompilationUnit} {d : Definition}

/-- Names are given once, and there are no anonymous classes yet. -/
def Registry.Loading (r : Registry) : Prop :=
  r.names.Nodup ∧ r.anonymous = []

theorem Registry.Loading.addDefinition (hr : r.Loading) {u : Unit}
    (h : Resolution.addDefinition d r = .ok u r') : r'.Loading := by
  obtain ⟨hnodup, hanonymous⟩ := hr
  obtain ⟨-, hnew, -, rfl⟩ := Resolution.addDefinition_eq_ok_iff.mp h
  refine ⟨?_, hanonymous⟩
  rw [Registry.names, hanonymous, List.append_nil] at hnodup ⊢
  rw [List.map_append]
  exact List.nodup_append_comm.mp (List.nodup_cons.mpr ⟨hnew, hnodup⟩)

theorem loading_of_loadInterfaces {u : Unit} (hr : r.Loading)
    (h : loadInterfaces settings units r = .ok u r') : r'.Loading := by
  refine Resolution.forM_induction Registry.Loading (fun d _ s t _ hs hd => ?_) hr h
  obtain ⟨e, -, -, hadd⟩ := loadInterface_eq_ok hd
  exact hs.addDefinition hadd

theorem founded_of_loadClasses {u : Unit} (hr : r.Loading) (h : loadClasses units r = .ok u r') :
    r'.Founded := by
  unfold loadClasses at h
  simp only [Resolution.bind_eq_ok_iff, Resolution.get_eq_ok_iff] at h
  obtain ⟨_, s, hload, _, _, ⟨rfl, rfl⟩, hcheck⟩ := h
  have hs : s.Loading := by
    refine Resolution.forM_induction Registry.Loading (fun d _ s t _ hs hd => ?_) hr hload
    exact hs.addDefinition (Resolution.located_eq_ok_iff.mp hd)
  obtain ⟨rfl, hancestors⟩ := checkAncestors_spec hcheck
  refine Registry.founded_of_forall_ancestors hs.1 fun d hd => ?_
  rw [hs.2, List.append_nil] at hd
  exact hancestors d hd

theorem founded_of_load {u : Unit} (h : [Stage.loadInterfaces, .loadClasses].forM
    (Stage.run settings units) (Registry.empty settings.utilityClass) = .ok u r) : r.Founded := by
  simp only [Resolution.forM_cons_eq_ok_iff, Resolution.forM_nil_eq_ok_iff] at h
  obtain ⟨s, hinterfaces, _, hclasses, rfl⟩ := h
  have hempty : (Registry.empty settings.utilityClass).Loading := by
    simp [Registry.Loading, Registry.names, Registry.empty]
  exact founded_of_loadClasses (loading_of_loadInterfaces hempty hinterfaces) hclasses

/-- **Tables are made where inheritance is well-founded.** Let the declarations of any units be
loaded, and let any stages follow.

The loaded registry is founded, and so is the one the stages end with. In between, tables are asked
for in founded registries and of registered definitions only: the stages take them from a source, and
one that gives the right tables there and answers as it likes elsewhere, say by a fault, leads to the
same outcome. And there the recursion along parents ends by itself, without a look at where it has
been: it is never deeper than there are names. -/
theorem laterStages_founded {u : Unit} (hload : [Stage.loadInterfaces, .loadClasses].forM
      (Stage.run settings units) (Registry.empty settings.utilityClass) = .ok u r)
    (stages : List Stage) (hi : Stage.loadInterfaces ∉ stages) (hc : Stage.loadClasses ∉ stages) :
    r.Founded ∧
    (∀ v r', stages.forM (Stage.run settings units) r = .ok v r' → r'.Founded) ∧
    TableSource.run Registry.allMethods settings units = Stage.run settings units ∧
    (∀ tables : TableSource, tables.Faithful →
      stages.forM (tables.run settings units) r = stages.forM (Stage.run settings units) r) ∧
    ∀ (s : Registry) (d : Definition), s.Founded → s.get? d.name = some d →
      ∀ depth, s.names.length ≤ depth → s.tableWithin depth d = some (s.allMethods d) := by
  have hr := founded_of_load hload
  have halike : ∀ tables : TableSource, tables.Faithful → Alike Registry.Founded
      (stages.forM (tables.run settings units)) (stages.forM (Stage.run settings units))
      (fun _ => Registry.Founded) := by
    refine fun tables ht => Alike.forM fun stage hstage => TableSource.run_alike ht ?_ ?_
    · rintro rfl
      exact hi hstage
    · rintro rfl
      exact hc hstage
  refine ⟨hr, ?_, rfl, fun tables ht => (halike tables ht r hr).1, ?_⟩
  · exact (halike Registry.allMethods (fun _ _ _ _ => rfl) r hr).2
  · exact fun s d hs hd depth hdepth => hs.tableWithin_eq hd hdepth

/-- Two interfaces that are made of each other, and a class that implements the first. -/
def Tree.mutualConversions : Tree :=
  node "Unit"
    [interfaceNode "A" [] [leaf "Archetype" "Sql"], interfaceNode "B" [] [leaf "Archetype" "Sql"],
     classNode ["abstract"] "C" [] none [("A", [])] [],
     conversionNode "B" "A", conversionNode "A" "B"]

/-- Conversions in a circle make no circle of parents. The class gains `B`, the two anonymous
classes are registered, and the recursion is never deeper than the six names. -/
theorem laterStages_founded_mutual_conversions :
    ∃ units r r', readUnits sqlSettings [.mutualConversions] = .ok units ∧
      [Stage.loadInterfaces, .loadClasses].forM (Stage.run sqlSettings units)
        (Registry.empty "Forms") = .ok () r ∧
      (Stage.standard.drop 2).forM (Stage.run sqlSettings units) r = .ok () r' ∧
      (∃ d ∈ r'.classes, d.name = "C" ∧ d.supertypes.map TypeExpr.name = ["A", "B"] ∧
        r'.tableWithin 6 d = some (r'.allMethods d)) ∧
      r'.anonymous.length = 2 ∧ r.Founded ∧ r'.Founded ∧
      ∀ tables : TableSource, tables.Faithful →
        (Stage.standard.drop 2).forM (tables.run sqlSettings units) r =
          (Stage.standard.drop 2).forM (Stage.run sqlSettings units) r := by
  have hrun : resolvesTo [.mutualConversions] (fun r =>
      (∃ d ∈ r.classes, d.name = "C" ∧ d.supertypes.map TypeExpr.name = ["A", "B"]) ∧
      r.anonymous.length = 2 ∧ r.names.length = 6) = true := by
    decide +kernel
  obtain ⟨units, r', hu, _, h, hp⟩ := exists_of_resolvesTo hrun
  obtain ⟨⟨d, hd, hname, hparents⟩, hanonymous, hnames⟩ := of_decide_eq_true hp
  obtain ⟨_, h⟩ := runStages_eq_ok_iff.mp h
  rw [← List.take_append_drop 2 Stage.standard] at h
  obtain ⟨r, hload, hlater⟩ := Resolution.forM_append_eq_ok_iff.mp h
  obtain ⟨hr, hfinal, -, htables, hdepth⟩ :=
    laterStages_founded hload (Stage.standard.drop 2) (by decide) (by decide)
  have hr' := hfinal () r' hlater
  have hget := Registry.get?_of_nodup hr'.nodup
    (List.mem_append_left r'.anonymous (List.mem_of_mem_filter hd))
  exact ⟨units, r, r', hu, hload, hlater,
    ⟨d, hd, hname, hparents, hdepth r' d hr' hget 6 (Nat.le_of_eq hnames)⟩, hanonymous, hr, hr',
    htables⟩

end Runs

end FluentGrammar
