import FluentGrammar.Proofs.FinalTables

/-!
# Final methods

The only stage that makes final methods is the selection among explicit methods. Before it, all
methods are declared, or they are made by an archetype, a rule, a promotion or the settling of what
is inherited, and none of these adds the word.

* `Registry.NoFinal`: no stored method is final.
* `Registry.NoFinal.of_mem_allMethods`: then none in a table is.
* **`noFinal_of_runStages`**: there is no final method until explicit methods are selected, if none
  is declared.
-/

namespace FluentGrammar

/-- A method that no subclass may override. -/
def Method.isFinal (m : Method) : Bool :=
  "final" ∈ m.modifiers

namespace Method

variable {m m' b : Method}

theorem isFinal_reown (m : Method) (owner : Owner) : (m.reown owner).isFinal = m.isFinal := rfl

theorem isFinal_eq_false_iff : m.isFinal = false ↔ "final" ∉ m.modifiers := by
  simp [isFinal]

theorem isFinal_of_implement {body : String} (h : m.implement body = .ok m')
    (hm : m.isFinal = false) : m'.isFinal = false := by
  unfold implement at h
  split at h
  · cases h
    rw [isFinal_eq_false_iff] at hm ⊢
    exact fun hmem => hm (OrderedSet.mem_erase.mp hmem).1
  · cases h

theorem isFinal_of_declareAbstract (h : m.declareAbstract = .ok m') (hm : m.isFinal = false) :
    m'.isFinal = false := by
  unfold declareAbstract at h
  split at h
  · cases h
    rw [isFinal_eq_false_iff] at hm ⊢
    dsimp only
    split
    · exact hm
    · rw [OrderedSet.mem_insert]
      exact fun hmem => hm (hmem.resolve_left (by decide))
  · cases h

theorem IsStub.isFinal_eq_false {target : Owner} (h : m.IsStub target b) (hm : m.isFinal = false) :
    b.isFinal = false := by
  rw [isFinal_eq_false_iff] at hm ⊢
  rw [h.modifiers]
  unfold inheritedModifiers
  split
  · exact hm
  all_goals
    dsimp only
    split
    · rw [OrderedSet.mem_insert, OrderedSet.mem_erase]
      exact fun hmem => hm (hmem.resolve_left (by decide)).1
    · rw [OrderedSet.mem_erase]
      exact fun hmem => hm hmem.1

end Method

/-- No method of the definition is final. -/
def Definition.NoFinal (d : Definition) : Prop :=
  ∀ m ∈ d.methods.values, m.isFinal = false

theorem Definition.NoFinal.addMethod {d d' : Definition} (hd : d.NoFinal) {m : Method}
    (hm : m.isFinal = false) (h : d.addMethod m = .ok d') : d'.NoFinal := by
  obtain ⟨hnew, rfl⟩ := addMethod_eq_ok_iff.mp h
  intro e he
  rw [Table.values, Table.entries_insert_of_not_mem hnew, List.map_append] at he
  rcases List.mem_append.mp he with he | he
  · exact hd e he
  · rw [List.mem_singleton.mp he]
    exact hm

theorem Definition.NoFinal.addMethods {d d' : Definition} (hd : d.NoFinal) {ms : List Method}
    (hm : ∀ m ∈ ms, m.isFinal = false) (h : d.addMethods ms = .ok d') : d'.NoFinal := by
  unfold Definition.addMethods at h
  induction ms generalizing d with
  | nil =>
    obtain rfl := Except.pure_eq_ok_iff.mp h
    exact hd
  | cons m ms ih =>
    obtain ⟨e, he, h⟩ := Except.bind_eq_ok_iff.mp h
    obtain ⟨hfirst, hrest⟩ := List.forall_mem_cons.mp hm
    exact ih (hd.addMethod hfirst he) hrest h

namespace Registry

variable {r r' : Registry} {name context : String} {d : Definition} {m : Method}

/-- No stored method is final. -/
def NoFinal (r : Registry) : Prop :=
  ∀ d ∈ r.definitions ++ r.anonymous, d.NoFinal

namespace NoFinal

theorem of_get? (hr : r.NoFinal) (hd : r.get? name = some d) : d.NoFinal :=
  hr d (mem_of_get? hd)

theorem of_eq (hr : r.NoFinal) (hd : r'.definitions = r.definitions)
    (ha : r'.anonymous = r.anonymous) : r'.NoFinal := by
  rwa [NoFinal, hd, ha]

theorem of_mem_allMethods (hr : r.NoFinal) (hd : d.NoFinal) {t : Table Method}
    (h : r.allMethods d = .ok t) : ∀ m ∈ t.values, m.isFinal = false := by
  revert hd
  refine allMethods_induction (motive := fun d t => d.NoFinal → ∀ m ∈ t.values, m.isFinal = false)
    (fun d t h ih hd m hm => ?_) h
  rcases mem_values_allMethods h hm with hmem | ⟨_, parent, hp, p, u, e, hget, hu, he, hover⟩
  · exact hd m hmem
  · obtain ⟨u', hu', hall⟩ := ih parent hp p hget
    cases hu.symm.trans hu'
    exact (isStub_of_overrideFor hover).isFinal_eq_false
      (hall (hr.of_get? hget) e (mem_visible.mp he).1)

theorem modify (hr : r.NoFinal) {f : Definition → Definition}
    (hf : ∀ d ∈ r.definitions ++ r.anonymous, d.NoFinal → (f d).NoFinal) :
    (r.modify name f).NoFinal := by
  have hmap : ∀ ds : List Definition, (∀ d ∈ ds, d ∈ r.definitions ++ r.anonymous) →
      ∀ e ∈ ds.map (fun d => if d.name = name then f d else d), e.NoFinal := by
    intro ds hds e he
    obtain ⟨d, hd, rfl⟩ := List.mem_map.mp he
    split
    · exact hf d (hds d hd) (hr d (hds d hd))
    · exact hr d (hds d hd)
  unfold Registry.modify
  intro e he
  dsimp only at he
  split at he
  all_goals rcases List.mem_append.mp he with he | he
  · exact hmap _ (fun d hd => List.mem_append_left _ hd) e he
  · exact hr e (List.mem_append_right _ he)
  · exact hr e (List.mem_append_left _ he)
  · exact hmap _ (fun d hd => List.mem_append_right _ hd) e he

theorem addMethod (hr : r.NoFinal) (hm : m.isFinal = false) {u : Unit}
    (h : Resolution.addMethod name context m r = .ok u r') : r'.NoFinal := by
  obtain ⟨d, d', hd, hadd, rfl⟩ := Resolution.addMethod_eq_ok_iff.mp h
  exact hr.modify fun _ _ _ => (hr.of_get? hd).addMethod hm hadd

theorem addMethods (hr : r.NoFinal) {ms : List Method} (hm : ∀ m ∈ ms, m.isFinal = false) {u : Unit}
    (h : ms.forM (Resolution.addMethod name context) r = .ok u r') : r'.NoFinal :=
  Resolution.forM_induction NoFinal (fun m hmem _ _ _ hs hstep => hs.addMethod (hm m hmem) hstep)
    hr h

theorem addExplicit (hr : r.NoFinal) (hm : m.isFinal = false) {u : Unit}
    (h : Resolution.addExplicit m r = .ok u r') : r'.NoFinal := by
  obtain ⟨s, hs, rfl⟩ := Resolution.addExplicit_eq_ok_iff.mp h
  exact (hr.addMethod hm hs).of_eq rfl rfl

theorem addAnonymous (hr : r.NoFinal) {factory : Method} (hd : d.NoFinal) {u : Unit}
    (h : Resolution.addAnonymous factory d r = .ok u r') : r'.NoFinal := by
  obtain ⟨-, rfl⟩ := Resolution.addAnonymous_eq_ok_iff.mp h
  intro e he
  rw [← List.append_assoc] at he
  rcases List.mem_append.mp he with he | he
  · exact hr e he
  · exact List.mem_singleton.mp he ▸ hd

theorem addDefinition (hr : r.NoFinal) (hd : d.NoFinal) {u : Unit}
    (h : Resolution.addDefinition d r = .ok u r') : r'.NoFinal := by
  obtain ⟨-, -, -, rfl⟩ := Resolution.addDefinition_eq_ok_iff.mp h
  intro e he
  rw [List.append_assoc] at he
  rcases List.mem_append.mp he with he | he
  · exact hr e (List.mem_append_left _ he)
  · rcases List.mem_cons.mp he with rfl | he
    · exact hd
    · exact hr e (List.mem_append_right _ he)

end NoFinal

end Registry

/-! ## What stages add -/

section Made

variable {r : Registry} {settings : Settings} {d : Definition}

theorem noFinal_anonymousFor (hr : r.NoFinal) {rule : ProductionRule} {kind name : String}
    (h : anonymousFor r settings rule kind name = .ok d) : d.NoFinal := by
  unfold anonymousFor TableSource.anonymousFor at h
  simp only [Except.bind_eq_ok_iff] at h
  obtain ⟨target, htarget, table, htable, implemented, himplemented, h⟩ := h
  refine Definition.NoFinal.addMethods (fun _ hm => ?_) (fun m hm => ?_) h
  · cases hm
  · obtain ⟨⟨e, method⟩, he, hmade⟩ := Except.exists_of_mem_mapM himplemented m hm
    obtain ⟨e', he', hpair⟩ := List.mem_filterMap.mp he
    obtain ⟨method', _, heq⟩ := Option.map_eq_some_iff.mp hpair
    cases heq
    obtain ⟨stub, hstub, hmade⟩ := Except.bind_eq_ok_iff.mp hmade
    have hfinal := hr.of_mem_allMethods (hr.of_get? (Registry.require_eq_ok_iff.mp htarget)) htable
    exact Method.isFinal_of_implement hmade
      ((Registry.isStub_of_overrideFor hstub).isFinal_eq_false (hfinal e he'))

theorem isFinal_of_mem_convertedMethods {utility conversion : String} {known : List String}
    {table : Table Method} (ht : ∀ m ∈ table.values, m.isFinal = false) {ms : List Method}
    (h : convertedMethods utility conversion known table = .ok ms) :
    ∀ m ∈ ms, m.isFinal = false := by
  intro m hm
  obtain ⟨e, he, hmade⟩ := Except.exists_of_mem_mapM h m hm
  exact Method.isFinal_of_implement hmade (ht e (List.mem_of_mem_filter he))

theorem isFinal_of_mem_settledMethods (hr : r.NoFinal) (hd : d.NoFinal) {ms : List Method}
    (h : settledMethods r d = .ok ms) : ∀ m ∈ ms, m.isFinal = false := by
  intro m hm
  obtain ⟨table, htable, h⟩ := Except.bind_eq_ok_iff.mp h
  obtain ⟨e, he, hmade⟩ := Except.exists_of_mem_mapM h m hm
  have hfinal := hr.of_mem_allMethods hd htable e (List.mem_of_mem_filter he)
  unfold settle at hmade
  split at hmade
  · exact Method.isFinal_of_implement hmade hfinal
  · split at hmade
    · exact Method.isFinal_of_declareAbstract hmade hfinal
    · cases hmade

theorem isFinal_of_interfaceMember? {m member : Method} {receiver : TypeExpr} {utility : String}
    (h : interfaceMember? d m receiver utility = .ok (some member)) : member.isFinal = false := by
  obtain ⟨_, _, _, _, rfl⟩ := interfaceMember?_spec h
  rfl

theorem noFinal_withArchetypeMethods {d' : Definition} (hd : d.NoFinal)
    (h : withArchetypeMethods settings d = .ok d') : d'.NoFinal := by
  unfold withArchetypeMethods at h
  split at h
  · exact Except.ok.inj h ▸ hd
  · split at h
    · cases h
    · refine hd.addMethods (fun m hm => ?_) (Except.mapError_eq_ok_iff.mp h)
      obtain ⟨method, _, rfl⟩ := List.mem_map.mp hm
      rfl

end Made

/-! ## Steps -/

section Steps

open Registry

variable {r r' : Registry} {settings : Settings} {name utility : String} {u : Unit}

theorem loadInterface_noFinal (hr : r.NoFinal) {d : Definition} (hd : d.NoFinal)
    (h : loadInterface settings d r = .ok u r') : r'.NoFinal := by
  obtain ⟨d', -, hd', hadd⟩ := loadInterface_eq_ok h
  exact hr.addDefinition (noFinal_withArchetypeMethods hd hd') hadd

theorem addUtilityImports_noFinal {imports : OrderedSet String} :
    Preserves NoFinal (addUtilityImports imports) :=
  .modify fun _ hr => hr.modify fun _ _ => id

theorem handleRule_noFinal (hr : r.NoFinal) {rule : ProductionRule}
    (h : handleRule settings rule r = .ok u r') : r'.NoFinal := by
  obtain ⟨kind, a, factory, _, r₁, _, s, _, ha, rfl, hanonymous, hfactory, rfl⟩ :=
    handleRule_cases h
  have hcounted : r.takeAnonymousName.NoFinal := hr.of_eq rfl rfl
  have h₁ := hcounted.addAnonymous (noFinal_anonymousFor hcounted ha) hanonymous
  generalize hmade : factoryFor settings _ rule = factory at h₁ hfactory
  have hfinal : factory.isFinal = false := hmade ▸ rfl
  have hconverts : NoFinal { r₁ with
      conversions := r₁.conversions ++ (conversionFor? rule factory).toList } := h₁.of_eq rfl rfl
  refine NoFinal.of_eq (r := s) ?_ rfl rfl
  unfold addFactory at hfactory
  split at hfactory
  · exact hconverts.addExplicit hfinal hfactory
  · exact hconverts.addMethod hfinal hfactory

theorem gainInterface_noFinal (hr : r.NoFinal) {via target : TypeExpr} {c : Conversion}
    {gained : List TypeExpr} (h : gainInterface name utility via target c r = .ok gained r') :
    r'.NoFinal := by
  obtain ⟨paths, names, _, d, table, methods, hd, htable, hmethods, hadd⟩ := gainInterface_changes h
  have h₁ : (r.modify name (·.addInterface target)).NoFinal := hr.modify fun d _ hd => by
    unfold Definition.addInterface
    split <;> exact hd
  refine NoFinal.addMethods ?_ ?_ hadd
  · exact h₁.modify fun _ _ => id
  · have hfinal := h₁.of_mem_allMethods (h₁.of_get? hd) htable
    exact isFinal_of_mem_convertedMethods hfinal hmethods

theorem promoteMethod_noFinal (hr : r.NoFinal) {m : Method} (h : promoteMethod m r = .ok u r') :
    r'.NoFinal := by
  rcases promoteMethod_cases h with rfl | ⟨d, _, member, _, hmember, hadd⟩
  · exact hr
  · have hnoted : (r.recordPromotion m d.name member).NoFinal := hr.of_eq rfl rfl
    exact hnoted.addMethod (isFinal_of_interfaceMember? hmember) hadd

theorem implementClass_noFinal (hr : r.NoFinal) (h : implementClass name r = .ok u r') :
    r'.NoFinal := by
  obtain ⟨d, ms, hd, hms, hadd⟩ := implementClass_eq_ok h
  exact hr.addMethods (isFinal_of_mem_settledMethods hr (hr.of_get? hd) hms) hadd

end Steps

/-! ## Stages -/

/-- All methods that a unit declares. -/
def CompilationUnit.declaredMethods (unit : CompilationUnit) : List Method :=
  (unit.interfaces ++ unit.classes).flatMap (·.methods.values) ++ unit.methods

section Stages

open Registry

variable {settings : Settings} {units : List CompilationUnit} {r r' : Registry}

theorem Stage.run_noFinal {stage : Stage}
    (hu : ∀ unit ∈ units, ∀ m ∈ unit.declaredMethods, m.isFinal = false) (hr : r.NoFinal)
    (hselect : stage ≠ .ambiguityResolution) (hfinish : stage ≠ .finalize) {u : Unit}
    (h : stage.run settings units r = .ok u r') : r'.NoFinal := by
  have hdefinition : ∀ unit ∈ units, ∀ d ∈ unit.interfaces ++ unit.classes, d.NoFinal :=
    fun unit hunit d hd m hm =>
      hu unit hunit m (List.mem_append_left _ (List.mem_flatMap.mpr ⟨d, hd, hm⟩))
  refine Stage.run_preserves ?_ hr h
  cases stage with
  | loadInterfaces =>
    refine fun d hd => .refl fun s _ t hs h => loadInterface_noFinal hs ?_ h
    obtain ⟨unit, hunit, hd⟩ := List.mem_flatMap.mp hd
    exact hdefinition unit hunit d (List.mem_append_left _ hd)
  | loadClasses =>
    refine fun d hd => .refl fun s _ t hs h => hs.addDefinition ?_ h
    obtain ⟨unit, hunit, hd⟩ := List.mem_flatMap.mp hd
    exact hdefinition unit hunit d (List.mem_append_right _ hd)
  | productionRules =>
    exact fun unit _ => ⟨addUtilityImports_noFinal, fun rule _ =>
      .refl fun s _ t hs h => handleRule_noFinal hs h⟩
  | explicitMethods =>
    refine fun unit hunit => ⟨addUtilityImports_noFinal, fun m hm _ => ?_⟩
    exact .refl fun s _ t hs h => hs.addExplicit (hu unit hunit m (List.mem_append_right _ hm)) h
  | conversionClosure =>
    exact fun d _ _ via target c _ => .refl fun s _ t hs h => gainInterface_noFinal hs h
  | interfaceEnhancement => exact fun m _ => .refl fun s _ t hs h => promoteMethod_noFinal hs h
  | implementMethods =>
    exact fun sorted _ name _ => .refl fun s _ t hs h => implementClass_noFinal hs h
  | ambiguityResolution => exact absurd rfl hselect
  | finalize => exact absurd rfl hfinish

/-- **No method is final before explicit methods are selected**, if none is declared so. -/
theorem noFinal_of_runStages
    (hu : ∀ unit ∈ units, ∀ m ∈ unit.declaredMethods, m.isFinal = false)
    (h : runStages settings units (Stage.standard.take 7) = .ok r) : r.NoFinal := by
  obtain ⟨u, hrun⟩ := runStages_eq_ok_iff.mp h
  refine Resolution.forM_induction NoFinal (fun stage hmem s t u hs hstep => ?_) ?_ hrun
  · exact stage.run_noFinal hu hs (ne_of_mem_of_not_mem hmem (by decide))
      (ne_of_mem_of_not_mem hmem (by decide)) hstep
  · intro d hd m hm
    obtain rfl := List.mem_singleton.mp hd
    cases hm

end Stages

end FluentGrammar
