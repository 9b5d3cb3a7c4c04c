import FluentGrammar.Proofs.ConversionRun
import FluentGrammar.Proofs.DependencyOrder
import FluentGrammar.Proofs.Evolution
import FluentGrammar.Proofs.StageSteps

/-!
# Evolution through the stages

Every stage after loading stays within what a registry may evolve to. For each step of a stage there
is a lemma that says what it does, and one that says that the registry evolves.

* `handleRule_cases`, `promoteMethod_cases`, `implementClass_eq_ok`, `selectFor_cases`,
  `finish_cases`: what steps do.
* `materialize_spec`: what selection adds to a class.
* **`Stage.run_evolves`**: all stages after loading.
-/

namespace FluentGrammar

/-! ## Factories -/

section Factories

variable {r r' : Registry} {settings : Settings}

theorem evolves_addUtilityImports {imports : OrderedSet String} {u : Unit}
    (h : addUtilityImports imports r = .ok u r') : r.Evolves r' := by
  obtain rfl := Resolution.modify_eq_ok_iff.mp h
  exact Registry.evolves_modify fun d _ _ => .of_sameFrame ⟨rfl, rfl, rfl⟩ rfl

theorem adds_anonymousFor {rule : ProductionRule} {kind name : String} {d : Definition}
    (h : anonymousFor r settings rule kind name = .ok d) :
    Definition.Adds (fun _ => True)
      { Definition.anonymousClass name rule.target with typeParams := rule.typeParams } d := by
  unfold anonymousFor TableSource.anonymousFor at h
  simp only [Except.bind_eq_ok_iff] at h
  obtain ⟨target, _, table, _, implemented, himpl, hadd⟩ := h
  refine Definition.adds_of_addMethods hadd fun m hm => ⟨?_, trivial⟩
  obtain ⟨⟨e, method⟩, _, he⟩ := Except.exists_of_mem_mapM himpl m hm
  obtain ⟨stub, _, hstub⟩ := Except.bind_eq_ok_iff.mp he
  exact Method.fits_of_implement (by simp [Definition.kind, Definition.anonymousClass,
    Definition.make]) hstub

theorem exists_interface_of_targetArchetype {rule : ProductionRule} {kind : String}
    (h : targetArchetype r rule = .ok kind) :
    ∃ d, r.get? rule.target.name = some d ∧ d.kind = .interface := by
  unfold targetArchetype at h
  split at h
  · rename_i k hk
    obtain ⟨d, hd, harch⟩ := Option.bind_eq_some_iff.mp hk
    refine ⟨d, hd, ?_⟩
    unfold Definition.archetype? at harch
    unfold Definition.kind
    split at harch
    · rename_i hshape
      rw [hshape]
    · cases harch
  · cases h

theorem hasInterface_of_targetArchetype (hs : r.Sound) {rule : ProductionRule} {kind : String}
    (h : targetArchetype r rule = .ok kind) : r.HasInterface rule.target.name := by
  obtain ⟨d, hd, hkind⟩ := exists_interface_of_targetArchetype h
  refine ⟨d, List.mem_filter.mpr ⟨?_, by simp [Definition.isInterface, hkind]⟩,
    Registry.name_of_get? hd⟩
  refine (List.mem_append.mp (Registry.mem_of_get? hd)).resolve_right fun ha => ?_
  simp [hs.unnamed d ha] at hkind

/-- **What handling a rule does.** Its target has an archetype, and its anonymous class can be made;
this is noted with the conversion, and then the factory is added. -/
theorem handleRule_cases {rule : ProductionRule} {u : Unit}
    (h : handleRule settings rule r = .ok u r') :
    ∃ kind a factory v r₁ w s, targetArchetype r rule = .ok kind ∧
      anonymousFor r.takeAnonymousName settings rule kind r.nextAnonymousName = .ok a ∧
      factory = factoryFor settings
        ((r.utilityClass?.map Definition.owner).getD settings.utilityOwner) rule ∧
      Resolution.addAnonymous factory a r.takeAnonymousName = .ok v r₁ ∧
      addFactory rule factory { r₁ with
        conversions := r₁.conversions ++ (conversionFor? rule factory).toList } = .ok w s ∧
      r' = s.addRule rule.target.name rule.image := by
  unfold handleRule TableSource.handleRule at h
  simp only [Resolution.bind_eq_ok_iff, Resolution.inspect_eq_ok_iff, Resolution.get_eq_ok_iff,
    Resolution.modify_eq_ok_iff, Resolution.located_eq_ok_iff] at h
  obtain ⟨kind, _, ⟨hkind, rfl⟩, x, _, ⟨rfl, rfl⟩, y, _, ⟨rfl, rfl⟩, _, _, rfl, a, _, ⟨ha, rfl⟩, v,
    r₁, hanon, _, r₂, hconv, w, s, hfactory, rfl⟩ := h
  refine ⟨kind, a, _, v, r₁, w, s, hkind, ha, rfl, hanon, ?_, rfl⟩
  generalize factoryFor settings _ rule = factory at hconv hfactory ⊢
  suffices hr₂ : r₂ = { r₁ with
      conversions := r₁.conversions ++ (conversionFor? rule factory).toList } by
    rwa [← hr₂]
  revert hconv
  cases conversionFor? rule factory with
  | none =>
    intro hconv
    obtain ⟨_, rfl⟩ := Resolution.pure_eq_ok_iff.mp hconv
    simp
  | some c =>
    intro hconv
    obtain rfl := Resolution.modify_eq_ok_iff.mp hconv
    rfl

theorem addFactory_evolves (hs : r.Sound) {rule : ProductionRule} {owner : Owner} {u : Unit}
    (h : addFactory rule (factoryFor settings owner rule) r = .ok u r') : r.Evolves r' := by
  unfold addFactory at h
  split at h
  · exact Registry.evolves_addExplicit hs h rfl rfl
  · exact Registry.evolves_addUtilityMethod hs h rfl rfl

theorem handleRule_evolves (hs : r.Sound) {rule : ProductionRule} {u : Unit}
    (h : handleRule settings rule r = .ok u r') : r.Evolves r' := by
  obtain ⟨kind, a, factory, _, r₁, _, s, hkind, ha, hf, hanon, hfactory, rfl⟩ := handleRule_cases h
  have h₁ : r.Evolves r.takeAnonymousName := Registry.evolves_of_eq rfl rfl rfl rfl
  have h₂ : r.takeAnonymousName.Evolves r₁ := by
    have hadds := adds_anonymousFor ha
    refine Registry.evolves_addAnonymous hanon (hadds.wellFormed ?_) hadds.frame.kind ?_
    · intro e he
      cases he
    · intro t ht
      rw [hadds.frame.supertypes] at ht
      obtain rfl : t = rule.target := List.mem_singleton.mp ht
      exact h₁.hasInterface (hasInterface_of_targetArchetype hs hkind)
  have h₃ : r₁.Evolves { r₁ with
      conversions := r₁.conversions ++ (conversionFor? rule factory).toList } :=
    Registry.evolves_of_eq rfl rfl rfl rfl
  subst hf
  have h₄ := addFactory_evolves (((hs.evolves h₁).evolves h₂).evolves h₃) hfactory
  exact (((h₁.trans h₂).trans h₃).trans h₄).trans (Registry.evolves_of_eq rfl rfl rfl rfl)

/-- Methods outside of definitions come as they are declared. -/
def DeclaredMethods (units : List CompilationUnit) : Prop :=
  ∀ unit ∈ units, ∀ m ∈ unit.methods, m.state = .declared

end Factories

/-! ## Closure -/

section Closure

variable {r r' : Registry} {name utility : String}

theorem gainInterface_evolves (hs : r.Sound) (hc : r.HasKind .namedClass name)
    {via target : TypeExpr} {c : Conversion} {gained : List TypeExpr}
    (h : gainInterface name utility via target c r = .ok gained r') : r.Evolves r' := by
  obtain ⟨paths, names, _, _, _, methods, _, _, hmethods, hadd⟩ := gainInterface_changes h
  have h₁ : r.Evolves (r.modify name (·.addInterface target)) :=
    Registry.evolves_modify fun e _ he => .addInterface (he ▸ hc.1) target
  have hc₁ := hc.evolves hs h₁
  have hs₁ := hs.evolves h₁
  have h₂ : (r.modify name (·.addInterface target)).Evolves
      ((r.modify name (·.addInterface target)).modify name fun e =>
        (e.addPaths paths).removeInterfaces names) :=
    Registry.evolves_modify fun e _ he =>
      .trans (.addPaths (he ▸ hc₁.1) paths) (.mapInterfaces (d := e.addPaths paths) (he ▸ hc₁.1) _)
  refine (h₁.trans h₂).trans (Registry.evolves_addMethods (hs₁.evolves h₂)
    (hc₁.evolves hs₁ h₂) (fun m hm => ?_) hadd)
  obtain ⟨e, _, he⟩ := Except.exists_of_mem_mapM hmethods m hm
  exact Method.fits_of_implement (by simp) he

theorem applyConversion_evolves (hs : r.Sound) (hc : r.HasKind .namedClass name) {via : TypeExpr}
    {c : Conversion} {gained : List TypeExpr}
    (h : applyConversion name utility via c r = .ok gained r') : r.Evolves r' := by
  unfold applyConversion TableSource.applyConversion at h
  simp only [Resolution.bind_eq_ok_iff, Resolution.inspect_eq_ok_iff] at h
  obtain ⟨target?, _, ⟨_, rfl⟩, h⟩ := h
  cases target? with
  | none =>
    obtain ⟨_, rfl⟩ := Resolution.pure_eq_ok_iff.mp h
    exact .refl r
  | some target => exact gainInterface_evolves hs hc h

theorem closeClass_evolves (hs : r.Sound) (hc : r.HasKind .namedClass name)
    {conversions : List Conversion} {u : Unit}
    (h : closeClass name utility conversions r = .ok u r') : r.Evolves r' := by
  obtain ⟨d, types, hd, ht, _⟩ := closeClass_eq_ok_iff.mp h
  refine closeClass_induction (P := r.Evolves) (Q := fun _ _ => True) hd ht (.refl r)
    (fun _ _ => trivial) (fun via c _ s s' gained hrs _ hstep => ?_) h
  have hss := applyConversion_evolves (hs.evolves hrs) (hc.evolves hs hrs) hstep
  exact ⟨hrs.trans hss, fun _ => id, fun _ _ => trivial⟩

end Closure

/-! ## Promotion -/

section Promotion

variable {r r' : Registry}

theorem interfaceMember?_spec {d : Definition} {m member : Method} {receiver : TypeExpr}
    {utility : String} (h : interfaceMember? d m receiver utility = .ok (some member)) :
    ∃ result params typeParams throws, member = { Method.make d.owner m.name result params with
      typeParams := typeParams
      throws := throws
      comment := m.comment
      delegate := some ⟨utility, m.name⟩
      source := m.source } := by
  unfold interfaceMember? at h
  split at h
  · cases h
  · dsimp only at h
    split at h
    · cases h
    · obtain ⟨n, hn, he⟩ := Except.map_eq_ok_iff.mp h
      cases he
      unfold memberUnder at hn
      simp only [Except.bind_eq_ok_iff, Except.pure_eq_ok_iff] at hn
      obtain ⟨params, _, throws, _, result, _, typeParams, _, rfl⟩ := hn
      exact ⟨result, params, typeParams, _, rfl⟩

theorem receiverInterface?_spec {m : Method} {d : Definition} {receiver : TypeExpr}
    (h : receiverInterface? r m = some (d, receiver)) :
    r.get? receiver.name = some d ∧ d.kind = .interface := by
  unfold receiverInterface? at h
  simp only [Option.bind_eq_bind, Option.bind_eq_some_iff, Option.guard_eq_some'] at h
  obtain ⟨p, _, _, _, e, he, _, hi, heq⟩ := h
  cases heq
  exact ⟨he, by simpa [Definition.isInterface] using hi⟩

theorem promoteMethod_cases {m : Method} {u : Unit} (h : promoteMethod m r = .ok u r') :
    r' = r ∨ ∃ d receiver member, receiverInterface? r m = some (d, receiver) ∧
      interfaceMember? d m receiver r.utility = .ok (some member) ∧
      Resolution.addMethod d.name m.name member (r.recordPromotion m d.name member) =
        .ok u r' := by
  obtain ⟨s, _, hget, h⟩ := Resolution.bind_eq_ok_iff.mp h
  obtain ⟨rfl, rfl⟩ := Resolution.get_eq_ok_iff.mp hget
  cases hrec : receiverInterface? r m with
  | none =>
    simp only [hrec] at h
    obtain ⟨_, rfl⟩ := Resolution.pure_eq_ok_iff.mp h
    exact .inl rfl
  | some receiver =>
    obtain ⟨d, receiver⟩ := receiver
    simp only [hrec, Resolution.bind_eq_ok_iff, Resolution.check_eq_ok_iff] at h
    obtain ⟨member?, _, ⟨hmember, rfl⟩, h⟩ := h
    cases member? with
    | none =>
      obtain ⟨_, rfl⟩ := Resolution.pure_eq_ok_iff.mp h
      exact .inl rfl
    | some member =>
      simp only at h
      split at h
      · obtain ⟨_, rfl⟩ := Resolution.pure_eq_ok_iff.mp h
        exact .inl rfl
      · simp only [Resolution.bind_eq_ok_iff, Resolution.modify_eq_ok_iff] at h
        obtain ⟨_, _, rfl, hadd⟩ := h
        exact .inr ⟨d, receiver, member, rfl, hmember, hadd⟩

theorem promoteMethod_evolves (hs : r.Sound) {m : Method} {u : Unit}
    (h : promoteMethod m r = .ok u r') : r.Evolves r' := by
  rcases promoteMethod_cases h with rfl | ⟨d, receiver, member, hrec, hmember, hadd⟩
  · exact .refl r'
  · have hnote : r.Evolves (r.recordPromotion m d.name member) :=
      Registry.evolves_of_eq rfl rfl rfl rfl
    obtain ⟨hget, hk⟩ := receiverInterface?_spec hrec
    have hdeclared : member.state = .declared := by
      obtain ⟨_, _, _, _, rfl⟩ := interfaceMember?_spec hmember
      rfl
    refine hnote.trans (Registry.evolves_addMethod (hs.evolves hnote) hadd
      (fun _ _ => Method.fits_of_declared hdeclared) fun hn => ?_)
    exact absurd hn (hs.ne_utility_of_kind (Registry.mem_of_get? hget) (by simp [hk]))

end Promotion

/-! ## Implementation -/

section Implementation

variable {r r' : Registry} {kind : Kind} {name : String}

theorem fits_of_settledMethods {d : Definition} (hd : d.WellFormed) (hk : d.kind ≠ .interface)
    {ms : List Method} (h : settledMethods r d = .ok ms) : ∀ m ∈ ms, m.Fits d.kind := by
  intro m hm
  obtain ⟨table, htable, h⟩ := Except.bind_eq_ok_iff.mp h
  obtain ⟨e, he, hsettle⟩ := Except.exists_of_mem_mapM h m hm
  obtain ⟨he, hopen⟩ := List.mem_filter.mp he
  unfold settle at hsettle
  split at hsettle
  · exact Method.fits_of_implement hk hsettle
  · split at hsettle
    · rcases Registry.isStub_of_mem_allMethods hd htable he with hstored | ⟨_, hstub⟩
      · rw [hstored.isOpen_eq_false] at hopen
        cases hopen
      · have hfits := Method.fits_of_declareAbstract hstub.body hsettle
        rwa [hstub.owner] at hfits
    · cases hsettle

theorem implementClass_eq_ok {u : Unit} (h : implementClass name r = .ok u r') :
    ∃ d ms, r.get? name = some d ∧ settledMethods r d = .ok ms ∧
      ms.forM (Resolution.addMethod name "method implementation") r = .ok u r' := by
  unfold implementClass TableSource.implementClass at h
  simp only [Resolution.bind_eq_ok_iff, Resolution.unlocated_eq_ok_iff,
    Resolution.inspect_eq_ok_iff, Resolution.located_eq_ok_iff, Registry.require_eq_ok_iff] at h
  obtain ⟨d, _, ⟨hd, rfl⟩, ms, _, ⟨hms, rfl⟩, hadd⟩ := h
  exact ⟨d, ms, hd, hms, hadd⟩

theorem implementClass_evolves (hs : r.Sound) (hc : r.HasKind kind name) (hk : kind ≠ .interface)
    {u : Unit} (h : implementClass name r = .ok u r') : r.Evolves r' := by
  obtain ⟨d, ms, hd, hms, hadd⟩ := implementClass_eq_ok h
  have hkind := hc.kind_eq hd
  refine Registry.evolves_addMethods hs hc (fun m hm => ?_) hadd
  exact hkind ▸ fits_of_settledMethods (hs.wellFormed d (Registry.mem_of_get? hd))
    (by rwa [hkind]) hms m hm

theorem mem_classes_of_sortedClasses {sorted : List Definition} (h : r.sortedClasses = .ok sorted)
    {d : Definition} (hd : d ∈ sorted) (hs : r.Sound) : d ∈ r.classes := by
  unfold Registry.sortedClasses at h
  split at h
  · rename_i order horder
    obtain rfl := Except.ok.inj h
    obtain ⟨name, hname, hfind⟩ := List.mem_filterMap.mp hd
    obtain ⟨e, he, rfl⟩ := List.mem_map.mp ((DependencyOrder.sort_perm horder).mem_iff.mp hname)
    have hmem := List.mem_of_find?_eq_some hfind
    have hn : d.name = e.name := by simpa using List.find?_some hfind
    rwa [hs.eq_of_name (List.mem_append_left _ hmem)
      (List.mem_append_left _ (List.mem_filter.mp he).1) hn]
  · cases h

theorem exists_hasKind_of_settled (hs : r.Sound) {sorted : List Definition}
    (hsorted : r.sortedClasses = .ok sorted)
    (hname : name ∈ (sorted.map Definition.name).filter (· ≠ r.utility) ++
      r.anonymous.map Definition.name) : ∃ kind, kind ≠ .interface ∧ r.HasKind kind name := by
  rcases List.mem_append.mp hname with hname | hname
  · obtain ⟨hname, hne⟩ := List.mem_filter.mp hname
    obtain ⟨d, hd, rfl⟩ := List.mem_map.mp hname
    exact ⟨_, by simp, hs.hasKind_of_mem_classes (mem_classes_of_sortedClasses hsorted hd hs)
      (by simpa using hne)⟩
  · obtain ⟨d, hd, rfl⟩ := List.mem_map.mp hname
    exact ⟨_, by simp, hs.hasKind_of_mem_anonymous hd⟩

theorem implementMethods_eq_ok {u : Unit} (h : implementMethods r = .ok u r') :
    ∃ sorted, r.sortedClasses = .ok sorted ∧
      ((sorted.map Definition.name).filter (· ≠ r.utility) ++
        r.anonymous.map Definition.name).forM implementClass r = .ok u r' := by
  unfold implementMethods TableSource.implementMethods at h
  simp only [Resolution.bind_eq_ok_iff, Resolution.get_eq_ok_iff, Resolution.unlocated_eq_ok_iff,
    Resolution.check_eq_ok_iff] at h
  obtain ⟨_, _, ⟨rfl, rfl⟩, sorted, _, ⟨hsorted, rfl⟩, h⟩ := h
  exact ⟨sorted, hsorted, h⟩

theorem implementMethods_cases (hs : r.Sound) {u : Unit} (h : implementMethods r = .ok u r') :
    ∃ order : List String, (∀ name ∈ order, ∃ kind, kind ≠ .interface ∧ r.HasKind kind name) ∧
      (∀ a ∈ r.anonymous, a.name ∈ order) ∧ order.forM implementClass r = .ok u r' := by
  obtain ⟨sorted, hsorted, h⟩ := implementMethods_eq_ok h
  exact ⟨_, fun _ => exists_hasKind_of_settled hs hsorted, fun a ha =>
    List.mem_append_right _ (List.mem_map_of_mem ha), h⟩

end Implementation

/-! ## Selection -/

section Selection

variable {r r' : Registry} {name : String}

/-- A member made of an explicit method is public and final, and its type parameters are apart from
those of the class. -/
theorem materialize_spec {d : Definition} {c : Candidate} {utility : String} {member : Method}
    (h : materialize d c utility = .ok member) :
    member.state = .declared ∧ member.owner = d.owner ∧ member.access = .publicAccess ∧
      member.modifiers = modifiersOf ["public", "final"] ∧
      ∀ n ∈ member.typeParams.names, n ∉ d.typeParams.names := by
  unfold materialize at h
  simp only [Except.bind_eq_ok_iff, Except.pure_eq_ok_iff] at h
  obtain ⟨params, _, throws, _, result, _, typeParams, htp, rfl⟩ := h
  refine ⟨rfl, rfl, rfl, rfl, fun n hn => ?_⟩
  have hnames := (TypeParams.names_of_replace htp).trans (Method.names_renameApart _ _ _ _)
  change n ∈ TypeParams.names typeParams at hn
  rw [hnames] at hn
  obtain ⟨old, _, rfl⟩ := List.mem_map.mp hn
  exact Method.uncapturedName_not_mem _ _ _

theorem selectFor_cases {group : String × List Method} {u : Unit}
    (h : selectFor name group r = .ok u r') :
    r' = r ∨ ∃ d c member explicit, r.get? name = some d ∧
      materialize d c r.utility = .ok member ∧
      (∃ table, r.allMethods d = .ok table ∧ member.signature ∉ table.keys) ∧
      Resolution.addMethod name "ambiguity resolution" member
        (r.recordPromotion explicit name member) = .ok u r' := by
  unfold selectFor TableSource.selectFor at h
  simp only [Resolution.bind_eq_ok_iff, Resolution.unlocated_eq_ok_iff,
    Resolution.inspect_eq_ok_iff, Registry.require_eq_ok_iff] at h
  obtain ⟨d, _, ⟨hd, rfl⟩, h⟩ := h
  split at h
  · exact .inl (Resolution.pure_eq_ok_iff.mp h).2.symm
  · simp only [Resolution.located_eq_ok_iff, Resolution.bind_eq_ok_iff,
      Resolution.inspect_eq_ok_iff] at h
    obtain ⟨found, _, ⟨hfound, rfl⟩, h⟩ := h
    cases found with
    | none => exact .inl (Resolution.pure_eq_ok_iff.mp h).2.symm
    | some found =>
      obtain ⟨explicit, member⟩ := found
      simp only [Resolution.bind_eq_ok_iff, Resolution.modify_eq_ok_iff] at h
      obtain ⟨_, _, rfl, hadd⟩ := h
      obtain ⟨best, _, hbest⟩ := Except.bind_eq_ok_iff.mp hfound
      cases best with
      | none => cases hbest
      | some c =>
        obtain ⟨m, hm, hrest⟩ := Except.bind_eq_ok_iff.mp hbest
        obtain ⟨table, htable, hrest⟩ := Except.bind_eq_ok_iff.mp hrest
        split at hrest
        · cases hrest
        · cases hrest
          rename_i hnew
          rw [Table.contains_iff] at hnew
          exact .inr ⟨d, c, _, _, hd, hm, ⟨table, htable, hnew⟩, hadd⟩

theorem selectFor_evolves (hs : r.Sound) (hn : name ≠ r.utility) {group : String × List Method}
    {u : Unit} (h : selectFor name group r = .ok u r') : r.Evolves r' := by
  rcases selectFor_cases h with rfl | ⟨d, c, member, explicit, _, hmember, _, hadd⟩
  · exact .refl r'
  · have hnote : r.Evolves (r.recordPromotion explicit name member) :=
      Registry.evolves_of_eq rfl rfl rfl rfl
    exact hnote.trans (Registry.evolves_addMethod (hs.evolves hnote) hadd
      (fun _ _ => Method.fits_of_declared (materialize_spec hmember).1) fun he => absurd he hn)

end Selection

/-! ## Finishing -/

section Finishing

variable {r r' : Registry} {settings : Settings}

theorem documentRules_evolves (r : Registry) : r.Evolves (documentRules r) :=
  Registry.evolves_of_forall₂ rfl
    (forall₂_documentRules fun _ _ => .of_sameFrame ⟨rfl, rfl, rfl⟩ rfl)
    (List.forall₂_same.mpr fun d _ => .refl _ d) rfl

/-- A comment of a method is no part of its contract. -/
theorem Definition.Evolves.of_comments {utility : String} {d : Definition} (key : String)
    (f : String → String) : d.Evolves utility { d with
      methods := d.methods.modify key fun m => { m with comment := f m.comment } } := by
  have hentries : ∀ e ∈ (d.methods.modify key fun m => { m with comment := f m.comment }).entries,
      ∃ e' ∈ d.methods.entries, e.1 = e'.1 ∧ ∃ comment, e.2 = { e'.2 with comment := comment } := by
    intro e he
    obtain ⟨e', he', rfl⟩ := List.mem_map.mp he
    refine ⟨e', he', rfl, ?_⟩
    dsimp only
    split
    · exact ⟨_, rfl⟩
    · exact ⟨e'.2.comment, rfl⟩
  refine ⟨rfl, rfl, rfl, rfl, fun _ => rfl, fun hwf e he => ?_, fun _ hstatic m hm => ?_⟩
  · obtain ⟨e', he', hkey, comment, hm⟩ := hentries e he
    obtain ⟨hsig, hstored⟩ := hwf e' he'
    rw [hkey, hm]
    exact ⟨hsig, hstored.owner_eq, hstored.isPublic_eq, hstored.isAbstract_eq, hstored.state,
      hstored.implemented, hstored.declaredAbstract⟩
  · obtain ⟨e, he, rfl⟩ := List.mem_map.mp hm
    obtain ⟨e', he', _, comment, hm⟩ := hentries e he
    rw [hm]
    exact hstatic e'.2 (List.mem_map.mpr ⟨e', he', rfl⟩)

theorem documentPromotion_evolves (r : Registry) (signature : String) :
    r.Evolves (documentPromotion r signature) :=
  Registry.evolves_modify fun _ _ _ =>
    .of_comments signature fun comment => (r.promotionsOf signature).foldl withReference comment

theorem documentPromotions_evolves (r : Registry) : r.Evolves (documentPromotions r) :=
  documentPromotions_induction r.Evolves
    (fun s signature hs => hs.trans (documentPromotion_evolves s signature)) (.refl r)

theorem wellFormed_of_testInterface? {name : String} {tests : List (String × String)}
    {d : Definition} (h : testInterface? name tests = .ok (some d)) : d.WellFormed := by
  unfold testInterface? at h
  split at h
  · cases h
  · obtain ⟨e, hadd, he⟩ := Except.map_eq_ok_iff.mp h
    cases he
    refine Definition.Adds.wellFormed (P := fun _ => True)
      (Definition.adds_of_addMethods hadd fun m hm => ?_) fun e he => by cases he
    obtain ⟨⟨test, comment⟩, _, rfl⟩ := List.mem_map.mp hm
    exact ⟨Method.fits_of_declared rfl, trivial⟩

theorem wellFormed_of_mem_allTests {ds : List Definition} (h : allTests r settings = .ok ds)
    {d : Definition} (hd : d ∈ ds) : d.WellFormed := by
  unfold allTests TableSource.allTests at h
  simp only [Except.bind_eq_ok_iff, Except.pure_eq_ok_iff] at h
  obtain ⟨tests, htests, utility, hutility, rfl⟩ := h
  obtain ⟨test, htest, rfl⟩ := List.mem_filterMap.mp hd
  rcases List.mem_append.mp htest with htest | htest
  · obtain ⟨e, _, he⟩ := Except.exists_of_mem_mapM htests _ htest
    obtain ⟨table, _, he⟩ := Except.bind_eq_ok_iff.mp he
    exact wellFormed_of_testInterface? he
  · obtain rfl := List.mem_singleton.mp htest
    exact wellFormed_of_testInterface? hutility

theorem addTestInterface_eq_ok_iff {d : Definition} {u : Unit} :
    addTestInterface d r = .ok u r' ↔ r.get? d.name = none ∧ r' = r.addTest d := by
  unfold addTestInterface
  change (ite _ _ _ : Resolution ModelFault Unit) r = _ ↔ _
  split_ifs with hd
  · refine ⟨nofun, fun h => ?_⟩
    simp [h.1] at hd
  · rw [Option.not_isSome_iff_eq_none] at hd
    simp only [hd, true_and]
    exact Resolution.modify_eq_ok_iff.trans eq_comm

theorem addTestInterfaces_spec {tests : List Definition} {u : Unit}
    (h : tests.forM addTestInterface r = .ok u r') :
    r' = { r with tests := r.tests ++ tests } ∧ ∀ d ∈ tests, r.get? d.name = none := by
  induction tests generalizing r with
  | nil =>
    obtain rfl := Resolution.forM_nil_eq_ok_iff.mp h
    exact ⟨by simp, by simp⟩
  | cons d tests ih =>
    obtain ⟨s, hstep, h⟩ := Resolution.forM_cons_eq_ok_iff.mp h
    obtain ⟨hnew, rfl⟩ := addTestInterface_eq_ok_iff.mp hstep
    obtain ⟨rfl, htests⟩ := ih h
    exact ⟨by simp [Registry.addTest], List.forall_mem_cons.mpr ⟨hnew, htests⟩⟩

/-- **What finishing does.** The documentation is completed, and then the test interfaces are added,
none of which has the name of a definition. -/
theorem finish_cases {u : Unit} (h : finish settings r = .ok u r') :
    ∃ s tests, s = documentPromotions (documentRules r) ∧ allTests s settings = .ok tests ∧
      r' = { s with tests := s.tests ++ tests } ∧ ∀ d ∈ tests, s.get? d.name = none := by
  unfold finish TableSource.finish at h
  simp only [Resolution.bind_eq_ok_iff, Resolution.modify_eq_ok_iff,
    Resolution.unlocated_eq_ok_iff, Resolution.inspect_eq_ok_iff] at h
  obtain ⟨_, _, rfl, _, _, rfl, tests, _, ⟨htests, rfl⟩, h⟩ := h
  exact ⟨_, tests, rfl, htests, addTestInterfaces_spec h⟩

theorem finish_evolves {u : Unit} (h : finish settings r = .ok u r') : r.Evolves r' := by
  obtain ⟨s, tests, rfl, htests, rfl, _⟩ := finish_cases h
  have hdocumented := (documentRules_evolves r).trans (documentPromotions_evolves _)
  exact hdocumented.trans
    (Registry.evolves_addTests fun d hd => wellFormed_of_mem_allTests htests hd)

end Finishing

/-! ## All stages -/

/-- **Every stage after loading** stays within what the registry may evolve to. -/
theorem Stage.run_evolves {r r' : Registry} {settings : Settings} {units : List CompilationUnit}
    (hd : DeclaredMethods units) {stage : Stage} (hi : stage ≠ .loadInterfaces)
    (hc : stage ≠ .loadClasses) (hs : r.Sound) {u : Unit}
    (h : stage.run settings units r = .ok u r') : r.Evolves r' := by
  have himports : ∀ imports, Preserves r.Evolves (addUtilityImports imports) := fun _ =>
    .refl fun _ _ _ hr h => hr.trans (evolves_addUtilityImports h)
  refine Stage.run_preserves ?_ (.refl r) h
  cases stage with
  | loadInterfaces => exact absurd rfl hi
  | loadClasses => exact absurd rfl hc
  | productionRules =>
    refine fun unit _ => ⟨himports _, fun rule _ => .refl fun s _ t hr h => ?_⟩
    exact hr.trans (handleRule_evolves (hs.evolves hr) h)
  | explicitMethods =>
    refine fun unit hunit => ⟨himports _, fun m hm hstatic => .refl fun s _ t hr h => ?_⟩
    exact hr.trans (Registry.evolves_addExplicit (hs.evolves hr) h (hd unit hunit m hm) hstatic)
  | conversionClosure =>
    refine fun d hd hn via target c _ => .refl fun s _ t hr h => ?_
    have hkind := (hs.hasKind_of_mem_classes hd hn).evolves hs hr
    exact hr.trans (gainInterface_evolves (hs.evolves hr) hkind h)
  | interfaceEnhancement =>
    exact fun m _ => .refl fun s _ t hr h => hr.trans (promoteMethod_evolves (hs.evolves hr) h)
  | implementMethods =>
    refine fun sorted hsorted name hname => .refl fun s _ t hr h => ?_
    obtain ⟨kind, hk, hkind⟩ := exists_hasKind_of_settled hs hsorted hname
    exact hr.trans (implementClass_evolves (hs.evolves hr) (hkind.evolves hs hr) hk h)
  | ambiguityResolution =>
    refine fun name hname group _ => .refl fun s _ t hr h => ?_
    have hne : name ≠ r.utility := by simpa using (List.mem_filter.mp hname).2
    exact hr.trans (selectFor_evolves (hs.evolves hr) (by rwa [hr.utility]) h)
  | finalize => exact .refl fun s _ t hr h => hr.trans (finish_evolves h)

theorem Stage.forM_run_evolves {r r' : Registry} {settings : Settings}
    {units : List CompilationUnit} (hd : DeclaredMethods units) {stages : List Stage}
    (hi : loadInterfaces ∉ stages) (hc : loadClasses ∉ stages) (hs : r.Sound) {u : Unit}
    (h : stages.forM (Stage.run settings units) r = .ok u r') : r.Evolves r' := by
  refine forM_evolves (fun stage hmem s t u hs' _ hstep => ?_) hs h
  refine stage.run_evolves hd (fun he => hi ?_) (fun he => hc ?_) hs' hstep
  · rw [← he]
    exact hmem
  · rw [← he]
    exact hmem

end FluentGrammar
