import FluentGrammar.Proofs.RuleFactories
import FluentGrammar.Proofs.ZeroDistance

/-!
# Methods of archetypes

An interface with an archetype gets one method for each entry of the archetype. Their names are
reserved: no declared method of an interface has one. So a method with a reserved name, wherever it
is inherited, leads back to an entry of the archetype of the interface it stems from.

* `Settings.given`, `Definition.Archetyped`: the entries for a definition, and the reserved methods
  of an interface.
* `archetyped_of_load`: interfaces have the reserved methods of their archetypes and no others.
* `Registry.Traced`: every method with a reserved name leads back to an entry.
* `Registry.Traced.of_mem_allMethods`: the methods of all tables do so as well.
* **`traced_of_runStages`**: this holds once the rules have been handled.
-/

namespace FluentGrammar

/-! ## Names -/

namespace Settings

variable {settings : Settings}

theorem isReserved_archetypeMethodName (verb interface : String) :
    settings.isReserved (settings.archetypeMethodName verb interface) = true := by
  simp [isReserved, Text.beginsWith, archetypeMethodName]

/-- On one interface, the name of a method tells the verb. -/
theorem archetypeMethodName_inj {verb verb' interface : String} :
    settings.archetypeMethodName verb interface = settings.archetypeMethodName verb' interface ↔
      verb = verb' := by
  unfold archetypeMethodName
  rw [String.append_left_inj, String.append_left_inj, String.append_right_inj]

/-- The methods that the archetype of a definition gives it. -/
def given (settings : Settings) (d : Definition) : List ArchetypeMethod :=
  ((d.archetype?.bind settings.archetype?).map Archetype.methods).getD []

end Settings

/-! ## Interfaces -/

section Interfaces

variable {settings : Settings} {d d' : Definition}

theorem ArchetypeMethod.reown_declare (m : ArchetypeMethod) (owner : Owner) :
    (m.declare settings owner).reown owner = m.declare settings owner := by
  simp [declare, Method.make, Method.reown]

/-- The methods with reserved names are those of the archetype. -/
structure Definition.Archetyped (settings : Settings) (d : Definition) : Prop where
  reserved : ∀ m ∈ d.methods.values, settings.isReserved m.name = true →
    ∃ method ∈ settings.given d, m = method.declare settings d.owner
  given : ∀ method ∈ settings.given d, method.declare settings d.owner ∈ d.methods.values

theorem isReserved_eq_false_of_checkReserved (h : checkReserved settings d = .ok ()) {m : Method}
    (hm : m ∈ d.methods.values) : settings.isReserved m.name = false := by
  unfold checkReserved at h
  split at h
  · cases h
  · rename_i hnone
    simpa using List.find?_eq_none.mp hnone m hm

theorem values_of_withArchetypeMethods (h : withArchetypeMethods settings d = .ok d') :
    d.SameFrame d' ∧ d'.methods.values =
      d.methods.values ++ (settings.given d).map (·.declare settings d.owner) := by
  unfold withArchetypeMethods at h
  split at h
  · rename_i hnone
    obtain rfl := Except.ok.inj h
    exact ⟨.refl d, by simp [Settings.given, hnone]⟩
  · rename_i kind hkind
    split at h
    · cases h
    · rename_i archetype harchetype
      have hadd := Except.mapError_eq_ok_iff.mp h
      obtain ⟨hframe, hentries⟩ := Definition.addMethods_spec hadd
      refine ⟨hframe, ?_⟩
      rw [Table.values, hentries, Table.values]
      simp [Settings.given, hkind, harchetype, Function.comp_def, ArchetypeMethod.reown_declare]

theorem archetyped_of_withArchetypeMethods (hc : checkReserved settings d = .ok ())
    (h : withArchetypeMethods settings d = .ok d') : d.SameFrame d' ∧ d'.Archetyped settings := by
  obtain ⟨hframe, hvalues⟩ := values_of_withArchetypeMethods h
  have hgiven : settings.given d' = settings.given d := by
    rw [Settings.given, Settings.given, Definition.archetype?, hframe.shape, Definition.archetype?]
  refine ⟨hframe, fun m hm hreserved => ?_, fun method hmethod => ?_⟩
  · rw [hvalues] at hm
    rcases List.mem_append.mp hm with hm | hm
    · rw [isReserved_eq_false_of_checkReserved hc hm] at hreserved
      cases hreserved
    · obtain ⟨method, hmethod, rfl⟩ := List.mem_map.mp hm
      exact ⟨method, hgiven ▸ hmethod, hframe.owner ▸ rfl⟩
  · rw [hvalues, hframe.owner]
    exact List.mem_append_right _ (List.mem_map_of_mem (hgiven ▸ hmethod))

end Interfaces

/-! ## Archetypes of definitions -/

section Archetypes

open Registry

variable {settings : Settings} {r r' : Registry} {m : Method} {method : ArchetypeMethod}
  {name : String}

theorem Definition.kind_of_archetype? {d : Definition} (h : d.archetype? ≠ none) :
    d.kind = .interface := by
  unfold archetype? at h
  unfold kind
  cases hs : d.shape <;> simp_all

theorem Definition.Evolves.archetype? {utility : String} {d d' : Definition}
    (h : d.Evolves utility d') : d'.archetype? = d.archetype? := by
  by_cases hk : d.kind = .namedClass
  · have hnone : ∀ e : Definition, e.kind = .namedClass → e.archetype? = none := fun e he => by
      by_contra hne
      rw [Definition.kind_of_archetype? hne] at he
      cases he
    rw [hnone d hk, hnone d' (h.kind.trans hk)]
  · rw [Definition.archetype?, h.shape (.inl hk), Definition.archetype?]

theorem Registry.Evolves.archetype?_eq (h : r.Evolves r') (hs : r.Sound) (name : String) :
    (r'.get? name).bind Definition.archetype? = (r.get? name).bind Definition.archetype? := by
  cases hd : r.get? name with
  | some d =>
    obtain ⟨d', hd', he⟩ := h.exists_of_get? hs hd
    rw [hd']
    exact he.archetype?
  | none =>
    rw [Option.bind_none, Option.bind_eq_none_iff]
    intro d' hd'
    by_contra hne
    have hk := Definition.kind_of_archetype? hne
    rcases List.mem_append.mp (mem_of_get? hd') with hmem | hmem
    · obtain ⟨e, he, hee⟩ := exists_left_of_forall₂ h.definitions d' hmem
      have hget := hs.get?_of_mem (List.mem_append_left _ he)
      rw [← hee.name, name_of_get? hd', hd] at hget
      cases hget
    · rw [(hs.evolves h).unnamed d' hmem] at hk
      cases hk

theorem archetypeMethodOf?_congr
    (h : (r'.get? m.origin).bind Definition.archetype? =
      (r.get? m.origin).bind Definition.archetype?) :
    archetypeMethodOf? r' settings m = archetypeMethodOf? r settings m := by
  have heq : ∀ s : Registry, archetypeMethodOf? s settings m =
      (guard (settings.isReserved m.name) : Option Unit).bind fun _ =>
        ((s.get? m.origin).bind Definition.archetype?).bind fun kind =>
          (settings.archetype? kind).bind fun archetype =>
            archetype.methods.find? fun a =>
              settings.archetypeMethodName a.verb m.origin = m.name :=
    fun s => by
      rw [archetypeMethodOf?]
      simp only [Option.bind_eq_bind, Option.bind_assoc]
  rw [heq, heq, h]

theorem exists_of_archetypeMethodOf? (h : archetypeMethodOf? r settings m = some method) :
    ∃ q, r.get? m.origin = some q ∧ q.kind = .interface ∧ settings.isReserved m.name = true ∧
      method ∈ settings.given q ∧ m.name = settings.archetypeMethodName method.verb q.name := by
  unfold archetypeMethodOf? at h
  simp only [Option.bind_eq_bind, Option.bind_eq_some_iff, Option.guard_eq_some'] at h
  obtain ⟨-, hreserved, q, hq, kind, hkind, archetype, harchetype, hfind⟩ := h
  refine ⟨q, hq, Definition.kind_of_archetype? (by simp [hkind]), hreserved, ?_, ?_⟩
  · rw [Settings.given, hkind, Option.bind_some, harchetype]
    exact List.mem_of_find?_eq_some hfind
  · rw [name_of_get? hq]
    have hname := List.find?_some hfind
    exact (of_decide_eq_true hname).symm

theorem isSome_archetypeMethodOf? {q : Definition} (hq : r.get? m.origin = some q)
    (hmethod : method ∈ settings.given q)
    (hname : m.name = settings.archetypeMethodName method.verb q.name) :
    (archetypeMethodOf? r settings m).isSome = true := by
  unfold Settings.given at hmethod
  unfold archetypeMethodOf?
  cases hkind : q.archetype? with
  | none => simp [hkind] at hmethod
  | some kind =>
    cases harchetype : settings.archetype? kind with
    | none => simp [hkind, harchetype] at hmethod
    | some archetype =>
      have hmem : method ∈ archetype.methods := by simpa [hkind, harchetype] using hmethod
      have hreserved : settings.isReserved m.name = true :=
        hname ▸ Settings.isReserved_archetypeMethodName ..
      have hfind : (archetype.methods.find? fun a =>
          settings.archetypeMethodName a.verb m.origin = m.name).isSome = true :=
        List.find?_isSome.mpr ⟨method, hmem, by simp [hname, name_of_get? hq]⟩
      simpa [hreserved, hq, hkind, harchetype, guard] using hfind

theorem archetypeCall?_eq (r : Registry) (settings : Settings) (kind verb callArgs : String)
    (arg : String × TypeExpr) : archetypeCall? r settings kind verb callArgs arg =
      if (r.get? arg.2.name).bind Definition.archetype? = some kind then
        some (arg.1 ++ "." ++ settings.archetypeMethodName verb arg.2.name ++
          "(" ++ callArgs ++ ")")
      else none := by
  unfold archetypeCall?
  cases hd : r.get? arg.2.name with
  | none => simp
  | some d => by_cases hk : d.archetype? = some kind <;> simp [hk, guard, name_of_get? hd]

theorem archetypeBody_congr (h : ∀ name, (r'.get? name).bind Definition.archetype? =
    (r.get? name).bind Definition.archetype?) :
    archetypeBody r' settings = archetypeBody r settings := by
  have hcall : archetypeCall? r' settings = archetypeCall? r settings := by
    funext kind verb callArgs arg
    rw [archetypeCall?_eq, archetypeCall?_eq, h]
  funext rule kind method stub
  rw [archetypeBody, hcall, archetypeBody]

end Archetypes

/-! ## Anonymous classes -/

section Anonymous

open Registry

variable {settings : Settings} {r : Registry} {rule : ProductionRule} {kind name : String}
  {a : Definition}

/-- The method `n` of the anonymous class `a` of a rule implements `m`, which comes from an entry of
an archetype. -/
structure Registry.Implements (r : Registry) (settings : Settings) (rule : ProductionRule)
    (kind : String) (a : Definition) (m : Method) (method : ArchetypeMethod) (n : Method) :
    Prop where
  entry : archetypeMethodOf? r settings m = some method
  state : n.state = .implemented
  body : n.body = some (archetypeBody r settings rule kind method n)
  stub : ∃ b, r.overrideFor a m = .ok b ∧ n.signature = b.signature ∧ n.name = b.name ∧
    n.origin = b.origin ∧ n.params = b.params

theorem implements_of_implementArchetype {e : Definition} {m made : Method}
    {method : ArchetypeMethod} (hm : archetypeMethodOf? r settings m = some method)
    (hf : e.SameFrame a) (h : implementArchetype r settings rule kind e m method = .ok made) :
    r.Implements settings rule kind a m method (made.reown a.owner) := by
  obtain ⟨b, hb, h⟩ := Except.bind_eq_ok_iff.mp h
  have howner : b.owner = a.owner := (isStub_of_overrideFor hb).owner.trans hf.owner.symm
  unfold Method.implement at h
  split at h
  · obtain rfl := Except.ok.inj h
    rw [← (SameFrame.refl r).overrideFor_eq hf] at hb
    refine ⟨hm, rfl, rfl, b, hb, ?_, rfl, ?_, rfl⟩
    · rw [Method.reown, ← howner]
      rfl
    · change (if b.origin = b.owner.name then a.owner.name else b.origin) = b.origin
      rw [← howner, ite_eq_right_iff]
      exact Eq.symm
  · cases h

/-- **What an anonymous class has**: the archetype methods in the table of its target, each
implemented, and no others. -/
theorem anonymousFor_spec (h : anonymousFor r settings rule kind name = .ok a) :
    ∃ d t, r.get? rule.target.name = some d ∧ r.allMethods d = .ok t ∧
      (∀ m ∈ t.values, ∀ method, archetypeMethodOf? r settings m = some method →
        ∃ n ∈ a.methods.values, r.Implements settings rule kind a m method n) ∧
      ∀ n ∈ a.methods.values, ∃ m ∈ t.values, ∃ method,
        r.Implements settings rule kind a m method n := by
  have hframe := (adds_anonymousFor h).frame
  unfold anonymousFor TableSource.anonymousFor at h
  simp only [Except.bind_eq_ok_iff] at h
  obtain ⟨d, hd, t, ht, implemented, himplemented, hadd⟩ := h
  have hvalues : a.methods.values = implemented.map (·.reown a.owner) := by
    obtain ⟨hframe', hentries⟩ := Definition.addMethods_spec hadd
    rw [Table.values, hentries, hframe'.owner]
    simp only [List.map_append, List.map_map, Function.comp_def]
    rfl
  have hmade := Except.mapM_eq_ok_iff.mp himplemented
  refine ⟨d, t, require_eq_ok_iff.mp hd, ht, fun m hm method hmethod => ?_, fun n hn => ?_⟩
  · have hpair : (m, method) ∈ t.values.filterMap fun m =>
        (archetypeMethodOf? r settings m).map fun method => (m, method) :=
      List.mem_filterMap.mpr ⟨m, hm, by rw [hmethod]; rfl⟩
    obtain ⟨made, hmem, hmake⟩ := exists_right_of_forall₂ hmade _ hpair
    exact ⟨made.reown a.owner, hvalues ▸ List.mem_map_of_mem hmem,
      implements_of_implementArchetype hmethod hframe hmake⟩
  · obtain ⟨made, hmem, rfl⟩ := List.mem_map.mp (hvalues ▸ hn)
    obtain ⟨⟨m, method⟩, hpair, hmake⟩ := exists_left_of_forall₂ hmade made hmem
    obtain ⟨m', hm', hpair⟩ := List.mem_filterMap.mp hpair
    obtain ⟨method', hmethod, hpair⟩ := Option.map_eq_some_iff.mp hpair
    cases hpair
    exact ⟨m, hm', method, implements_of_implementArchetype hmethod hframe hmake⟩

end Anonymous

/-! ## Registries -/

namespace Registry

variable {settings : Settings} {r r' : Registry} {name : String} {d : Definition}

/-- All interfaces have the methods of their archetypes. -/
def Archetyped (settings : Settings) (r : Registry) : Prop :=
  ∀ name d, r.get? name = some d → d.kind = .interface → d.Archetyped settings

/-- Definitions other than the utility class are the same, and what is new are anonymous classes. -/
structure Spares (r r' : Registry) : Prop where
  utility : r'.utility = r.utility
  same : ∀ name d, name ≠ r.utility → r.get? name = some d → r'.get? name = some d
  added : ∀ name d, name ≠ r.utility → r'.get? name = some d →
    r.get? name = some d ∨ d.kind = .anonymousClass

theorem Spares.of_get?_eq (hu : r'.utility = r.utility)
    (h : ∀ name, name ≠ r.utility → r'.get? name = r.get? name) : r.Spares r' where
  utility := hu
  same name _ hn hd := (h name hn).trans hd
  added name _ hn hd := .inl ((h name hn).symm.trans hd)

theorem Spares.get?_interface (h : r.Spares r') (hr : r'.Sound) (hd : r'.get? name = some d)
    (hk : d.kind = .interface) : r.get? name = some d := by
  have hne := hr.ne_utility_of_kind (mem_of_get? hd) (by simp [hk])
  rw [name_of_get? hd, h.utility] at hne
  refine (h.added name d hne hd).resolve_right fun hanonymous => ?_
  simp [hk] at hanonymous

theorem Archetyped.spares (ha : r.Archetyped settings) (h : r.Spares r') (hr : r'.Sound) :
    r'.Archetyped settings :=
  fun name d hd hk => ha name d (h.get?_interface hr hd hk) hk

end Registry

/-! ## Loading and rules -/

section Stages

open Registry

variable {settings : Settings} {units : List CompilationUnit} {r r' : Registry}

theorem archetyped_of_load {r₁ r₂ : Registry} {u₁ u₂ : Unit}
    (hp : ∀ unit ∈ units, ∀ d ∈ unit.declarations, d.Proper)
    (h₁ : loadInterfaces settings units (Registry.empty settings.utilityClass) = .ok u₁ r₁)
    (h₂ : loadClasses units r₁ = .ok u₂ r₂) : r₂.Archetyped settings := by
  have hinterfaces : ∀ d ∈ r₁.definitions, d.kind = .interface → d.Archetyped settings := by
    refine Resolution.forM_induction
      (fun s => ∀ d ∈ s.definitions, d.kind = .interface → d.Archetyped settings)
      (fun d _ s t _ hs hstep => ?_) (fun d hd hk => ?_) h₁
    · obtain ⟨d', hc, hd', hadd⟩ := loadInterface_eq_ok hstep
      obtain ⟨-, -, -, rfl⟩ := Resolution.addDefinition_eq_ok_iff.mp hadd
      intro e he hk
      rcases List.mem_append.mp he with he | he
      · exact hs e he hk
      · rw [List.mem_singleton.mp he]
        exact (archetyped_of_withArchetypeMethods hc hd').2
    · obtain rfl := List.mem_singleton.mp hd
      cases hk
  obtain ⟨-, -, -, hr₂, -, -⟩ := load_spec hp h₁ h₂
  intro name d hd hk
  have hmem := (loaded_of_load hp h₁ h₂).mem_of_get? hd
  rw [hr₂] at hmem
  rcases List.mem_append.mp hmem with hmem | hmem
  · exact hinterfaces d hmem hk
  · rw [(proper_of_mem_classes hp hmem).1] at hk
    cases hk

theorem Registry.Sound.exists_utilityClass? (hs : r.Sound) : ∃ u, r.utilityClass? = some u := by
  obtain ⟨u, hu, hname, -⟩ := hs.utility
  refine Option.isSome_iff_exists.mp (List.find?_isSome.mpr ⟨u, hu, ?_⟩)
  simpa using hname

theorem get?_of_addUtilityImports (hs : r.Sound) {imports : OrderedSet String} {u : Unit}
    (h : addUtilityImports imports r = .ok u r') : r'.utility = r.utility ∧
      r'.anonymous = r.anonymous ∧ ∀ name, name ≠ r.utility → r'.get? name = r.get? name := by
  obtain rfl := Resolution.modify_eq_ok_iff.mp h
  obtain ⟨v, hv⟩ := hs.exists_utilityClass?
  refine ⟨utility_modify .., anonymous_modify_utility hv _, fun name hn => ?_⟩
  refine (get?_modify ?_ name).trans (if_neg hn)
  exact fun _ => id

theorem get?_of_handleRule (hs : r.Sound) {rule : ProductionRule} {u : Unit}
    (h : handleRule settings rule r = .ok u r') :
    ∃ kind a, targetArchetype r rule = .ok kind ∧
      anonymousFor r.takeAnonymousName settings rule kind r.nextAnonymousName = .ok a ∧
      r'.utility = r.utility ∧ r'.anonymous = r.anonymous ++ [a] ∧
      ∀ name, name ≠ r.utility →
        r'.get? name = (r.get? name).or (if a.name = name then some a else none) := by
  obtain ⟨kind, a, factory, w, s, hkind, ha, _, hadd, rfl⟩ := addFactory_of_handleRule h
  obtain ⟨v, hv⟩ := hs.exists_utilityClass?
  obtain ⟨t, ht, hu, hd, hanonymous⟩ : ∃ t,
      Resolution.addUtilityMethod factory (r.withAnonymous rule factory a) = .ok w t ∧
        s.utility = t.utility ∧ s.definitions = t.definitions ∧ s.anonymous = t.anonymous := by
    unfold addFactory at hadd
    split at hadd
    · obtain ⟨t, ht, rfl⟩ := Resolution.addExplicit_eq_ok_iff.mp hadd
      exact ⟨t, ht, rfl, rfl, rfl⟩
    · exact ⟨s, hadd, rfl, rfl, rfl⟩
  obtain ⟨-, -, hutility, -, -, -, -, hanonymous'⟩ := addUtilityMethod_cases
    (r := r.withAnonymous rule factory a) hv ht
  refine ⟨kind, a, hkind, ha, hu.trans hutility, hanonymous.trans hanonymous', fun name hn => ?_⟩
  obtain ⟨d, d', hget, hd', rfl⟩ := Resolution.addMethod_eq_ok_iff.mp ht
  have hname : d'.name = r.utility :=
    (Definition.sameFrame_of_addMethod hd').name.trans (name_of_get? hget)
  have hsame : (s.addRule rule.target.name rule.image).get? name =
      ((r.withAnonymous rule factory a).modify r.utility fun _ => d').get? name := by
    change (s.definitions ++ s.anonymous).find? _ = _
    rw [hd, hanonymous]
    rfl
  rw [hsame, get?_modify fun _ _ => hname, if_neg hn, Registry.get?, withAnonymous,
    ← List.append_assoc, List.find?_append, Registry.get?, List.find?_singleton]
  simp

theorem handleRule_spares (hs : r.Sound) {rule : ProductionRule} {u : Unit}
    (h : handleRule settings rule r = .ok u r') : r.Spares r' := by
  obtain ⟨kind, a, -, ha, hu, -, hget⟩ := get?_of_handleRule hs h
  refine ⟨hu, fun name d hn hd => ?_, fun name d hn hd => ?_⟩
  · rw [hget name hn, hd, Option.some_or]
  · rw [hget name hn] at hd
    rcases Option.or_eq_some_iff.mp hd with hd | ⟨-, hd⟩
    · exact .inl hd
    · split at hd
      · obtain rfl := Option.some.inj hd
        exact .inr (adds_anonymousFor ha).frame.kind
      · cases hd

theorem addExplicitMethods_spares (hs : r.Sound) {u : Unit}
    (h : Stage.explicitMethods.run settings units r = .ok u r') : r.Spares r' := by
  have hkeeps := Stage.run_keeps hs (by decide) (by decide) (by decide) h
  exact .of_get?_eq hkeeps.utility fun name hn => hkeeps.untouched name hn

end Stages

/-! ## Tracing methods back -/

namespace Registry

variable {settings : Settings} {r r' : Registry} {m b : Method} {d : Definition} {t : Table Method}

/-- If the method has a reserved name and stems from an interface, it has the name and the number of
parameters of an entry for that interface. -/
def Traces (settings : Settings) (r : Registry) (m : Method) : Prop :=
  ∀ q, r.get? m.origin = some q → q.kind = .interface → settings.isReserved m.name = true →
    ∃ method ∈ settings.given q, m.name = settings.archetypeMethodName method.verb q.name ∧
      m.params.length = method.params.length

/-- All methods trace back, those of the utility class apart. -/
def Traced (settings : Settings) (r : Registry) : Prop :=
  ∀ name d, name ≠ r.utility → r.get? name = some d → ∀ m ∈ d.methods.values, r.Traces settings m

theorem Traces.congr (h : r.Traces settings m) (hname : b.name = m.name)
    (horigin : b.origin = m.origin) (hparams : b.params.length = m.params.length) :
    r.Traces settings b := by
  unfold Traces
  rw [hname, horigin, hparams]
  exact h

theorem Traces.spares (h : r.Traces settings m) (hspares : r.Spares r') (hr : r'.Sound) :
    r'.Traces settings m :=
  fun q hq hk => h q (hspares.get?_interface hr hq hk) hk

theorem Traces.overrideFor (h : r.Traces settings m) (hb : r'.overrideFor d m = .ok b) :
    r.Traces settings b := by
  obtain ⟨_, _, hstub⟩ := Except.bind_eq_ok_iff.mp hb
  obtain ⟨hstub, _, _, _, _, hreplaces⟩ := Method.stub_eq_ok hstub
  exact h.congr hstub.name hstub.origin hreplaces.params.length_eq.symm

/-- **What is inherited traces back.** The utility class hands nothing down. -/
theorem Traced.of_mem_allMethods (hr : r.Traced settings) (hs : r.Sound)
    (hd : r.get? d.name = some d) (hn : d.name ≠ r.utility) (h : r.allMethods d = .ok t) :
    ∀ m ∈ t.values, r.Traces settings m := by
  revert hd hn
  refine allMethods_induction (motive := fun d t => r.get? d.name = some d →
    d.name ≠ r.utility → ∀ m ∈ t.values, r.Traces settings m)
    (fun d t h ih hd hn m hm => ?_) h
  rcases mem_values_allMethods h hm with hown | ⟨-, parent, hp, p, u, e, hget, hu, he, hover⟩
  · exact hr _ d hn hd m hown
  · obtain ⟨u', hu', hall⟩ := ih parent hp p hget
    cases hu.symm.trans hu'
    have hpname := name_of_get? hget
    have hnp : p.name ≠ r.utility := by
      intro hutility
      rw [hpname.symm.trans hutility] at hget
      obtain ⟨he, hhidden⟩ := mem_visible.mp he
      rcases mem_values_allMethods hu he with hown | ⟨-, parent', hp', -⟩
      · simp [Method.isHidden, (hs.utility_spec hget).2 e hown] at hhidden
      · rw [hs.supertypes_utility hget] at hp'
        cases hp'
    exact (hall (hpname ▸ hget) hnp e (mem_visible.mp he).1).overrideFor hover

end Registry

section Rules

open Registry

variable {settings : Settings} {units : List CompilationUnit} {r r' : Registry}

theorem Registry.Traced.handleRule (h : r.Traced settings) (hs : r.Sound) (hs' : r'.Sound)
    {rule : ProductionRule} {u : Unit}
    (hrule : FluentGrammar.handleRule settings rule r = .ok u r') : r'.Traced settings := by
  have hspares := handleRule_spares hs hrule
  obtain ⟨kind, a, hkind, ha, hutility, -, hget⟩ := get?_of_handleRule hs hrule
  intro name d hn hd m hm
  rw [hutility] at hn
  rw [hget name hn] at hd
  rcases Option.or_eq_some_iff.mp hd with hd | ⟨-, hd⟩
  · exact (h name d hn hd m hm).spares hspares hs'
  · -- The methods of the new class implement those of the target.
    split at hd
    · obtain rfl := Option.some.inj hd
      obtain ⟨target, t, htarget, ht, -, hall⟩ := anonymousFor_spec ha
      obtain ⟨e, he, method, himplements⟩ := hall m hm
      obtain ⟨b, hb, -, hname, horigin, hparams⟩ := himplements.stub
      obtain ⟨target', htarget', hinterface⟩ := exists_interface_of_targetArchetype hkind
      have hne := hs.ne_utility_of_kind (mem_of_get? htarget') (by simp [hinterface])
      cases htarget'.symm.trans htarget
      have hs'' : r.takeAnonymousName.Sound := hs.evolves (evolves_of_eq rfl rfl rfl rfl)
      have htraced : r.takeAnonymousName.Traced settings := h
      have htraces : r.Traces settings e :=
        htraced.of_mem_allMethods hs'' (name_of_get? htarget ▸ htarget) hne ht e he
      exact ((htraces.overrideFor hb).congr hname horigin (congrArg List.length hparams)).spares
        hspares hs'
    · cases hd

theorem traced_of_load {r₁ r₂ : Registry} {u₁ u₂ : Unit}
    (hp : ∀ unit ∈ units, ∀ d ∈ unit.declarations, d.Proper)
    (h₁ : loadInterfaces settings units (Registry.empty settings.utilityClass) = .ok u₁ r₁)
    (h₂ : loadClasses units r₁ = .ok u₂ r₂) : r₂.Traced settings := by
  have harchetyped := archetyped_of_load hp h₁ h₂
  obtain ⟨loaded, hframes, hr₁, hr₂, -, -⟩ := load_spec hp h₁ h₂
  intro name d hn hd m hm q hq hk hreserved
  by_cases hinterface : d.kind = .interface
  · obtain ⟨method, hmethod, rfl⟩ := (harchetyped name d hd hinterface).reserved m hm hreserved
    rw [show (method.declare settings d.owner).origin = name from name_of_get? hd, hd] at hq
    obtain rfl := Option.some.inj hq
    exact ⟨method, hmethod, rfl, rfl⟩
  · -- A class declares its methods itself, and it is no interface.
    have hmem := (loaded_of_load hp h₁ h₂).mem_of_get? hd
    rw [hr₂, hr₁] at hmem
    have hclass : d ∈ units.flatMap CompilationUnit.classes := by
      rcases List.mem_append.mp hmem with hmem | hmem
      · exfalso
        rcases List.mem_append.mp hmem with hmem | hmem
        · obtain rfl := List.mem_singleton.mp hmem
          refine hn ((name_of_get? hd).symm.trans ?_)
          rw [hr₂, hr₁]
          rfl
        · obtain ⟨e, he, hf⟩ := exists_left_of_forall₂ hframes d hmem
          exact hinterface (hf.kind.trans (proper_of_mem_interfaces hp he).1)
      · exact hmem
    rw [(proper_of_mem_classes hp hclass).2.2 m hm, name_of_get? hd, hd] at hq
    obtain rfl := Option.some.inj hq
    exact absurd hk hinterface

/-- **Methods with reserved names trace back** to the entries of the archetypes, once the rules have
been handled. -/
theorem traced_of_runStages (hp : ∀ unit ∈ units, ∀ d ∈ unit.declarations, d.Proper)
    (h : runStages settings units (Stage.standard.take 3) = .ok r) :
    r.Archetyped settings ∧ r.Traced settings := by
  obtain ⟨_, h⟩ := runStages_eq_ok_iff.mp h
  simp only [Stage.standard, List.take_succ_cons, List.take_zero, Resolution.forM_cons_eq_ok_iff,
    Resolution.forM_nil_eq_ok_iff] at h
  obtain ⟨r₁, h₁, r₂, h₂, _, h₃, rfl⟩ := h
  obtain ⟨_, _, _, _, hs₂, _⟩ := load_spec hp h₁ h₂
  refine (addFactories_induction
    (fun _ s => s.Sound ∧ s.Archetyped settings ∧ s.Traced settings)
    (fun _ imports s t _ hrs himports => ?_) (fun _ rule s t _ hrs hrule => ?_)
    ⟨hs₂, archetyped_of_load hp h₁ h₂, traced_of_load hp h₁ h₂⟩ h₃).2
  · obtain ⟨hs, harchetyped, htraced⟩ := hrs
    have ht := hs.evolves (evolves_addUtilityImports himports)
    obtain ⟨hutility, -, hget⟩ := get?_of_addUtilityImports hs himports
    have hspares : s.Spares t := .of_get?_eq hutility hget
    refine ⟨ht, harchetyped.spares hspares ht, fun name d hn hd m hm => ?_⟩
    rw [hutility] at hn
    exact (htraced name d hn (hget name hn ▸ hd) m hm).spares hspares ht
  · obtain ⟨hs, harchetyped, htraced⟩ := hrs
    have ht := hs.evolves (handleRule_evolves hs hrule)
    exact ⟨ht, harchetyped.spares (handleRule_spares hs hrule) ht, htraced.handleRule hs ht hrule⟩

end Rules

end FluentGrammar
