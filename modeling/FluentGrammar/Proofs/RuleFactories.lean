import FluentGrammar.Proofs.ExplicitMethods
import FluentGrammar.Proofs.LaterStages
import FluentGrammar.Proofs.StageTables

/-!
# Rules and their factories

Every rule has a factory on the utility class and an anonymous class, and the registry knows which
belongs to which by a text: the name of the utility class and the signature of the factory. The text
is noted before the factory is added; but a factory whose signature is there is refused, so what is
noted for one rule is never overwritten by another.

* `addFactory_of_handleRule`: the factory of a rule comes after its anonymous class.
* `Books`, `Books.handleRule`: what is noted for the rules that have been handled, and one more.
* `addFactories_induction`: what holds of all rules, one after the other.
* `Registry.FactoryOf`: the factory of a rule as it is stored, up to documentation.
* **`books_of_runStages`**: what is noted after the rules and after all later stages.
-/

namespace FluentGrammar

open Registry

section Rules

variable {settings : Settings} {rule : ProductionRule} {rules : List ProductionRule}
  {r r' : Registry}

/-! ## One rule -/

/-- The registry with an anonymous class for the factory of a rule, and with its conversion. -/
def Registry.withAnonymous (r : Registry) (rule : ProductionRule) (factory : Method)
    (a : Definition) : Registry :=
  { r with
    anonymousCount := r.anonymousCount + 1
    anonymous := r.anonymous ++ [a]
    factories := r.factories.insert (factoryKey factory) a.name
    conversions := r.conversions ++ (conversionFor? rule factory).toList }

theorem addFactory_of_handleRule {u : Unit} (h : handleRule settings rule r = .ok u r') :
    ∃ kind a factory w s, targetArchetype r rule = .ok kind ∧
      anonymousFor r.takeAnonymousName settings rule kind r.nextAnonymousName = .ok a ∧
      factory = factoryFor settings
        ((r.utilityClass?.map Definition.owner).getD settings.utilityOwner) rule ∧
      addFactory rule factory (r.withAnonymous rule factory a) = .ok w s ∧
      r' = s.addRule rule.target.name rule.image := by
  obtain ⟨kind, a, factory, _, r₁, w, s, hkind, ha, hf, hanon, hfactory, hr'⟩ := handleRule_cases h
  obtain ⟨-, rfl⟩ := Resolution.addAnonymous_eq_ok_iff.mp hanon
  exact ⟨kind, a, factory, w, s, hkind, ha, hf, hfactory, hr'⟩

theorem shape_of_anonymousFor {kind name : String} {a : Definition}
    (h : anonymousFor r settings rule kind name = .ok a) : a.shape = .anonymousClass rule.target :=
  (adds_anonymousFor h).frame.shape

theorem reown_factoryFor (owner : Owner) :
    (factoryFor settings owner rule).reown owner = factoryFor settings owner rule := by
  simp [factoryFor, Method.make, Method.withWords, Method.reown]

/-- The text under which an anonymous class is noted tells the signature of its factory. -/
theorem factoryKey_inj {m n : Method} (ho : m.owner = n.owner) (h : factoryKey m = factoryKey n) :
    m.signature = n.signature := by
  unfold factoryKey at h
  rw [ho] at h
  exact (String.append_right_inj _).mp h

/-! ## All rules -/

/-- The factory of a rule, which belongs to the utility class. -/
abbrev Settings.factoryOf (settings : Settings) (rule : ProductionRule) : Method :=
  factoryFor settings settings.utilityOwner rule

/-- The factory of a rule is stored, and it leads to an anonymous class that extends the target. -/
structure Registry.Leads (settings : Settings) (r : Registry) (rule : ProductionRule)
    (a : Definition) : Prop where
  shape : a.shape = .anonymousClass rule.target
  noted : r.factories.get? (factoryKey (settings.factoryOf rule)) = some a.name
  stored : ∃ u, r.utilityClass? = some u ∧
    u.methods.get? (settings.factoryOf rule).signature = some (settings.factoryOf rule)

/-- What is noted for the rules that have been handled. For each of them there is an anonymous
class, in the order of the rules. -/
structure Books (settings : Settings) (rules : List ProductionRule) (r : Registry) : Prop where
  explicit : r.Noted settings.utilityClass
    ((rules.filter (·.name.isSome)).map settings.factoryOf)
  conversions : r.conversions = rules.filterMap fun rule =>
    conversionFor? rule (settings.factoryOf rule)
  factories : List.Forall₂ (r.Leads settings) rules r.anonymous

namespace Books

theorem congr (h : Books settings rules r) (hu : r'.utility = r.utility)
    (hd : r'.definitions = r.definitions) (ha : r'.anonymous = r.anonymous)
    (hf : r'.factories = r.factories) (hc : r'.conversions = r.conversions)
    (he : r'.explicit = r.explicit) (hq : r'.unique = r.unique) : Books settings rules r' := by
  refine ⟨h.explicit.congr hu hd he hq, hc.trans h.conversions, ?_⟩
  rw [ha]
  refine h.factories.imp fun rule a ⟨hshape, hnoted, hstored⟩ => ⟨hshape, hf ▸ hnoted, ?_⟩
  rw [utilityClass?, hu, hd]
  exact hstored

theorem addUtilityMethod {a : Definition} (h : Books settings rules r)
    (ha : a.shape = .anonymousClass rule.target) {v : Unit}
    (hadd : Resolution.addUtilityMethod (settings.factoryOf rule)
      (r.withAnonymous rule (settings.factoryOf rule) a) = .ok v r') :
    r'.conversions = (rules ++ [rule]).filterMap (fun rule =>
      conversionFor? rule (settings.factoryOf rule)) ∧
    List.Forall₂ (r'.Leads settings) (rules ++ [rule]) r'.anonymous := by
  obtain ⟨u, hu, howner, _⟩ := h.explicit.stored
  obtain ⟨hnew, hu', _, _, _, hfactories, hconversions, hanonymous⟩ := addUtilityMethod_cases
    (r := r.withAnonymous rule (settings.factoryOf rule) a) hu hadd
  have hreown : (settings.factoryOf rule).reown u.owner = settings.factoryOf rule := by
    rw [howner]
    exact reown_factoryFor _
  rw [hreown] at hnew hu'
  refine ⟨?_, ?_⟩
  · rw [hconversions, withAnonymous, h.conversions, List.filterMap_append]
    cases hc : conversionFor? rule (settings.factoryOf rule) <;> simp [hc]
  · rw [hanonymous]
    refine List.rel_append (h.factories.imp fun other b hother => ?_)
      (.cons ⟨ha, ?_, _, hu', ?_⟩ .nil)
    · -- The signature of the new factory is not among the old ones, so its text is new as well.
      obtain ⟨v, hv, hget⟩ := hother.stored
      obtain rfl := Option.some.inj (hu.symm.trans hv)
      have hne : (settings.factoryOf other).signature ≠ (settings.factoryOf rule).signature :=
        fun he => hnew (he ▸ mem_keys_of_get? hget)
      refine ⟨hother.shape, ?_, _, hu', ?_⟩
      · rw [hfactories, withAnonymous, Table.get?_insert,
          if_neg fun he => hne (factoryKey_inj rfl he), hother.noted]
      · rw [Table.get?_insert, if_neg hne, hget]
    · rw [hfactories, withAnonymous, Table.get?_insert, if_pos rfl]
    · rw [Table.get?_insert, if_pos rfl]

/-- **One more rule.** -/
theorem handleRule (h : Books settings rules r) {v : Unit}
    (hrule : FluentGrammar.handleRule settings rule r = .ok v r') :
    Books settings (rules ++ [rule]) r' := by
  obtain ⟨kind, a, factory, _, s, _, ha, rfl, hadd, rfl⟩ := addFactory_of_handleRule hrule
  obtain ⟨u, hu, howner, _⟩ := h.explicit.stored
  have hown : (r.utilityClass?.map Definition.owner).getD settings.utilityOwner =
      settings.utilityOwner := by
    rw [hu]
    exact howner
  rw [hown] at hadd
  have hshape := shape_of_anonymousFor ha
  have hnoted : (r.withAnonymous rule (settings.factoryOf rule) a).Noted settings.utilityClass
      ((rules.filter (·.name.isSome)).map settings.factoryOf) := h.explicit.congr rfl rfl rfl rfl
  suffices hs : Books settings (rules ++ [rule]) s from hs.congr rfl rfl rfl rfl rfl rfl rfl
  unfold addFactory at hadd
  by_cases hname : rule.name.isSome = true
  · rw [if_pos hname] at hadd
    have hlast := hnoted.addExplicit rfl hadd
    obtain ⟨t, ht, rfl⟩ := Resolution.addExplicit_eq_ok_iff.mp hadd
    obtain ⟨hconversions, hfactories⟩ := h.addUtilityMethod hshape ht
    exact ⟨by simpa [List.filter_append, hname] using hlast, hconversions,
      hfactories.imp fun _ _ ⟨hshape, hnoted, hstored⟩ => ⟨hshape, hnoted, hstored⟩⟩
  · rw [if_neg hname] at hadd
    obtain ⟨hconversions, hfactories⟩ := h.addUtilityMethod hshape hadd
    exact ⟨by simpa [List.filter_append, hname] using (hnoted.addUtilityMethod hadd).1,
      hconversions, hfactories⟩

theorem addUtilityImports (h : Books settings rules r) {imports : OrderedSet String} {v : Unit}
    (hrun : FluentGrammar.addUtilityImports imports r = .ok v r') : Books settings rules r' := by
  obtain rfl := Resolution.modify_eq_ok_iff.mp hrun
  obtain ⟨u, hu, howner, hstored⟩ := h.explicit.stored
  have hu' := utilityClass?_modify hu (f := fun d =>
    { d with imports := d.imports.insertMany imports.toList }) fun _ => id
  refine ⟨⟨(utility_modify ..).trans h.explicit.name, (explicit_modify ..).trans h.explicit.notes,
    fun key => (unique_modify ..).symm ▸ h.explicit.flags key, h.explicit.owners, _, hu', howner,
    hstored⟩, (conversions_modify ..).trans h.conversions, ?_⟩
  rw [anonymous_modify_utility hu]
  refine h.factories.imp fun rule a hleads => ?_
  obtain ⟨v, hv, hget⟩ := hleads.stored
  obtain rfl := Option.some.inj (hu.symm.trans hv)
  exact ⟨hleads.shape, (factories_modify ..).symm ▸ hleads.noted, _, hu', hget⟩

end Books

/-- **All rules**, one after the other: what is kept when imports are added and extended by every
rule. -/
theorem addFactories_induction (P : List ProductionRule → Registry → Prop)
    (imports : ∀ rules imports s t u, P rules s → addUtilityImports imports s = .ok u t → P rules t)
    (step : ∀ rules rule s t u, P rules s → handleRule settings rule s = .ok u t →
      P (rules ++ [rule]) t) (start : P [] r) {units : List CompilationUnit} {u : Unit}
    (h : addFactories settings units r = .ok u r') :
    P (units.flatMap CompilationUnit.rules) r' := by
  refine Resolution.forM_induction_prefix (fun done => P (done.flatMap CompilationUnit.rules))
    (fun done unit _ s t _ _ hs hunit => ?_) start h
  rw [List.flatMap_append, List.flatMap_singleton]
  refine Resolution.forM_induction_prefix
    (fun handled => P (done.flatMap CompilationUnit.rules ++ handled))
    (fun handled rule _ s t _ _ hs hrule => ?_) (by rwa [List.append_nil]) hunit
  obtain ⟨_, q, himports, hrule⟩ := Resolution.bind_eq_ok_iff.mp hrule
  rw [← List.append_assoc]
  exact step _ _ _ _ _ (imports _ _ _ _ _ hs himports) hrule

end Rules

/-! ## After all later stages -/

section Later

variable {settings : Settings} {rule : ProductionRule} {rules : List ProductionRule}
  {touched : String → Prop} {r s : Registry}

/-- The factory of a rule as it is stored, up to its documentation. -/
structure Registry.FactoryOf (settings : Settings) (r : Registry) (rule : ProductionRule)
    (f : Method) : Prop where
  stored : ∃ u, r.utilityClass? = some u ∧ u.methods.get? f.signature = some f
  text : ∃ comment, f = { settings.factoryOf rule with comment := comment }

theorem Registry.Leads.factoryOf {a : Definition} (h : r.Leads settings rule a)
    (hk : r.Keeps touched s) : ∃ f, s.FactoryOf settings rule f := by
  obtain ⟨u, hu, hget⟩ := h.stored
  obtain ⟨u', hu', hkeeps⟩ := hk.utilityClass? hu
  obtain ⟨comment, hget'⟩ := hkeeps.methods _ _ hget
  exact ⟨{ settings.factoryOf rule with comment := comment }, ⟨u', hu', hget'⟩, comment, rfl⟩

theorem Registry.Leads.anonymousOf? {a a' : Definition} (h : r.Leads settings rule a)
    (hk : r.Keeps touched s) (hr : r.names.Nodup) (ha : a.Keeps a') (hmem : a' ∈ s.anonymous)
    {f : Method} (hf : s.FactoryOf settings rule f) : s.anonymousOf? f = some a' := by
  obtain ⟨comment, rfl⟩ := hf.text
  have hnoted : s.factories.get? (factoryKey (settings.factoryOf rule)) = some a'.name := by
    rw [hk.factories, h.noted, ha.name]
  have hfind := find?_of_mem
    ((hk.nodup hr).sublist ((List.sublist_append_right _ _).map _)) hmem
  exact Option.bind_eq_some_iff.mpr ⟨_, hnoted, hfind⟩

theorem Books.exists_explicitMethods (h : Books settings rules r) (hk : r.Keeps touched s) :
    ∃ named rest, s.explicitMethods = named ++ rest ∧
      List.Forall₂ (s.FactoryOf settings) (rules.filter (·.name.isSome)) named ∧
      (s.explicit = r.explicit → rest = []) := by
  obtain ⟨u, hu, howner, hstored⟩ := h.explicit.stored
  obtain ⟨u', hu', hkeeps⟩ := hk.utilityClass? hu
  obtain ⟨more, hmore⟩ := hk.explicit
  refine ⟨r.explicit.filterMap u'.methods.get?, more.filterMap u'.methods.get?, ?_, ?_,
    fun he => ?_⟩
  · rw [Registry.explicitMethods, hu', ← hmore]
    exact List.filterMap_append
  · rw [h.explicit.notes, List.map_map, List.filterMap_map]
    change List.Forall₂ _ _ (List.filterMap
      (fun rule => u'.methods.get? (settings.factoryOf rule).signature) _)
    have hget : ∀ rule ∈ rules.filter (·.name.isSome), ∃ f, s.FactoryOf settings rule f ∧
        u'.methods.get? (settings.factoryOf rule).signature = some f := by
      intro rule hrule
      have hget := hstored _ (List.mem_map_of_mem hrule)
      obtain ⟨comment, hget'⟩ := hkeeps.methods _ _ hget
      have hreown : (settings.factoryOf rule).reown u.owner = settings.factoryOf rule := by
        rw [howner]
        exact reown_factoryFor _
      rw [hreown] at hget'
      exact ⟨_, ⟨⟨u', hu', hget'⟩, comment, rfl⟩, hget'⟩
    generalize rules.filter (·.name.isSome) = named at hget
    induction named with
    | nil => exact .nil
    | cons rule named ih =>
      obtain ⟨⟨f, hf, hget⟩, hrest⟩ := List.forall_mem_cons.mp hget
      simp only [List.filterMap_cons, hget]
      exact .cons hf (ih hrest)
  · rw [← hmore] at he
    rw [List.append_right_eq_self.mp he, List.filterMap_nil]

variable {units : List CompilationUnit} {stages : List Stage}

theorem exists_of_runStages_of_mem (hstages : stages <+: Stage.standard)
    (hrules : .productionRules ∈ stages) (h : runStages settings units stages = .ok s) :
    ∃ later r u, later <+: Stage.standard.drop 3 ∧ stages = Stage.standard.take 3 ++ later ∧
      runStages settings units (Stage.standard.take 3) = .ok r ∧
      later.forM (Stage.run settings units) r = .ok u s := by
  obtain ⟨later, rfl⟩ : Stage.standard.take 3 <+: stages := by
    refine List.prefix_of_prefix_length_le (List.take_prefix _ _) hstages ?_
    by_contra hlength
    rw [List.prefix_iff_eq_take.mp hstages] at hrules
    exact absurd (List.take_subset_take_left _ (by simp at hlength; omega) hrules)
      (by decide : Stage.productionRules ∉ Stage.standard.take 2)
  obtain ⟨_, hrun⟩ := runStages_eq_ok_iff.mp h
  obtain ⟨r, hfirst, hlater⟩ := Resolution.forM_append_eq_ok_iff.mp hrun
  exact ⟨later, r, _, (List.prefix_append_right_inj _).mp hstages, rfl,
    runStages_eq_ok_iff.mpr ⟨_, hfirst⟩, hlater⟩

variable (hp : ∀ unit ∈ units, ∀ d ∈ unit.declarations, d.Proper)
include hp

theorem books_of_load {r₁ r₂ : Registry} {u₁ u₂ : Unit}
    (h₁ : loadInterfaces settings units (Registry.empty settings.utilityClass) = .ok u₁ r₁)
    (h₂ : loadClasses units r₁ = .ok u₂ r₂) : Books settings [] r₂ := by
  obtain ⟨loaded, -, hr₁, hr₂, -, -⟩ := load_spec hp h₁ h₂
  have hempty := noted_empty settings.utilityClass
  obtain ⟨u, hu, hstored⟩ := hempty.stored
  subst hr₁ hr₂
  exact ⟨⟨hempty.name, hempty.notes, hempty.flags, by simp, u,
    utilityClass?_withDefinitions (utilityClass?_withDefinitions hu _) _, hstored⟩, rfl, .nil⟩

/-- **What is noted for the rules** stays noted in all stages after them. -/
theorem books_of_runStages (hstages : stages <+: Stage.standard)
    (hrules : .productionRules ∈ stages) (h : runStages settings units stages = .ok s) :
    ∃ r, runStages settings units (Stage.standard.take 3) = .ok r ∧
      Books settings (units.flatMap CompilationUnit.rules) r ∧ r.Keeps (fun _ => True) s ∧
      (.explicitMethods ∉ stages → s = r) := by
  obtain ⟨later, r, u, hlater, rfl, hr, hrun⟩ := exists_of_runStages_of_mem hstages hrules h
  have hsound := sound_of_runStages hp (List.take_prefix _ _) hr
  refine ⟨r, hr, ?_, ?_, fun hnot => ?_⟩
  · obtain ⟨_, hfirst⟩ := runStages_eq_ok_iff.mp hr
    simp only [Stage.standard, List.take_succ_cons, List.take_zero, Resolution.forM_cons_eq_ok_iff,
      Resolution.forM_nil_eq_ok_iff] at hfirst
    obtain ⟨r₁, h₁, r₂, h₂, _, h₃, rfl⟩ := hfirst
    exact addFactories_induction (Books settings) (fun _ _ _ _ _ h => h.addUtilityImports)
      (fun _ _ _ _ _ h => h.handleRule) (books_of_load hp h₁ h₂) h₃
  · refine Stage.forM_run_keeps (declaredMethods_of_proper hp) hsound (fun stage hmem => ?_) hrun
    have hmem := hlater.subset hmem
    refine ⟨?_, ?_, ?_⟩ <;> rintro rfl <;> exact absurd hmem (by decide)
  · cases later with
    | nil => exact (Resolution.forM_nil_eq_ok_iff.mp hrun).symm
    | cons stage later =>
      obtain ⟨rfl, -⟩ := List.cons_prefix_cons.mp hlater
      exact absurd (by simp) hnot

end Later

end FluentGrammar
