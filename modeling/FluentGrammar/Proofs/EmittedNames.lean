import FluentGrammar.Proofs.FinalTables
import FluentGrammar.Proofs.LaterStages
import FluentGrammar.Proofs.RegisteredNames

/-!
# Names of what is emitted

Definitions and test interfaces are written to files of their names. Definitions have names that
differ without case, and no stage changes them. The name of a test interface is that of its class
with an ending, so test interfaces differ without case as well. But it is compared with the names of
definitions as it is: it may be one of them but for case, and nothing else can be.

* `Registry.Untested`: the names before the last stage, with one lemma for every change and every
  stage.
* `Registry.IsTested`: the classes that get a test interface.
* **`runStages_emitted_names`**: which names can be the same without case.
-/

namespace FluentGrammar

/-! ## Upper-case forms -/

theorem Text.upperCase_append (s t : String) :
    Text.upperCase (s ++ t) = Text.upperCase s ++ Text.upperCase t := by
  simp [Text.upperCase]

theorem Text.upperCase_append_inj {s t suffix : String} :
    Text.upperCase (s ++ suffix) = Text.upperCase (t ++ suffix) ↔
      Text.upperCase s = Text.upperCase t := by
  rw [upperCase_append, upperCase_append, String.append_left_inj]

namespace Registry

variable {r s : Registry} {name context : String} {d : Definition} {m : Method}

theorem Folded.nodup_names (h : r.Folded) : (r.definitions.map Definition.name).Nodup := by
  refine List.Nodup.of_map Text.upperCase ?_
  rw [List.map_map]
  exact h.nodup_upperCase

theorem Folded.eq_of_upperCase (h : r.Folded) {n n' : String}
    (hn : n ∈ r.definitions.map Definition.name) (hn' : n' ∈ r.definitions.map Definition.name)
    (hupper : Text.upperCase n = Text.upperCase n') : n = n' := by
  refine List.inj_on_of_nodup_map (f := Text.upperCase) ?_ hn hn' hupper
  rw [List.map_map]
  exact h.nodup_upperCase

theorem Folded.of_names (h : r.Folded) (hf : s.foldedNames = r.foldedNames)
    (hd : s.definitions.map Definition.name = r.definitions.map Definition.name) : s.Folded := by
  have hpairs : ∀ ds : List Definition, (ds.map fun d => (Text.upperCase d.name, d.name)) =
      (ds.map Definition.name).map fun name => (Text.upperCase name, name) := by
    intro ds
    rw [List.map_map]
    rfl
  rw [Folded, hf, h, hpairs, hpairs, hd]

/-! ## Before the last stage -/

/-- The table of upper-case forms has the names of the definitions, the utility class is one of them,
and there are no test interfaces. -/
structure Untested (r : Registry) : Prop where
  folded : r.Folded
  utility : r.utility ∈ r.definitions.map Definition.name
  tests : r.tests = []

namespace Untested

theorem of_names (h : r.Untested) (hu : s.utility = r.utility)
    (hd : s.definitions.map Definition.name = r.definitions.map Definition.name)
    (hf : s.foldedNames = r.foldedNames) (ht : s.tests = r.tests) : s.Untested where
  folded := h.folded.of_names hf hd
  utility := by rw [hu, hd]; exact h.utility
  tests := ht.trans h.tests

theorem modify (h : r.Untested) {f : Definition → Definition}
    (hf : ∀ d, d.name = name → (f d).name = name) : (r.modify name f).Untested := by
  obtain ⟨hu, ht, hd, _⟩ := forall₂_modify (r := r) (R := fun d d' => d'.name = d.name)
    (fun _ => rfl) fun d _ hname => (hf d hname).trans hname.symm
  exact h.of_names hu (names_of_forall₂ (fun _ _ => id) hd) (foldedNames_modify ..) ht

theorem addMethod (h : r.Untested) {u : Unit}
    (hadd : Resolution.addMethod name context m r = .ok u s) : s.Untested := by
  obtain ⟨d, d', hd, hd', rfl⟩ := Resolution.addMethod_eq_ok_iff.mp hadd
  exact h.modify fun _ _ => (Definition.sameFrame_of_addMethod hd').name.trans (name_of_get? hd)

theorem addMethods (h : r.Untested) {ms : List Method} {u : Unit}
    (hadd : ms.forM (Resolution.addMethod name context) r = .ok u s) : s.Untested :=
  Resolution.forM_induction Untested (fun _ _ _ _ _ hs hstep => hs.addMethod hstep) h hadd

theorem addExplicit (h : r.Untested) {u : Unit} (hadd : Resolution.addExplicit m r = .ok u s) :
    s.Untested := by
  obtain ⟨q, hq, rfl⟩ := Resolution.addExplicit_eq_ok_iff.mp hadd
  exact (h.addMethod hq).of_names rfl rfl rfl rfl

theorem addFactory (h : r.Untested) {rule : ProductionRule} {u : Unit}
    (hadd : addFactory rule m r = .ok u s) : s.Untested := by
  unfold FluentGrammar.addFactory at hadd
  split at hadd
  · exact h.addExplicit hadd
  · exact h.addMethod hadd

theorem addDefinition (h : r.Untested) {u : Unit}
    (hadd : Resolution.addDefinition d r = .ok u s) : s.Untested := by
  have hfolded := h.folded.addDefinition hadd
  obtain ⟨-, -, -, rfl⟩ := Resolution.addDefinition_eq_ok_iff.mp hadd
  refine ⟨hfolded, ?_, h.tests⟩
  rw [List.map_append]
  exact List.mem_append_left _ h.utility

theorem empty (utility : String) : (Registry.empty utility).Untested :=
  ⟨folded_empty utility, List.mem_singleton.mpr rfl, rfl⟩

end Untested

end Registry

section Stages

open Registry

variable {r r' : Registry} {name utility : String} {settings : Settings}
  {units : List CompilationUnit} {u : Unit}

theorem addUtilityImports_untested (imports : OrderedSet String) :
    Preserves Untested (addUtilityImports imports) :=
  .modify fun _ hr => hr.modify fun _ => id

theorem handleRule_untested (hr : r.Untested) {rule : ProductionRule}
    (h : handleRule settings rule r = .ok u r') : r'.Untested := by
  obtain ⟨kind, a, factory, _, r₁, _, s, _, _, _, hanonymous, hfactory, rfl⟩ := handleRule_cases h
  obtain ⟨-, rfl⟩ := Resolution.addAnonymous_eq_ok_iff.mp hanonymous
  refine Untested.of_names (r := s) (Untested.addFactory ?_ hfactory) rfl rfl rfl rfl
  exact hr.of_names rfl rfl rfl rfl

theorem gainInterface_untested (hr : r.Untested) {via target : TypeExpr} {c : Conversion}
    {gained : List TypeExpr} (h : gainInterface name utility via target c r = .ok gained r') :
    r'.Untested := by
  obtain ⟨paths, names, _, _, _, _, _, _, _, hadd⟩ := gainInterface_changes h
  have h₁ : (r.modify name (·.addInterface target)).Untested :=
    hr.modify fun d hd => (Definition.Keeps.addInterface d target).name.trans hd
  refine Untested.addMethods ?_ hadd
  exact h₁.modify fun _ => id

theorem promoteMethod_untested (hr : r.Untested) {m : Method} (h : promoteMethod m r = .ok u r') :
    r'.Untested := by
  rcases promoteMethod_cases h with rfl | ⟨d, _, member, _, _, hadd⟩
  · exact hr
  · have hnoted : (r.recordPromotion m d.name member).Untested := hr.of_names rfl rfl rfl rfl
    exact hnoted.addMethod hadd

theorem selectFor_untested (hr : r.Untested) {group : String × List Method}
    (h : selectFor name group r = .ok u r') : r'.Untested := by
  rcases selectFor_cases h with rfl | ⟨_, _, member, explicit, _, _, _, hadd⟩
  · exact hr
  · have hnoted : (r.recordPromotion explicit name member).Untested := hr.of_names rfl rfl rfl rfl
    exact hnoted.addMethod hadd

/-- No stage but the last adds a test interface or a name that is there but for case. -/
theorem Stage.run_untested {stage : Stage} (hstage : stage ≠ .finalize) (hr : r.Untested)
    (h : stage.run settings units r = .ok u r') : r'.Untested := by
  refine Stage.run_preserves ?_ hr h
  cases stage with
  | loadInterfaces =>
    refine fun d _ => .refl fun s _ t hs h => ?_
    obtain ⟨d', -, -, hadd⟩ := loadInterface_eq_ok h
    exact hs.addDefinition hadd
  | loadClasses => exact fun d _ => .refl fun s _ t hs h => hs.addDefinition h
  | productionRules =>
    exact fun unit _ => ⟨addUtilityImports_untested _, fun rule _ =>
      .refl fun s _ t hs h => handleRule_untested hs h⟩
  | explicitMethods =>
    exact fun unit _ => ⟨addUtilityImports_untested _, fun m _ _ =>
      .refl fun s _ t hs h => hs.addExplicit h⟩
  | conversionClosure =>
    exact fun d _ _ via target c _ => .refl fun s _ t hs h => gainInterface_untested hs h
  | interfaceEnhancement => exact fun m _ => .refl fun s _ t hs h => promoteMethod_untested hs h
  | implementMethods =>
    refine fun sorted _ name _ => .refl fun s _ t hs h => ?_
    obtain ⟨_, _, _, _, hadd⟩ := implementClass_eq_ok h
    exact hs.addMethods hadd
  | ambiguityResolution =>
    exact fun name _ group _ => .refl fun s _ t hs h => selectFor_untested hs h
  | finalize => exact absurd rfl hstage

end Stages

/-! ## Test interfaces -/

section Tests

open Registry

variable {r s : Registry} {settings : Settings} {name : String} {tests : List Definition}

/-- A class gets a test interface if it has a public method whose name is not reserved. The utility
class gets one if it has an explicit method with something to test. -/
def Registry.IsTested (settings : Settings) (r : Registry) (name : String) : Prop :=
  if name = r.utility then ∃ m ∈ r.explicitMethods, explicitTests r m ≠ []
  else ∃ d ∈ r.classes, d.name = name ∧ ∃ t, r.allMethods d = .ok t ∧
    ∃ m ∈ t.values, m.isPublic = true ∧ settings.isReserved m.name = false

/-- The names of the classes in the order of their test interfaces. -/
def Registry.testOrder (r : Registry) : List String :=
  (r.classes.filter (·.name ≠ r.utility)).map Definition.name ++ [r.utility]

theorem Registry.IsTested.mem_testOrder (h : r.IsTested settings name) : name ∈ r.testOrder := by
  unfold IsTested at h
  split at h
  · rename_i hname
    simp [testOrder, hname]
  · rename_i hname
    obtain ⟨d, hd, rfl, _⟩ := h
    have hmem : d ∈ r.classes.filter (·.name ≠ r.utility) :=
      List.mem_filter.mpr ⟨hd, by simpa using hname⟩
    exact List.mem_append_left _ (List.mem_map_of_mem hmem)

theorem Registry.Untested.mem_names_of_mem_testOrder (hr : r.Untested) (h : name ∈ r.testOrder) :
    name ∈ r.definitions.map Definition.name := by
  rcases List.mem_append.mp h with h | h
  · obtain ⟨d, hd, rfl⟩ := List.mem_map.mp h
    exact List.mem_map_of_mem (List.mem_filter.mp (List.mem_filter.mp hd).1).1
  · obtain rfl := List.mem_singleton.mp h
    exact hr.utility

theorem Registry.Untested.nodup_testOrder (hr : r.Untested) : r.testOrder.Nodup := by
  have hsub : ((r.classes.filter (·.name ≠ r.utility)).map Definition.name).Sublist
      (r.definitions.map Definition.name) :=
    (List.filter_sublist.trans List.filter_sublist).map _
  rw [testOrder, List.nodup_append]
  refine ⟨hr.folded.nodup_names.sublist hsub, by simp, fun n hn u hu hnu => ?_⟩
  obtain ⟨d, hd, rfl⟩ := List.mem_map.mp hn
  have hne := (List.mem_filter.mp hd).2
  simp [hnu.trans (List.mem_singleton.mp hu)] at hne

theorem testInterface?_spec {methods : List (String × String)} {o : Option Definition}
    (h : testInterface? name methods = .ok o) :
    (o.isSome = true ↔ methods ≠ []) ∧ ∀ d ∈ o, d.name = name := by
  unfold testInterface? at h
  split at h
  · rename_i hempty
    obtain rfl := Except.ok.inj h
    simpa using hempty
  · rename_i hmethods
    obtain ⟨e, hadd, rfl⟩ := Except.map_eq_ok_iff.mp h
    refine ⟨by simpa using hmethods, ?_⟩
    rintro d ⟨⟩
    exact (Definition.addMethods_spec hadd).1.name

theorem classTests_spec (hr : r.Untested) {d : Definition} (hd : d ∈ r.classes)
    (hn : d.name ≠ r.utility) {o : Option Definition} (h : classTests r settings d = .ok o) :
    (o.isSome = true ↔ r.IsTested settings d.name) ∧
      ∀ e ∈ o, e.name = d.name ++ settings.testSuffix := by
  obtain ⟨t, ht, h⟩ := Except.bind_eq_ok_iff.mp h
  obtain ⟨hsome, hname⟩ := testInterface?_spec h
  refine ⟨hsome.trans ?_, hname⟩
  have htests : (∃ m ∈ t.values, m.isPublic = true ∧ settings.isReserved m.name = false) ↔
      r.IsTested settings d.name := by
    rw [IsTested, if_neg hn]
    constructor
    · exact fun hm => ⟨d, hd, rfl, t, ht, hm⟩
    · rintro ⟨e, he, hname, t', ht', hm⟩
      obtain rfl : e = d := List.inj_on_of_nodup_map hr.folded.nodup_names
        (List.mem_filter.mp he).1 (List.mem_filter.mp hd).1 hname
      cases ht.symm.trans ht'
      exact hm
  rw [← htests]
  simp

theorem utilityTests_spec {o : Option Definition} (h : utilityTests r settings = .ok o) :
    (o.isSome = true ↔ r.IsTested settings r.utility) ∧
      ∀ e ∈ o, e.name = r.utility ++ settings.testSuffix := by
  obtain ⟨hsome, hname⟩ := testInterface?_spec h
  refine ⟨hsome.trans ?_, hname⟩
  rw [IsTested, if_pos rfl]
  simp

theorem names_filterMap_tests {suffix : String} {P : String → Prop} [DecidablePred P]
    {cs : List String} {os : List (Option Definition)}
    (h : List.Forall₂ (fun c o => (o.isSome = true ↔ P c) ∧ ∀ d ∈ o, d.name = c ++ suffix) cs os) :
    (os.filterMap id).map Definition.name = (cs.filter P).map (· ++ suffix) := by
  induction h with
  | nil => rfl
  | @cons c o cs os hco _ ih =>
    obtain ⟨hsome, hname⟩ := hco
    cases o with
    | none =>
      have hc : ¬ P c := by simpa using hsome
      rw [List.filter_cons_of_neg (by simpa using hc), ← ih]
      rfl
    | some d =>
      have hc : P c := by simpa using hsome
      rw [List.filter_cons_of_pos (by simpa using hc), List.map_cons, ← ih, ← hname d rfl]
      rfl

theorem names_of_allTests [DecidablePred (r.IsTested settings)] (hr : r.Untested)
    (h : allTests r settings = .ok tests) :
    tests.map Definition.name =
      (r.testOrder.filter (r.IsTested settings)).map (· ++ settings.testSuffix) := by
  unfold allTests TableSource.allTests at h
  simp only [Except.bind_eq_ok_iff, Except.pure_eq_ok_iff] at h
  obtain ⟨os, hos, o, ho, rfl⟩ := h
  refine names_filterMap_tests ?_
  have hclasses := (List.forall₂_and_left _ _).mpr ⟨fun d hd => hd, Except.mapM_eq_ok_iff.mp hos⟩
  refine List.rel_append ?_ (.cons (utilityTests_spec ho) .nil)
  rw [List.forall₂_map_left_iff]
  refine hclasses.imp fun d o hpair => ?_
  obtain ⟨hd, hn⟩ := List.mem_filter.mp hpair.1
  exact classTests_spec hr hd (by simpa using hn) hpair.2

/-- Test interfaces have names that differ without case, as their classes have. -/
theorem nodup_of_allTests (hr : r.Untested) (h : allTests r settings = .ok tests) :
    (tests.map fun d => Text.upperCase d.name).Nodup := by
  classical
  rw [← Function.comp_def Text.upperCase, ← List.map_map, names_of_allTests hr h, List.map_map]
  refine List.Nodup.map_on (fun c hc c' hc' hupper => ?_) (hr.nodup_testOrder.filter _)
  refine hr.folded.eq_of_upperCase
    (hr.mem_names_of_mem_testOrder (List.mem_filter.mp hc).1)
    (hr.mem_names_of_mem_testOrder (List.mem_filter.mp hc').1) ?_
  exact Text.upperCase_append_inj.mp hupper

theorem mem_names_of_allTests (hr : r.Untested) (h : allTests r settings = .ok tests) :
    name ∈ tests.map Definition.name ↔
      ∃ c, r.IsTested settings c ∧ name = c ++ settings.testSuffix := by
  classical
  rw [names_of_allTests hr h, List.mem_map]
  constructor
  · rintro ⟨c, hc, rfl⟩
    exact ⟨c, by simpa using (List.mem_filter.mp hc).2, rfl⟩
  · rintro ⟨c, hc, rfl⟩
    exact ⟨c, List.mem_filter.mpr ⟨hc.mem_testOrder, by simpa using hc⟩, rfl⟩

theorem Registry.isTested_withTests :
    IsTested settings { r with tests := tests } name ↔ r.IsTested settings name := by
  simp only [IsTested, allMethods_withTests]
  rfl

/-! ## The last stage -/

theorem documentRules_untested (hr : r.Untested) : (documentRules r).Untested :=
  hr.of_names rfl (names_of_forall₂ (fun _ _ => id) (forall₂_documentRules fun _ _ => rfl)) rfl rfl

theorem documentPromotions_untested (hr : r.Untested) : (documentPromotions r).Untested :=
  documentPromotions_induction Untested (fun _ _ hs => hs.modify fun _ => id) hr

end Tests

/-! ## All stages -/

open Registry

variable {settings : Settings} {units : List CompilationUnit} {r : Registry}

theorem untested_before_finish (h : runStages settings units Stage.standard = .ok r) :
    ∃ s u, s.Untested ∧ finish settings s = .ok u r := by
  obtain ⟨u, hrun⟩ := runStages_eq_ok_iff.mp h
  have hsplit : Stage.standard = Stage.standard.dropLast ++ [.finalize] := rfl
  rw [hsplit] at hrun
  obtain ⟨s, hbefore, hlast⟩ := Resolution.forM_append_eq_ok_iff.mp hrun
  obtain ⟨_, hfinish, hend⟩ := Resolution.forM_cons_eq_ok_iff.mp hlast
  obtain rfl := Resolution.forM_nil_eq_ok_iff.mp hend
  refine ⟨s, u, Resolution.forM_induction Untested (fun stage hmem s t u hs hstep => ?_) (.empty _)
    hbefore, hfinish⟩
  exact stage.run_untested (ne_of_mem_of_not_mem hmem (by decide)) hs hstep

/-- **Names of what is emitted.** All stages succeed. Then no two definitions have names that are
the same without case, and neither have two test interfaces; and no name is given twice. The names
of test interfaces are those of the tested classes with the ending. So the names of all that is
emitted differ without case exactly if no test interface is named like a definition but for
case. -/
theorem runStages_emitted_names (h : runStages settings units Stage.standard = .ok r) :
    (r.definitions.map fun d => Text.upperCase d.name).Nodup ∧
    (r.tests.map fun d => Text.upperCase d.name).Nodup ∧
    ((r.definitions ++ r.tests).map Definition.name).Nodup ∧
    (∀ name, name ∈ r.tests.map Definition.name ↔
      ∃ c, r.IsTested settings c ∧ name = c ++ settings.testSuffix) ∧
    (((r.definitions ++ r.tests).map fun d => Text.upperCase d.name).Nodup ↔
      ∀ c, r.IsTested settings c → ∀ d ∈ r.definitions,
        Text.upperCase d.name ≠ Text.upperCase (c ++ settings.testSuffix)) := by
  obtain ⟨s, u, hs, hfinish⟩ := untested_before_finish h
  obtain ⟨q, tests, hdocument, htests, hr, hnew⟩ := finish_cases hfinish
  have hq : q.Untested := hdocument ▸ documentPromotions_untested (documentRules_untested hs)
  rw [hq.tests, List.nil_append] at hr
  subst hr
  have hdistinct := nodup_of_allTests hq htests
  have hnames : ∀ name, name ∈ tests.map Definition.name ↔
      ∃ c, IsTested settings { q with tests := tests } c ∧ name = c ++ settings.testSuffix := by
    intro name
    simp only [isTested_withTests]
    exact mem_names_of_allTests hq htests
  refine ⟨hq.folded.nodup_upperCase, hdistinct, ?_, hnames, ?_⟩
  · rw [List.map_append, List.nodup_append]
    refine ⟨hq.folded.nodup_names, .of_map Text.upperCase (by rwa [List.map_map]), ?_⟩
    -- A test interface is refused if its exact name is found among the definitions.
    intro n hn n' hn' heq
    obtain ⟨d, hd, rfl⟩ := List.mem_map.mp hn
    obtain ⟨t, ht, rfl⟩ := List.mem_map.mp hn'
    have hnone := List.find?_eq_none.mp (hnew t ht) d (List.mem_append_left _ hd)
    simp [heq] at hnone
  · rw [List.map_append, List.nodup_append]
    constructor
    · rintro ⟨_, _, hne⟩ c hc d hd hupper
      obtain ⟨t, ht, htname⟩ := List.mem_map.mp ((hnames _).mpr ⟨c, hc, rfl⟩)
      refine hne _ (List.mem_map_of_mem hd) _ (List.mem_map_of_mem ht) ?_
      rw [hupper, htname]
    · -- Within definitions and within test interfaces names differ anyway.
      intro hclash
      refine ⟨hq.folded.nodup_upperCase, hdistinct, fun n hn n' hn' heq => ?_⟩
      obtain ⟨d, hd, rfl⟩ := List.mem_map.mp hn
      obtain ⟨t, ht, rfl⟩ := List.mem_map.mp hn'
      obtain ⟨c, hc, hname⟩ := (hnames t.name).mp (List.mem_map_of_mem ht)
      exact hclash c hc d hd (heq.trans (by rw [hname]))

/-- The class `C` has a public method, and there is an interface of the given name. -/
def Tree.testedClass (interface : String) : Tree :=
  node "Unit" [interfaceNode interface [] [],
    classNode [] "C" [] none [] [methodNode ["public"] "f" [] []]]

/-- Beside an interface `I` the names of `C` and its test interface differ without case. -/
theorem runStages_emitted_names_apart :
    ∃ units r, readUnits sqlSettings [.testedClass "I"] = .ok units ∧
      runStages sqlSettings units Stage.standard = .ok r ∧ r.IsTested sqlSettings "C" ∧
      r.tests.map Definition.name = ["CTest"] ∧
      ((r.definitions ++ r.tests).map fun d => Text.upperCase d.name).Nodup := by
  have hrun : resolvesTo [.testedClass "I"] (fun r => r.tests.map Definition.name = ["CTest"] ∧
      ∀ d ∈ r.definitions, Text.upperCase d.name ≠ Text.upperCase "CTest") = true := by
    decide +kernel
  obtain ⟨units, r, hu, _, h, hp⟩ := exists_of_resolvesTo hrun
  obtain ⟨htests, hupper⟩ := of_decide_eq_true hp
  obtain ⟨_, _, _, hnames, hdistinct⟩ := runStages_emitted_names h
  rw [htests] at hnames
  obtain ⟨c, hc, hname⟩ := (hnames "CTest").mp List.mem_cons_self
  obtain rfl : "C" = c := (String.append_left_inj "Test").mp hname
  refine ⟨units, r, hu, h, hc, htests, hdistinct.mpr fun c hc d hd => ?_⟩
  have hmem := (hnames _).mpr ⟨c, hc, rfl⟩
  rw [List.mem_singleton.mp hmem]
  exact hupper d hd

/-- Beside an interface `CTEST` the test interface of `C` is added all the same. -/
theorem runStages_emitted_names_clash :
    ∃ units r, readUnits sqlSettings [.testedClass "CTEST"] = .ok units ∧
      runStages sqlSettings units Stage.standard = .ok r ∧
      r.tests.map Definition.name = ["CTest"] ∧
      (∃ d ∈ r.definitions, d.name = "CTEST") ∧
      ¬ ((r.definitions ++ r.tests).map fun d => Text.upperCase d.name).Nodup := by
  have hrun : resolvesTo [.testedClass "CTEST"] (fun r =>
      r.tests.map Definition.name = ["CTest"] ∧ (∃ d ∈ r.definitions, d.name = "CTEST") ∧
      ¬ ((r.definitions ++ r.tests).map fun d => Text.upperCase d.name).Nodup) = true := by
    decide +kernel
  obtain ⟨units, r, hu, _, h, hp⟩ := exists_of_resolvesTo hrun
  exact ⟨units, r, hu, h, of_decide_eq_true hp⟩

end FluentGrammar
