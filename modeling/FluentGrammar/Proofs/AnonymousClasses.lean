import FluentGrammar.Proofs.ArchetypeCover

/-!
# Rules and their anonymous classes

Every rule has one factory, and every factory makes one anonymous class: in the order of the rules,
the anonymous classes are all there are. The class extends the target of the rule and implements the
archetype methods of the target. Later stages keep to that, with two reservations. A target that
extends a class gains what the class gains by conversions. And an explicit method with the name of
an archetype method is promoted before anonymous classes get what they inherit.

* `Registry.Makes`: what the factory of a rule looks like.
* `Registry.Answers`: the anonymous class of a rule after some stages.
* `answers_of_forM`: the anonymous classes after each stage.
* `Registry.Corresponds`: what the rules have brought into a registry.
* **`anonymousClasses_of_rules`**: rules, factories and anonymous classes correspond.
* `anonymousClasses_not_covered`: neither reservation can be left out.
-/

namespace FluentGrammar

open Registry

variable {settings : Settings} {units : List CompilationUnit} {stages later : List Stage}
  {rules : List ProductionRule} {r s : Registry}

/-! ## Factories -/

/-- The method is the factory of the rule, and the utility class has it. -/
structure Registry.Makes (settings : Settings) (r : Registry) (rule : ProductionRule) (f : Method) :
    Prop where
  stored : ∃ u, r.utilityClass? = some u ∧ u.methods.get? f.signature = some f
  name : f.name = factoryName settings rule
  typeParams : f.typeParams = rule.typeParams
  params : f.params.map (fun p => (p.name, p.callType)) = rule.arguments
  result : f.result = rule.target

theorem Registry.FactoryOf.makes {rule : ProductionRule} {f : Method}
    (h : r.FactoryOf settings rule f) : r.Makes settings rule f := by
  obtain ⟨comment, rfl⟩ := h.text
  refine ⟨h.stored, rfl, rfl, ?_, rfl⟩
  change (rule.arguments.map _).map _ = _
  rw [List.map_map]
  exact List.map_id _

theorem forall₂_filterMap_conversionFor? (rules : List ProductionRule) :
    List.Forall₂ (fun rule c => rule.arguments.map Prod.snd = [c.source] ∧ c.target = rule.target ∧
      c.typeParams = rule.typeParams ∧ c.method = settings.factoryOf rule)
      (rules.filter fun rule => rule.name.isNone && rule.arguments.length = 1)
      (rules.filterMap fun rule => conversionFor? rule (settings.factoryOf rule)) := by
  induction rules with
  | nil => exact .nil
  | cons rule rules ih =>
    cases hname : rule.name with
    | some name => simpa [conversionFor?, hname] using ih
    | none =>
      match harguments : rule.arguments with
      | [] => simpa [conversionFor?, hname, harguments] using ih
      | [(_, source)] => simpa [conversionFor?, hname, harguments] using ih
      | _ :: _ :: _ => simpa [conversionFor?, hname, harguments] using ih

/-! ## Stage by stage -/

/-- What the anonymous class of a rule has after some stages: an implementation of every archetype
method in the table of the target, apart from promoted ones while nothing is settled. -/
structure Registry.Answers (settings : Settings) (stages : List Stage) (r : Registry)
    (rule : ProductionRule) (a : Definition) : Prop where
  covers : r.Covers settings
    (fun m => stages.getLast? = some .interfaceEnhancement → m.delegate = none) rule.target a
  table : stages.getLast? ≠ some .interfaceEnhancement →
    ∃ d t, r.get? rule.target.name = some d ∧ r.allMethods d = .ok t

theorem Registry.ServesAll.answers (h : r.ServesAll settings rules) (stages : List Stage) :
    List.Forall₂ (r.Answers settings stages) rules r.anonymous :=
  h.imp fun _ _ hserves => ⟨hserves.covers.imp fun _ _ => trivial, fun _ => hserves.table⟩

theorem Registry.ServesAll.forM_run (h : r.ServesAll settings rules) (hs : r.Sound)
    (hg : r.Grounded) (hd : DeclaredMethods units)
    (hstages : ∀ stage ∈ stages, stage = .ambiguityResolution ∨ stage = .finalize)
    {u : Unit} (hrun : stages.forM (Stage.run settings units) r = .ok u s) :
    s.ServesAll settings rules := by
  refine (Resolution.forM_induction (fun s => s.Sound ∧ s.Grounded ∧ s.ServesAll settings rules)
    (fun stage hmem s t u hrs hstep => ?_) ⟨hs, hg, h⟩ hrun).2.2
  obtain ⟨hs, hg, h⟩ := hrs
  obtain ⟨hi, hc, hp, utility, hgains⟩ : stage ≠ .loadInterfaces ∧ stage ≠ .loadClasses ∧
      stage ≠ .productionRules ∧ ∃ utility, Related (Definition.Gains utility) s t := by
    rcases hstages stage hmem with rfl | rfl
    · exact ⟨by simp, by simp, by simp, _, selectMethods_gains hs hstep⟩
    · exact ⟨by simp, by simp, by simp, _, (finish_gains hs hstep).1⟩
  have he := stage.run_evolves hd hi hc hs hstep
  exact ⟨hs.evolves he, hg.evolves hs he,
    h.gains hs hg he hgains (stage.run_keeps hs hi hc hp hstep).anonymous⟩

/-- **After each stage** the anonymous classes answer for their rules. -/
theorem answers_of_forM (h : r.Ready settings rules) (hd : DeclaredMethods units)
    (hg : .conversionClosure ∈ later → r.Grounded) (hlater : later <+: Stage.standard.drop 3)
    {u : Unit} (hrun : later.forM (Stage.run settings units) r = .ok u s) :
    List.Forall₂ (s.Answers settings later) rules s.anonymous := by
  rcases List.prefix_cons_iff.mp hlater with rfl | ⟨later, rfl, hlater₄⟩
  · exact Resolution.forM_nil_eq_ok_iff.mp hrun ▸ h.serves.answers _
  obtain ⟨r₄, h₄, hrun⟩ := Resolution.forM_cons_eq_ok_iff.mp hrun
  have hready₄ := h.addExplicitMethods hd h₄
  rcases List.prefix_cons_iff.mp hlater₄ with rfl | ⟨later, rfl, hlater₅⟩
  · exact Resolution.forM_nil_eq_ok_iff.mp hrun ▸ hready₄.serves.answers _
  obtain ⟨r₅, h₅, hrun⟩ := Resolution.forM_cons_eq_ok_iff.mp hrun
  have hg₄ := (hg (by simp)).evolves h.sound
    (Stage.run_evolves hd (by decide) (by decide) h.sound h₄)
  have hready₅ := hready₄.closeClasses hd hg₄ h₅
  rcases List.prefix_cons_iff.mp hlater₅ with rfl | ⟨later, rfl, hlater₆⟩
  · exact Resolution.forM_nil_eq_ok_iff.mp hrun ▸ hready₅.serves.answers _
  obtain ⟨r₆, h₆, hrun⟩ := Resolution.forM_cons_eq_ok_iff.mp hrun
  have hg₅ := hg₄.evolves hready₄.sound
    (Stage.run_evolves hd (by decide) (by decide) hready₄.sound h₅)
  rcases List.prefix_cons_iff.mp hlater₆ with rfl | ⟨later, rfl, hlater₇⟩
  · obtain rfl := Resolution.forM_nil_eq_ok_iff.mp hrun
    exact (hready₅.promoteMethods hg₅ h₆).imp fun _ _ hcovers =>
      ⟨hcovers.imp fun _ hm => hm rfl, fun hne => absurd rfl hne⟩
  obtain ⟨r₇, h₇, hrun⟩ := Resolution.forM_cons_eq_ok_iff.mp hrun
  have he₆ := Stage.run_evolves hd (by decide) (by decide) hready₅.sound h₆
  have hs₆ := hready₅.sound.evolves he₆
  have he₇ := Stage.run_evolves hd (by decide) (by decide) hs₆ h₇
  have hserves₇ := hready₅.implementMethods hd hg₅ h₆ h₇
  have hlast : ∀ stage ∈ later, stage = .ambiguityResolution ∨ stage = .finalize :=
    fun stage hmem => by simpa using hlater₇.subset hmem
  exact (hserves₇.forM_run (hs₆.evolves he₇) ((hg₅.evolves hready₅.sound he₆).evolves hs₆ he₇) hd
    hlast hrun).answers _

theorem answers_of_runStages (hp : ∀ unit ∈ units, ∀ d ∈ unit.declarations, d.Proper)
    (hstages : stages <+: Stage.standard) (hrules : .productionRules ∈ stages)
    (hi : .conversionClosure ∈ stages → ExtendsInterfaces units)
    (h : runStages settings units stages = .ok r) :
    List.Forall₂ (r.Answers settings stages) (units.flatMap CompilationUnit.rules) r.anonymous := by
  obtain ⟨later, r₃, _, hlater, rfl, hr₃, hrun⟩ := exists_of_runStages_of_mem hstages hrules h
  obtain ⟨hready, hgrounded⟩ := ready_of_runStages hp hr₃
  have hlast : (Stage.standard.take 3 ++ later).getLast? = some .interfaceEnhancement ↔
      later.getLast? = some .interfaceEnhancement := by
    rw [List.getLast?_append]
    cases later.getLast? <;> simp [Stage.standard]
  refine (answers_of_forM hready (declaredMethods_of_proper hp) (fun hmem => ?_) hlater hrun).imp
    fun rule a ha => ⟨ha.covers.imp fun m hm hl => hm (hlast.mpr hl), fun hne => ?_⟩
  · exact hgrounded (hi (List.mem_append_right _ hmem))
  · exact ha.table fun hl => hne (hlast.mpr hl)

/-! ## The correspondence -/

/-- What the rules of all units have brought into a registry by the end of some stages. -/
structure Registry.Corresponds (settings : Settings) (units : List CompilationUnit)
    (stages : List Stage) (r : Registry) : Prop where
  /-- The anonymous classes are those that the factories of the rules make, in their order. -/
  classes : List.Forall₂ (fun rule a => a.shape = .anonymousClass rule.target ∧
      ∃ f, r.Makes settings rule f ∧ r.anonymousOf? f = some a)
    (units.flatMap CompilationUnit.rules) r.anonymous
  /-- They implement all archetype methods that the targets had when the rules were handled. -/
  covers : ∀ s, runStages settings units (Stage.standard.take 3) = .ok s →
    List.Forall₂ (fun rule a => s.Covers settings (fun _ => True) rule.target a)
      (units.flatMap CompilationUnit.rules) r.anonymous
  /-- And all that the targets have now, where interfaces extend interfaces only. -/
  answers : (.conversionClosure ∈ stages → ExtendsInterfaces units) →
    List.Forall₂ (r.Answers settings stages) (units.flatMap CompilationUnit.rules) r.anonymous
  /-- The conversions are the rules without a name that have one argument. -/
  conversions : List.Forall₂ (fun rule c => rule.arguments.map Prod.snd = [c.source] ∧
      c.target = rule.target ∧ c.typeParams = rule.typeParams ∧ c.method = settings.factoryOf rule)
    ((units.flatMap CompilationUnit.rules).filter fun rule =>
      rule.name.isNone && rule.arguments.length = 1) r.conversions
  /-- The first explicit methods are the factories of the rules with a name. -/
  explicit : ∃ named rest, r.explicitMethods = named ++ rest ∧
    List.Forall₂ (r.Makes settings)
      ((units.flatMap CompilationUnit.rules).filter (·.name.isSome)) named ∧
    (.explicitMethods ∉ stages → rest = [])

/-- **Rules, factories and anonymous classes correspond** from the moment the rules have been
handled. -/
theorem anonymousClasses_of_rules {trees : List Tree} (hu : readUnits settings trees = .ok units)
    (hstages : stages <+: Stage.standard) (hrules : .productionRules ∈ stages)
    (h : runStages settings units stages = .ok r) : r.Corresponds settings units stages := by
  have hp := proper_readUnits hu
  obtain ⟨r₃, hr₃, hbooks, hkeeps, hsame⟩ := books_of_runStages hp hstages hrules h
  have hready := (ready_of_runStages hp hr₃).1
  have hs := hready.sound
  refine ⟨?_, fun s hs₃ => ?_, fun hi => answers_of_runStages hp hstages hrules hi h, ?_, ?_⟩
  · refine forall₂_of_common (fun a ha rule a' hleads hpair => ?_) hbooks.factories.flip
      (forall₂_and_mem_right hkeeps.anonymous)
    obtain ⟨hka, hmem⟩ := hpair
    obtain ⟨f, hf⟩ := hleads.factoryOf hkeeps
    exact ⟨(hka.shape (hs.unnamed a ha)).trans hleads.shape, f, hf.makes,
      hleads.anonymousOf? hkeeps hs.nodup hka hmem hf⟩
  · cases hr₃.symm.trans hs₃
    exact forall₂_of_common
      (fun a _ rule a' hserves hka => hserves.covers.keeps hka hserves.kind_eq)
      hready.serves.flip hkeeps.anonymous
  · rw [hkeeps.conversions, hbooks.conversions]
    exact forall₂_filterMap_conversionFor? _
  · obtain ⟨named, rest, hexplicit, hnamed, hrest⟩ := hbooks.exists_explicitMethods hkeeps
    exact ⟨named, rest, hexplicit, hnamed.imp fun _ _ => FactoryOf.makes, fun hnot =>
      hrest (hsame hnot ▸ rfl)⟩

/-- A rule with a name, a conversion to the same target, and an explicit method with the name of the
archetype method of that target. -/
def Tree.twoRules : Tree :=
  node "Unit"
    [interfaceNode "A" [] [leaf "Archetype" "Sql"],
     interfaceNode "K" [] [node "Extends" [typeNode "A" []], leaf "Archetype" "Sql"],
     node "Rule" [leaf "Name" "quote", node "Target" [typeNode "K" []], leaf "Symbol" "k",
       node "Symbol" [typeNode "A" [], leaf "Name" "x"]],
     conversionNode "K" "A",
     methodNode ["public", "static"] "symgen$print$K" [] [("K", "k"), ("int", "n")]]

/-- Two rules with one target have a class each, and both classes get the promoted methods as well
as the archetype methods of the target and its parent. -/
theorem anonymousClasses_of_twoRules :
    ∃ units r, readUnits sqlSettings [.twoRules] = .ok units ∧ ExtendsInterfaces units ∧
      runStages sqlSettings units Stage.standard = .ok r ∧
      r.anonymous.map (fun a => a.methods.values.map Method.signature) =
        [["symgen$print$K()", "symgen$print$A()", "symgen$print$K(int)", "quote()"],
         ["symgen$print$K()", "symgen$print$A()", "symgen$print$K(int)", "quote()"]] ∧
      r.Corresponds sqlSettings units Stage.standard := by
  have hrun : resolvesTo [.twoRules] (fun r =>
      r.anonymous.map (fun a => a.methods.values.map Method.signature) =
        [["symgen$print$K()", "symgen$print$A()", "symgen$print$K(int)", "quote()"],
         ["symgen$print$K()", "symgen$print$A()", "symgen$print$K(int)", "quote()"]]) = true := by
    decide +kernel
  obtain ⟨units, r, hu, hi, h, hp⟩ := exists_of_resolvesTo hrun
  exact ⟨units, r, hu, hi, h, of_decide_eq_true hp,
    anonymousClasses_of_rules hu List.prefix_rfl (by decide) h⟩

/-! ## What is not covered -/

/-- The class `a` lacks an implementation of an archetype method in the table of the target. -/
def Registry.misses (settings : Settings) (r : Registry) (target : TypeExpr) (a : Definition) :
    Bool :=
  (r.get? target.name).any fun d => (r.allMethods d).toOption.any fun t => t.values.any fun m =>
    (archetypeMethodOf? r settings m).isSome && !((r.overrideFor a m).toOption.any fun b =>
      (a.methods.get? b.signature).any fun n => n.state = .implemented)

theorem Registry.not_covers_of_misses {target : TypeExpr} {a : Definition}
    (h : r.misses settings target a = true) : ¬ r.Covers settings (fun _ => True) target a := by
  intro hcovers
  obtain ⟨d, hd, h⟩ := (Option.any_eq_true _ _).mp h
  obtain ⟨t, ht, h⟩ := Except.exists_of_any h
  obtain ⟨m, hm, h⟩ := List.any_eq_true.mp h
  obtain ⟨hsome, hmissing⟩ := Bool.and_eq_true_iff.mp h
  obtain ⟨b, n, hb, hn, hstate⟩ := hcovers d t hd ht m hm hsome trivial
  simp [hb, hn, hstate, Except.toOption] at hmissing

/-- The target `T` extends the class `C`, which a conversion makes an `X`. -/
def Tree.extendedClass : Tree :=
  node "Unit"
    [interfaceNode "A" [] [leaf "Archetype" "Sql"],
     interfaceNode "X" [] [leaf "Archetype" "Sql"],
     interfaceNode "T" [] [node "Extends" [typeNode "C" []], leaf "Archetype" "Sql"],
     classNode ["abstract"] "C" [] none [("A", [])] [],
     conversionNode "X" "A",
     node "Rule" [node "Target" [typeNode "T" []], leaf "Symbol" "t"],
     methodNode ["public", "static"] "symgen$print$X" [] [("T", "t")]]

/-- **Neither reservation can be left out.** Resolution succeeds for both trees; but after the
closure of conversions the class for `T` does not implement what `C` has gained, and after promotion
the classes for `K` do not implement what was promoted. -/
theorem anonymousClasses_not_covered :
    (∃ units r r', readUnits sqlSettings [.extendedClass] = .ok units ∧
      runStages sqlSettings units (Stage.standard.take 5) = .ok r ∧
      runStages sqlSettings units Stage.standard = .ok r' ∧
      ∃ p ∈ (units.flatMap CompilationUnit.rules).zip r.anonymous,
        ¬ r.Covers sqlSettings (fun _ => True) p.1.target p.2) ∧
    ∃ units r r', readUnits sqlSettings [.twoRules] = .ok units ∧
      runStages sqlSettings units (Stage.standard.take 6) = .ok r ∧
      runStages sqlSettings units Stage.standard = .ok r' ∧ ExtendsInterfaces units ∧
      ∃ p ∈ (units.flatMap CompilationUnit.rules).zip r.anonymous,
        ¬ r.Covers sqlSettings (fun _ => True) p.1.target p.2 := by
  have hclass : passesTo 5 9 .extendedClass (fun units r _ =>
      ((units.flatMap CompilationUnit.rules).zip r.anonymous).any fun p =>
        r.misses sqlSettings p.1.target p.2) = true := by
    decide +kernel
  have hpromoted : passesTo 6 9 .twoRules (fun units r _ => ExtendsInterfaces units &&
      ((units.flatMap CompilationUnit.rules).zip r.anonymous).any fun p =>
        r.misses sqlSettings p.1.target p.2) = true := by
    decide +kernel
  obtain ⟨units, r, r', hu, hr, hr', hmisses⟩ := exists_of_passesTo hclass
  obtain ⟨p, hp, hmiss⟩ := List.any_eq_true.mp hmisses
  obtain ⟨units₂, s, s', hu₂, hs, hs', h⟩ := exists_of_passesTo hpromoted
  obtain ⟨hi, hmisses₂⟩ := Bool.and_eq_true_iff.mp h
  obtain ⟨q, hq, hmiss₂⟩ := List.any_eq_true.mp hmisses₂
  exact ⟨⟨units, r, r', hu, hr, hr', p, hp, not_covers_of_misses hmiss⟩,
    units₂, s, s', hu₂, hs, hs', of_decide_eq_true hi, q, hq, not_covers_of_misses hmiss₂⟩

end FluentGrammar
