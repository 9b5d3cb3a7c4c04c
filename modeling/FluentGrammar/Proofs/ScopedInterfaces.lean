import FluentGrammar.Proofs.ConversionRun
import FluentGrammar.Proofs.PossibleNames
import FluentGrammar.Proofs.ZeroDistance

/-!
# Names in the interfaces that classes gain

A class gains the target of a conversion with the parameters of its rule replaced by what the
argument of the rule says about them. A parameter that the argument does not mention stays, and then
the class implements a type with a name that means nothing there. This is the only way in which such
a name comes to a class.

* `ProductionRule.Leaves`: a rule whose target has a name that the argument does not determine.
* `Conversion.Scoped`, `Conversion.Scoped.among`: a conversion that brings no names from elsewhere.
* `closeClasses_among`: classes that are closed by such conversions stay within their names.
* `Registry.ConvertsBy`, `convertsBy_of_runStages`: conversions come from rules.
* **`exists_leaving_rule_of_mentions`**: the origin of a name from elsewhere.
-/

namespace FluentGrammar

/-! ## Conversions -/

/-- The conversion leads from types with names in `S` to types with names in `S`, and the name of
its target, which is in `N`, stays. -/
structure Conversion.Scoped (N S : Set String) (c : Conversion) : Prop where
  params : ∀ p ∈ c.typeParams.names, isCapture p = false
  source : c.source.Written
  uncaptured : isCapture c.target.name = false
  head : c.target.name ∉ c.typeParams.names
  name : c.target.name ∈ N
  names : ∀ n, c.target.mentions n = true →
    n ∈ S ∨ n ∈ c.typeParams.names ∧ c.source.mentions n = true

section Conversions

variable {N S : Set String} {r r' : Registry} {name utility : String} {d : Definition}
  {c : Conversion} {conversions : List Conversion}

theorem Conversion.Scoped.value_ne_none (h : c.Scoped N S) {via : TypeExpr} {s : Substitution}
    (hs : c.typeParams.infer c.source via = .ok s) {n : String} (hp : n ∈ c.typeParams.names)
    (hm : c.source.mentions n = true) : s.value n ≠ none := by
  obtain ⟨arg, harg⟩ :=
    Substitution.isBound_iff.mp (isBound_of_infer h.source (h.params n hp) hp hm hs)
  simp [Substitution.value, Substitution.lookup, harg]

theorem Conversion.Scoped.name_eq (h : c.Scoped N S) {via target : TypeExpr} {s : Substitution}
    (hs : c.typeParams.infer c.source via = .ok s) (ht : c.target.replace s = .ok target) :
    target.name = c.target.name :=
  TypeExpr.name_of_replace (get?_eq_none_of_infer h.source h.uncaptured h.head hs) ht

/-- **What a conversion leads to has no names from elsewhere.** -/
theorem Conversion.Scoped.among (h : c.Scoped N S) (htop : TypeExpr.topName ∈ S)
    {via target : TypeExpr} (hvia : via.Among S) {s : Substitution}
    (hs : c.typeParams.infer c.source via = .ok s) (ht : c.target.replace s = .ok target) :
    target.Among S := by
  obtain ⟨_, rfl⟩ := TypeExpr.replace_eq_ok_iff c.target |>.mp ht
  intro n hn
  -- The name has stayed, has come with an argument, or is that of the top type.
  rcases c.target.mentions_subst hn with ⟨hm, hnone⟩ | ⟨x, arg, _, harg, hm⟩ | rfl
  · rcases h.names n hm with hin | ⟨hp, hsource⟩
    · exact hin
    · exact absurd hnone (h.value_ne_none hs hp hsource)
  · exact among_of_infer h.params hvia hs x arg harg n hm
  · exact htop

/-! ## Classes -/

theorem closeClass_among (htop : TypeExpr.topName ∈ S) (hr : r.AmongOn N S)
    (hcs : ∀ c ∈ conversions, c.Scoped N S) (hd : r.get? name = some d)
    (hc : d.isNamedClass = true) (hn : name ∈ N) {u : Unit}
    (h : closeClass name utility conversions r = .ok u r') : r'.AmongOn N S := by
  obtain ⟨e, types, he, htypes, _⟩ := closeClass_eq_ok_iff.mp h
  cases hd.symm.trans he
  have hstart : ClassAt r name r d types := ⟨.refl name r, hd, hc, htypes⟩
  have hrun : ∃ e types, ClassAt r name r' e types ∧
      ∀ t ∈ e.supertypes, t.name ∈ N ∧ t.Among S := by
    refine closeClass_induction
      (P := fun s => ∃ e types, ClassAt r name s e types ∧
        ∀ t ∈ e.supertypes, t.name ∈ N ∧ t.Among S)
      (Q := fun _ t => t.Among S) hd htypes ?_ ?_ ?_ h
    · exact ⟨d, types, hstart, hr name hn d hd⟩
    · exact hr.ancestorsVia htop htypes (hr name hn d hd)
    · rintro via c hmem s s' gained ⟨e, us, hclass, hparents⟩ hvia hstep
      rcases applyConversion_cases hclass hstep with
        ⟨rfl, rfl, _⟩ | ⟨σ, target, hσ, htarget, _, _, hgain⟩
      · exact ⟨⟨e, us, hclass, hparents⟩, fun _ => id, by simp⟩
      · have hscoped := hcs c hmem
        have ht : target.name ∈ N ∧ target.Among S :=
          ⟨hscoped.name_eq hσ htarget ▸ hscoped.name, hscoped.among htop hvia hσ htarget⟩
        obtain ⟨hgained, e', us', hclass', hparents', _⟩ :=
          gainInterface_among hr htop hclass hparents ht hgain
        exact ⟨⟨e', us', hclass', hparents'⟩, fun _ => id, hgained⟩
  obtain ⟨e, us, hclass, hparents⟩ := hrun
  intro other hother f hf
  by_cases heq : other = name
  · subst heq
    cases hclass.found.symm.trans hf
    exact hparents
  · rw [hclass.agrees.off other heq] at hf
    exact hr other hother f hf

/-- **Classes stay within their names** while they are closed one after the other. -/
theorem closeClasses_among (hs : r.Sound) (htop : TypeExpr.topName ∈ S) (hr : r.AmongOn N S)
    (hcs : ∀ c ∈ r.conversions, c.Scoped N S) (hn : ∀ d ∈ r.classes, d.name ∈ N) {u : Unit}
    (h : closeClasses r = .ok u r') : r'.AmongOn N S := by
  obtain ⟨_, _, hget, h⟩ := Resolution.bind_eq_ok_iff.mp h
  obtain ⟨rfl, rfl⟩ := Resolution.get_eq_ok_iff.mp hget
  refine Resolution.forM_induction (fun s => r.Evolves s ∧ s.AmongOn N S)
    (fun d hd s t _ ⟨hevolves, hamong⟩ hstep => ?_) ⟨.refl r, hr⟩ h |>.2
  split at hstep
  · obtain ⟨_, rfl⟩ := Resolution.pure_eq_ok_iff.mp hstep
    exact ⟨hevolves, hamong⟩
  · rename_i hne
    rw [Resolution.located_eq_ok_iff] at hstep
    have hkind := (hs.hasKind_of_mem_classes hd hne).evolves hs hevolves
    obtain ⟨-, e, he, hk⟩ := id hkind
    exact ⟨hevolves.trans (closeClass_evolves (hs.evolves hevolves) hkind hstep),
      closeClass_among htop hamong hcs he (by simp [Definition.isNamedClass, hk]) (hn d hd) hstep⟩

end Conversions

/-! ## Rules -/

namespace ProductionRule

/-- All names in the rule are written ones, unlike those of captured wildcards. -/
def Written (rule : ProductionRule) : Prop :=
  (∀ p ∈ rule.typeParams.names, isCapture p = false) ∧ rule.target.Written ∧
    ∀ a ∈ rule.arguments, a.2.Written

instance : DecidablePred Written := fun rule =>
  inferInstanceAs (Decidable ((∀ p ∈ rule.typeParams.names, isCapture p = false) ∧
    rule.target.Written ∧ ∀ a ∈ rule.arguments, a.2.Written))

/-- The rule is a conversion whose target mentions `p`, and its argument does not determine what `p`
is: it is no parameter, or the argument does not mention it. -/
def Leaves (p : String) (rule : ProductionRule) : Prop :=
  rule.name = none ∧ rule.arguments.length = 1 ∧ rule.target.mentions p = true ∧
    ∀ a ∈ rule.arguments, ¬ (p ∈ rule.typeParams.names ∧ a.2.mentions p = true)

instance (p : String) : DecidablePred (Leaves p) := fun rule =>
  inferInstanceAs (Decidable (rule.name = none ∧ rule.arguments.length = 1 ∧
    rule.target.mentions p = true ∧
    ∀ a ∈ rule.arguments, ¬ (p ∈ rule.typeParams.names ∧ a.2.mentions p = true)))

end ProductionRule

theorem conversionFor?_eq_some_iff {rule : ProductionRule} {factory : Method} {c : Conversion} :
    conversionFor? rule factory = some c ↔ rule.name = none ∧ ∃ argument source,
      rule.arguments = [(argument, source)] ∧
      c = ⟨rule.typeParams, source, rule.target, factory⟩ := by
  unfold conversionFor?
  split
  · rename_i argument source hname harguments
    simp [hname, harguments, eq_comm]
  · rename_i hnone
    constructor
    · intro h
      cases h
    · rintro ⟨hname, argument, source, harguments, _⟩
      exact absurd harguments (hnone argument source hname)

section Rules

variable {r r' : Registry} {settings : Settings} {units : List CompilationUnit}

/-- Every conversion comes from a rule whose target is an interface. -/
def Registry.ConvertsBy (rules : List ProductionRule) (r : Registry) : Prop :=
  ∀ c ∈ r.conversions, ∃ rule ∈ rules, (∃ factory, conversionFor? rule factory = some c) ∧
    ∃ d, r.get? rule.target.name = some d ∧ d.kind = .interface

theorem Registry.ConvertsBy.widens {rules : List ProductionRule} (hr : r.ConvertsBy rules)
    (hw : r.Widens r') (h : ∀ c ∈ r'.conversions, c ∈ r.conversions ∨
      ∃ rule ∈ rules, (∃ factory, conversionFor? rule factory = some c) ∧
        ∃ d, r.get? rule.target.name = some d ∧ d.kind = .interface) : r'.ConvertsBy rules := by
  intro c hc
  have hrule : ∃ rule ∈ rules, (∃ factory, conversionFor? rule factory = some c) ∧
      ∃ d, r.get? rule.target.name = some d ∧ d.kind = .interface :=
    (h c hc).elim (hr c) id
  obtain ⟨rule, hmem, hconv, d, hd, hk⟩ := hrule
  obtain ⟨d', hd', hf⟩ := hw.kept _ d hd
  exact ⟨rule, hmem, hconv, d', hd', hf.kind.trans hk⟩

theorem conversions_of_addMethod {name context : String} {m : Method} {u : Unit}
    (h : Resolution.addMethod name context m r = .ok u r') : r'.conversions = r.conversions := by
  obtain ⟨d, d', _, _, rfl⟩ := Resolution.addMethod_eq_ok_iff.mp h
  exact r.conversions_modify name _

theorem conversions_of_addExplicit {m : Method} {u : Unit}
    (h : Resolution.addExplicit m r = .ok u r') : r'.conversions = r.conversions := by
  obtain ⟨s, hs, rfl⟩ := Resolution.addExplicit_eq_ok_iff.mp h
  exact (conversions_of_addMethod hs : s.conversions = r.conversions)

theorem conversions_of_addUtilityImports {imports : OrderedSet String} {u : Unit}
    (h : addUtilityImports imports r = .ok u r') : r'.conversions = r.conversions := by
  obtain rfl := Resolution.modify_eq_ok_iff.mp h
  exact r.conversions_modify r.utility _

theorem conversions_of_handleRule {rule : ProductionRule} {u : Unit}
    (h : handleRule settings rule r = .ok u r') : ∃ factory kind, targetArchetype r rule = .ok kind ∧
      r'.conversions = r.conversions ++ (conversionFor? rule factory).toList := by
  obtain ⟨kind, a, factory, _, r₁, _, s, hkind, _, _, hanon, hfactory, rfl⟩ := handleRule_cases h
  obtain ⟨-, rfl⟩ := Resolution.addAnonymous_eq_ok_iff.mp hanon
  refine ⟨factory, kind, hkind, ?_⟩
  unfold addFactory at hfactory
  split at hfactory
  · exact conversions_of_addExplicit hfactory
  · exact conversions_of_addMethod hfactory

theorem Stage.run_convertsBy {stage : Stage} (hstage : stage ∈ [productionRules, explicitMethods])
    (hr : r.ConvertsBy (units.flatMap CompilationUnit.rules)) {u : Unit}
    (h : stage.run settings units r = .ok u r') :
    r'.ConvertsBy (units.flatMap CompilationUnit.rules) := by
  have himports : ∀ imports, Preserves (·.ConvertsBy (units.flatMap CompilationUnit.rules))
      (addUtilityImports imports) := fun _ => .refl fun s _ t hs h =>
    hs.widens (addUtilityImports_widens h) fun c hc =>
      .inl (conversions_of_addUtilityImports h ▸ hc)
  refine Stage.run_preserves (P := (·.ConvertsBy (units.flatMap CompilationUnit.rules))) ?_ hr h
  cases stage with
  | productionRules =>
    refine fun unit hunit => ⟨himports _, fun rule hrule => .refl fun s _ t hs h => ?_⟩
    obtain ⟨factory, kind, hkind, hconversions⟩ := conversions_of_handleRule h
    refine hs.widens (handleRule_widens h) fun c hc => ?_
    rw [hconversions] at hc
    rcases List.mem_append.mp hc with hc | hc
    · exact .inl hc
    · exact .inr ⟨rule, List.mem_flatMap.mpr ⟨unit, hunit, hrule⟩,
        ⟨factory, Option.mem_toList.mp hc⟩, exists_interface_of_targetArchetype hkind⟩
  | explicitMethods =>
    refine fun unit _ => ⟨himports _, fun m _ _ => .refl fun s _ t hs h => ?_⟩
    exact hs.widens (.addExplicit h) fun c hc => .inl (conversions_of_addExplicit h ▸ hc)
  | _ => simp at hstage

end Rules

/-! ## All stages up to the conversions -/

section Stages

variable {r r' s : Registry} {settings : Settings} {units : List CompilationUnit} {p : String}

theorem convertsBy_of_runStages
    (hu : ∀ unit ∈ units, ∃ utility tree, Tree.unitOf utility tree = .ok unit)
    (h : runStages settings units (Stage.standard.take 4) = .ok r) :
    r.ConvertsBy (units.flatMap CompilationUnit.rules) := by
  obtain ⟨_, h⟩ := runStages_eq_ok_iff.mp h
  simp only [Stage.standard, List.take_succ_cons, List.take_zero, Resolution.forM_cons_eq_ok_iff,
    Resolution.forM_nil_eq_ok_iff] at h
  obtain ⟨r₁, h₁, r₂, h₂, r₃, h₃, _, h₄, rfl⟩ := h
  have hnone := (loaded_of_load (proper_of_unitOf hu) h₁ h₂).conversions
  have hr₂ : r₂.ConvertsBy (units.flatMap CompilationUnit.rules) := fun c hc => by
    rw [hnone] at hc
    cases hc
  exact Stage.run_convertsBy (by decide) (Stage.run_convertsBy (by decide) hr₂ h₃) h₄

theorem exists_declared_of_interface (hs : s.Loaded units) (hw : s.Widens r) {name : String}
    {d : Definition} (hd : r.get? name = some d) (hk : d.kind = .interface) :
    name ∈ s.names ∧ ∃ e ∈ declaredDefinitions units, e.name = name := by
  obtain ⟨e, he, hf⟩ := (hw.added name d hd).resolve_right (by simp [hk])
  refine ⟨Registry.mem_names_of_get? he, ?_⟩
  rcases hs.origin e (hs.mem_of_get? he) with hshape | ⟨f, hmem, hfe⟩
  · have hclass : e.kind = .namedClass := by rw [Definition.kind, hshape]
    rw [hf.kind, hclass] at hk
    cases hk
  · exact ⟨f, hmem, hfe.name.symm.trans (Registry.name_of_get? he)⟩

theorem amongOn_of_loaded (hs : s.Loaded units) (hw : s.Widens r)
    (hp : ∀ d ∈ declaredDefinitions units, ∀ t ∈ d.supertypes, t.mentions p = false) :
    r.AmongOn {n | n ∈ s.names} {n | n ≠ p} := by
  intro name hname d hd t ht
  obtain ⟨e, he⟩ := Registry.mem_names_iff.mp hname
  obtain ⟨d', hd', hf⟩ := hw.kept name e he
  cases hd.symm.trans hd'
  rw [hf.supertypes] at ht
  have hmem := hs.mem_of_get? he
  constructor
  · obtain ⟨types, htypes⟩ := hs.ancestors e hmem
    obtain ⟨parent, hparent⟩ := exists_parent_of_ancestors htypes ht
    exact Registry.mem_names_of_get? hparent
  · rintro n hn rfl
    rcases hs.origin e hmem with hshape | ⟨f, hdeclared, hfe⟩
    · rw [Definition.supertypes, hshape] at ht
      cases ht
    · rw [hfe.supertypes] at ht
      simp [hp f hdeclared t ht] at hn

theorem scoped_of_convertsBy (hs : s.Loaded units) (hw : s.Widens r)
    (hr : r.ConvertsBy (units.flatMap CompilationUnit.rules))
    (hwritten : ∀ rule ∈ units.flatMap CompilationUnit.rules, rule.Written)
    (hnames : ∀ rule ∈ units.flatMap CompilationUnit.rules, ∀ q ∈ rule.typeParams.names,
      ∀ d ∈ declaredDefinitions units, d.name ≠ q)
    (hnone : ∀ rule ∈ units.flatMap CompilationUnit.rules, ¬ rule.Leaves p) :
    ∀ c ∈ r.conversions, c.Scoped {n | n ∈ s.names} {n | n ≠ p} := by
  intro c hc
  obtain ⟨rule, hrule, ⟨factory, hfactory⟩, d, hd, hk⟩ := hr c hc
  obtain ⟨hname, argument, source, harguments, rfl⟩ := conversionFor?_eq_some_iff.mp hfactory
  obtain ⟨hparams, htarget, hsource⟩ := hwritten rule hrule
  obtain ⟨hin, e, he, hename⟩ := exists_declared_of_interface hs hw hd hk
  constructor
  case params => exact hparams
  case source => exact hsource (argument, source) (by simp [harguments])
  case uncaptured => exact htarget.name
  case head => exact fun hq => hnames rule hrule _ hq e he hename
  case name => exact hin
  case names =>
    intro n hn
    by_cases heq : n = p
    · subst heq
      by_contra hleft
      refine hnone rule hrule ⟨hname, by simp [harguments], hn, ?_⟩
      simpa [harguments] using fun hq hm => hleft (.inr ⟨hq, hm⟩)
    · exact .inl heq

end Stages

/-- **Gained interfaces are well-scoped, unless a rule leaves a parameter.** Units are read from
trees, their rules are written ones, and no type parameter of a rule is the name of a declared
definition. Let `p` be a name other than that of the top type which no declared definition mentions
in the types it inherits from, such as a type parameter of a rule. If a class implements a type that
mentions `p` after conversions are applied, then there is a conversion whose target mentions `p` and
whose argument does not determine it. -/
theorem exists_leaving_rule_of_mentions {r : Registry} {settings : Settings}
    {units : List CompilationUnit}
    (hu : ∀ unit ∈ units, ∃ utility tree, Tree.unitOf utility tree = .ok unit)
    (hwritten : ∀ rule ∈ units.flatMap CompilationUnit.rules, rule.Written)
    (hnames : ∀ rule ∈ units.flatMap CompilationUnit.rules, ∀ q ∈ rule.typeParams.names,
      ∀ d ∈ declaredDefinitions units, d.name ≠ q)
    (h : runStages settings units (Stage.standard.take 5) = .ok r) {p : String}
    (htop : p ≠ TypeExpr.topName)
    (hp : ∀ d ∈ declaredDefinitions units, ∀ t ∈ d.supertypes, t.mentions p = false) :
    ∀ d ∈ r.classes, ∀ t ∈ d.interfaces, t.mentions p = true →
      ∃ rule ∈ units.flatMap CompilationUnit.rules, rule.Leaves p := by
  intro d hd t ht hm
  by_contra hnone
  obtain ⟨q, _, hbefore, hstage⟩ := exists_closeClasses_of_runStages h
  have hsound : q.Sound :=
    sound_of_runStages (proper_of_unitOf hu) (List.take_prefix 4 Stage.standard) hbefore
  obtain ⟨s, hw, hs⟩ := exists_loaded_of_runStages hu hbefore
  -- If no rule leaves `p`, conversions keep to loaded definitions and to names other than `p`.
  have hscoped := scoped_of_convertsBy hs hw (convertsBy_of_runStages hu hbefore) hwritten hnames
    fun rule hrule hleaves => hnone ⟨rule, hrule, hleaves⟩
  have hclasses : ∀ d ∈ q.classes, d.name ∈ s.names := by
    intro d hd
    obtain ⟨e, he, _⟩ := (hw.added d.name d (hsound.get?_of_mem_classes hd)).resolve_right
      (by simp [Registry.kind_of_mem_classes hd])
    exact Registry.mem_names_of_get? he
  have hamong := closeClasses_among hsound (Ne.symm htop) (amongOn_of_loaded hs hw hp) hscoped
    hclasses hstage
  have hevolves := Stage.run_evolves (declaredMethods_of_proper (proper_of_unitOf hu))
    (by decide) (by decide) hsound hstage
  obtain ⟨hmem, hclass⟩ := List.mem_filter.mp hd
  obtain ⟨e, he, hed⟩ := exists_left_of_forall₂ hevolves.definitions d hmem
  have hname : d.name ∈ s.names := by
    rw [hed.name]
    refine hclasses e (List.mem_filter.mpr ⟨he, ?_⟩)
    rwa [Definition.isNamedClass, ← hed.kind]
  have hparent : t ∈ d.supertypes := by
    rw [Definition.supertypes_of_isNamedClass hclass]
    exact List.mem_append_right _ ht
  have hget := (hsound.evolves hevolves).get?_of_mem_classes hd
  exact (hamong d.name hname d hget t hparent).2 p hm rfl

namespace Tree

/-- A rule without a name, given by its type parameters, the name and the arguments of its target,
and the name and the arguments of its argument. -/
def genericConversionNode (typeParams : List String) (target source : String × List String) : Tree :=
  node "Rule" ((typeParams.map fun param => node "TypeParameter" [leaf "Name" param]) ++
    [node "Target" [typeNode target.1 target.2],
     node "Symbol" [typeNode source.1 source.2, leaf "Name" "x"]])

/-- The class implements `A<Foo>`, and conversions lead from `A<T>` to `B<T>` and to `D<U>`. -/
def leavingRule : Tree :=
  node "Unit"
    [interfaceNode "A" ["X"] [leaf "Archetype" "Sql"],
     interfaceNode "B" ["X"] [leaf "Archetype" "Sql"],
     interfaceNode "D" ["X"] [leaf "Archetype" "Sql"],
     classNode ["abstract"] "C" [] none [("A", ["Foo"])] [],
     genericConversionNode ["T"] ("B", ["T"]) ("A", ["T"]),
     genericConversionNode ["T", "U"] ("D", ["U"]) ("A", ["T"])]

end Tree

/-- A class of the given name implements the given types. -/
def Registry.implements (r : Registry) (name : String) (types : List TypeExpr) : Bool :=
  r.classes.any fun d => d.name = name && d.interfaces = types

theorem Registry.exists_of_implements {r : Registry} {name : String} {types : List TypeExpr}
    (h : r.implements name types = true) :
    ∃ d ∈ r.classes, d.name = name ∧ d.interfaces = types := by
  obtain ⟨d, hd, h⟩ := List.any_eq_true.mp h
  simp only [Bool.and_eq_true, decide_eq_true_eq] at h
  exact ⟨d, hd, h⟩

/-- The class gets `B<Foo>`, and no rule leaves `T`; it gets `D<U>` as well, and there is a rule
that leaves `U`. -/
theorem exists_leaving_rule_of_mentions_leaving : ∃ units r d,
    readUnits sqlSettings [.leavingRule] = .ok units ∧
    (∀ rule ∈ units.flatMap CompilationUnit.rules, rule.Written) ∧
    (∀ rule ∈ units.flatMap CompilationUnit.rules, ∀ q ∈ rule.typeParams.names,
      ∀ e ∈ declaredDefinitions units, e.name ≠ q ∧ ∀ t ∈ e.supertypes, t.mentions q = false) ∧
    runStages sqlSettings units (Stage.standard.take 5) = .ok r ∧ d ∈ r.classes ∧ d.name = "C" ∧
    d.interfaces = [.generic "A" [.plain (.named "Foo")], .generic "B" [.plain (.named "Foo")],
      .generic "D" [.plain (.named "U")]] ∧
    (∃ rule ∈ units.flatMap CompilationUnit.rules, rule.Leaves "U") ∧
    (∀ rule ∈ units.flatMap CompilationUnit.rules, ¬ rule.Leaves "T") ∧
    ∀ t ∈ d.interfaces, t.mentions "T" = false := by
  have hrun : passesTo 4 5 .leavingRule (fun units _ r =>
      decide ((∀ rule ∈ units.flatMap CompilationUnit.rules, rule.Written) ∧
        (∀ rule ∈ units.flatMap CompilationUnit.rules, ∀ q ∈ rule.typeParams.names,
          ∀ e ∈ declaredDefinitions units,
            e.name ≠ q ∧ ∀ t ∈ e.supertypes, t.mentions q = false) ∧
        (∀ q ∈ ["T", "U"], ∀ e ∈ declaredDefinitions units, ∀ t ∈ e.supertypes,
          t.mentions q = false) ∧
        ∀ rule ∈ units.flatMap CompilationUnit.rules, ¬ rule.Leaves "T") &&
      r.implements "C" [.generic "A" [.plain (.named "Foo")], .generic "B" [.plain (.named "Foo")],
        .generic "D" [.plain (.named "U")]]) = true := by
    decide +kernel
  obtain ⟨units, _, r, hu, _, hr, hp⟩ := exists_of_passesTo hrun
  rw [Bool.and_eq_true, decide_eq_true_eq] at hp
  obtain ⟨⟨hwritten, hapart, hfresh, hnone⟩, himplements⟩ := hp
  obtain ⟨d, hd, hname, hinterfaces⟩ := Registry.exists_of_implements himplements
  have hleaving : ∀ q ∈ ["T", "U"], ∀ t ∈ d.interfaces, t.mentions q = true →
      ∃ rule ∈ units.flatMap CompilationUnit.rules, rule.Leaves q := fun q hq =>
    exists_leaving_rule_of_mentions (exists_tree_of_readUnits hu) hwritten
      (fun rule hrule q hq e he => (hapart rule hrule q hq e he).1) hr
      (by revert q; decide) (hfresh q hq) d hd
  refine ⟨units, r, d, hu, hwritten, hapart, hr, hd, hname, hinterfaces, ?_, hnone, fun t ht => ?_⟩
  · exact hleaving "U" (by simp) (.generic "D" [.plain (.named "U")]) (by simp [hinterfaces])
      (by decide)
  · by_contra hmentions
    obtain ⟨rule, hrule, hleaves⟩ := hleaving "T" (by simp) t ht (by simpa using hmentions)
    exact hnone rule hrule hleaves

/-- The class implements `A`, and a conversion makes a `B<T>` of it, whatever `T` is. -/
def Tree.undetermined : Tree :=
  node "Unit"
    [interfaceNode "A" [] [leaf "Archetype" "Sql"],
     interfaceNode "B" ["X"] [leaf "Archetype" "Sql"],
     classNode ["abstract"] "C" [] none [("A", [])] [],
     genericConversionNode ["T"] ("B", ["T"]) ("A", [])]

/-- **A parameter comes to a class.** The rule has a parameter `T`, no declaration has anything of
that name, and the class, which has no type parameters, implements `B<T>`. -/
theorem implements_undetermined : ∃ units r d,
    readUnits sqlSettings [.undetermined] = .ok units ∧
    (∀ rule ∈ units.flatMap CompilationUnit.rules, rule.typeParams.names = ["T"]) ∧
    (∀ e ∈ declaredDefinitions units, e.name ≠ "T" ∧ "T" ∉ e.typeParams.names ∧
      (∀ t ∈ e.supertypes, t.mentions "T" = false) ∧ e.methods.keys = []) ∧
    runStages sqlSettings units (Stage.standard.take 5) = .ok r ∧ d ∈ r.classes ∧ d.name = "C" ∧
    d.interfaces = [.named "A", .generic "B" [.plain (.named "T")]] := by
  have hrun : passesTo 4 5 .undetermined (fun units _ r =>
      decide ((∀ rule ∈ units.flatMap CompilationUnit.rules, rule.typeParams.names = ["T"]) ∧
        ∀ e ∈ declaredDefinitions units, e.name ≠ "T" ∧ "T" ∉ e.typeParams.names ∧
          (∀ t ∈ e.supertypes, t.mentions "T" = false) ∧ e.methods.keys = []) &&
      r.implements "C" [.named "A", .generic "B" [.plain (.named "T")]]) = true := by
    decide +kernel
  obtain ⟨units, _, r, hu, _, hr, hp⟩ := exists_of_passesTo hrun
  rw [Bool.and_eq_true, decide_eq_true_eq] at hp
  obtain ⟨⟨hparams, hapart⟩, himplements⟩ := hp
  obtain ⟨d, hd, hname, hinterfaces⟩ := Registry.exists_of_implements himplements
  exact ⟨units, r, d, hu, hparams, hapart, hr, hd, hname, hinterfaces⟩

end FluentGrammar
