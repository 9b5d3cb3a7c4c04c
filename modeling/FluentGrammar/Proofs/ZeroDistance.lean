import FluentGrammar.Proofs.GainedAncestors
import FluentGrammar.Proofs.StageTables

/-!
# Distance zero

A class has distance zero to what it inherits without conversion. That is so for all ancestors it
had before conversions were applied. But an ancestor that it gets with a class above it, which gained
it by a conversion, has distance zero as well, since the path is recorded at that class only. And if
that class is registered first, it always comes to this.

* `Registry.Widens`: definitions are as they were, and there may be new anonymous classes.
* `exists_ancestors_of_runStages`, `unconverted_of_runStages`: what is true of the registry before
  conversions are applied.
* **`distanceTo_eq_zero_iff_before`**: for which ancestors distance zero means that the class had
  them before.
-/

namespace FluentGrammar

open Relation

/-! ## Before conversions -/

namespace Registry

variable {r r' r'' : Registry} {name : String} {d : Definition}

/-- Definitions have their frames still, and what is new are anonymous classes. -/
structure Widens (r r' : Registry) : Prop where
  kept : ∀ name d, r.get? name = some d → ∃ d', r'.get? name = some d' ∧ d.SameFrame d'
  added : ∀ name d', r'.get? name = some d' →
    (∃ d, r.get? name = some d ∧ d.SameFrame d') ∨ d'.kind = .anonymousClass

theorem Widens.of_sameFrame (h : SameFrame r r') : Widens r r' where
  kept _ _ hd := h.exists_of_get? hd
  added _ _ hd' := by
    obtain ⟨d, hd, hf⟩ := h.symm.exists_of_get? hd'
    exact .inl ⟨d, hd, hf.symm⟩

theorem Widens.of_eq (hd : r'.definitions = r.definitions) (ha : r'.anonymous = r.anonymous) :
    Widens r r' :=
  .of_sameFrame (.of_get?_eq .refl fun name => by rw [get?, hd, ha, get?])

theorem sameFrame_modify {f : Definition → Definition} (hf : ∀ d : Definition, d.SameFrame (f d)) :
    SameFrame r (r.modify name f) := by
  intro n
  rw [get?_modify fun d hd => (hf d).name.trans hd]
  split
  · cases r.get? n with
    | none => exact .none
    | some d => exact .some (hf d)
  · exact Related.refl .refl r n

theorem Widens.refl (r : Registry) : Widens r r :=
  .of_eq rfl rfl

theorem Widens.trans (h₁ : Widens r r') (h₂ : Widens r' r'') : Widens r r'' where
  kept name d hd := by
    obtain ⟨d', hd', hf⟩ := h₁.kept name d hd
    obtain ⟨d'', hd'', hf'⟩ := h₂.kept name d' hd'
    exact ⟨d'', hd'', hf.trans hf'⟩
  added name d'' hd'' := by
    rcases h₂.added name d'' hd'' with ⟨d', hd', hf'⟩ | hk
    · rcases h₁.added name d' hd' with ⟨d, hd, hf⟩ | hk
      · exact .inl ⟨d, hd, hf.trans hf'⟩
      · exact .inr (hf'.kind.trans hk)
    · exact .inr hk

theorem Widens.addMethod {context : String} {m : Method} {u : Unit}
    (h : Resolution.addMethod name context m r = .ok u r') : Widens r r' :=
  .of_sameFrame (.addMethod .refl (fun _ _ => Definition.sameFrame_of_addMethod) h)

theorem Widens.addExplicit {m : Method} {u : Unit} (h : Resolution.addExplicit m r = .ok u r') :
    Widens r r' := by
  obtain ⟨s, hs, rfl⟩ := Resolution.addExplicit_eq_ok_iff.mp h
  exact (Widens.addMethod hs).trans (.of_eq rfl rfl)

theorem Widens.addAnonymous {factory : Method} {u : Unit}
    (h : Resolution.addAnonymous factory d r = .ok u r')
    (hk : d.kind = .anonymousClass) : Widens r r' := by
  obtain ⟨-, -, hget⟩ := addAnonymous_spec h
  refine ⟨fun n e he => ⟨e, by rw [hget, he, Option.some_or], .refl e⟩, fun n e he => ?_⟩
  rw [hget] at he
  rcases Option.or_eq_some_iff.mp he with he | ⟨-, he⟩
  · exact .inl ⟨e, he, .refl e⟩
  · split at he
    · cases he
      exact .inr hk
    · cases he

theorem Widens.ancestorsVia_eq (h : Widens r r') {context : String} {trail : List String}
    {parents types : List TypeExpr} (ht : r.ancestorsVia context trail parents = .ok types) :
    r'.ancestorsVia context trail parents = .ok types := by
  fun_induction ancestorsVia r context trail parents generalizing types with
  | case1 => rw [ancestorsVia_nil, ← ht]
  | case2 => cases ht
  | case3 => cases ht
  | case4 context trail parent rest d hd hn above beside =>
    simp only [Except.bind_eq_ok_iff, Except.pure_eq_ok_iff] at ht
    obtain ⟨inherited, hi, ts, hts, others, ho, rfl⟩ := ht
    obtain ⟨d', hd', hf⟩ := h.kept _ d hd
    refine ancestorsVia_cons_eq_ok_iff.mpr ⟨d', inherited, ts, others, hd', hf.name.symm ▸ hn, ?_,
      ?_, beside ho, rfl⟩
    · rw [hf.name, hf.supertypes]
      exact above hi
    · rw [← hts, throughParent, throughParent, hf.name, hf.typeParams]

theorem Widens.ancestors_eq (h : Widens r r') {d d' : Definition} (hf : d.SameFrame d')
    {types : List TypeExpr} (ht : r.ancestors d = .ok types) : r'.ancestors d' = .ok types := by
  rw [ancestors, hf.name, hf.supertypes]
  exact h.ancestorsVia_eq ht

end Registry

namespace Definition

theorem SameFrame.paths {d d' : Definition} (h : d.SameFrame d') : d'.paths = d.paths := by
  rw [Definition.paths, Definition.paths, h.shape]

theorem paths_of_kind {d : Definition} (h : d.kind ≠ .namedClass) : d.paths = ∅ := by
  unfold kind at h
  unfold paths
  cases hs : d.shape <;> simp_all

end Definition

section Stages

variable {r r' : Registry} {settings : Settings} {units : List CompilationUnit}

open Registry

theorem addUtilityImports_widens {imports : OrderedSet String} {u : Unit}
    (h : addUtilityImports imports r = .ok u r') : Widens r r' := by
  obtain rfl := Resolution.modify_eq_ok_iff.mp h
  exact .of_sameFrame (sameFrame_modify fun d => ⟨rfl, rfl, rfl⟩)

theorem addFactory_widens {rule : ProductionRule} {factory : Method} {u : Unit}
    (h : addFactory rule factory r = .ok u r') : Widens r r' := by
  unfold addFactory at h
  split at h
  · exact .addExplicit h
  · exact .addMethod h

theorem handleRule_widens {rule : ProductionRule} {u : Unit}
    (h : handleRule settings rule r = .ok u r') : Widens r r' := by
  obtain ⟨kind, a, factory, _, r₁, _, s, _, ha, _, hanon, hfactory, rfl⟩ := handleRule_cases h
  have h₁ : Widens r r.takeAnonymousName := .of_eq rfl rfl
  have h₂ : Widens r.takeAnonymousName r₁ :=
    .addAnonymous hanon (adds_anonymousFor ha).frame.kind
  have h₃ : Widens r₁ { r₁ with
      conversions := r₁.conversions ++ (conversionFor? rule factory).toList } := .of_eq rfl rfl
  exact (((h₁.trans h₂).trans h₃).trans (addFactory_widens hfactory)).trans (.of_eq rfl rfl)

/-- The two stages between loading and the conversions only make anonymous classes. -/
theorem Stage.run_widens {stage : Stage} (hstage : stage ∈ [productionRules, explicitMethods])
    {u : Unit} (h : stage.run settings units r = .ok u r') : Widens r r' := by
  have himports : ∀ imports, Preserves (Widens r) (addUtilityImports imports) := fun _ =>
    .refl fun _ _ _ hs h => hs.trans (addUtilityImports_widens h)
  refine Stage.run_preserves ?_ (.refl r) h
  cases stage with
  | productionRules =>
    refine fun unit _ => ⟨himports _, fun rule _ => .refl fun s _ t hs h => ?_⟩
    exact hs.trans (handleRule_widens h)
  | explicitMethods =>
    refine fun unit _ => ⟨himports _, fun m _ _ => .refl fun s _ t hs h => ?_⟩
    exact hs.trans (.addExplicit h)
  | _ => simp at hstage

theorem Tree.paths_of_classOf {node : Tree} {d : Definition} (h : node.classOf = .ok d) :
    d.paths = ∅ := by
  have hfold : ∀ {f : Definition → TypeExpr → Definition}, (∀ d t, (f d t).paths = d.paths) →
      ∀ (ts : List TypeExpr) (d : Definition), (ts.foldl f d).paths = d.paths := by
    intro f hf ts
    induction ts with
    | nil => exact fun _ => rfl
    | cons t ts ih => exact fun d => (ih (f d t)).trans (hf d t)
  have hextending : ∀ (d : Definition) t, (d.extending t).paths = d.paths := by
    intro d t
    rw [Definition.paths, Definition.paths, Definition.extending]
    cases d.shape <;> rfl
  have himplementing : ∀ (d : Definition) t, (d.implementing t).paths = d.paths := by
    intro d t
    rw [Definition.paths, Definition.paths, Definition.implementing]
    cases d.shape <;> rfl
  unfold classOf at h
  obtain ⟨name, _, h⟩ := Except.bind_eq_ok_iff.mp h
  obtain ⟨header, hheader, h⟩ := Except.bind_eq_ok_iff.mp h
  dsimp only at h
  split at h
  · cases h
  · simp only [Except.bind_eq_ok_iff] at h
    obtain ⟨superclass, _, interfaces, _, h⟩ := h
    rw [(sameFrame_of_withMembers h).1.paths, hfold himplementing, hfold hextending]
    obtain ⟨_, _, hheader⟩ := Except.bind_eq_ok_iff.mp hheader
    obtain rfl := Except.pure_eq_ok_iff.mp hheader
    rfl

theorem exists_closeClasses_of_runStages
    (h : runStages settings units (Stage.standard.take 5) = .ok r') : ∃ r u,
      runStages settings units (Stage.standard.take 4) = .ok r ∧
      Stage.conversionClosure.run settings units r = .ok u r' := by
  obtain ⟨_, h⟩ := runStages_eq_ok_iff.mp h
  rw [show Stage.standard.take 5 = Stage.standard.take 4 ++ [.conversionClosure] from rfl] at h
  obtain ⟨r, hbefore, h⟩ := Resolution.forM_append_eq_ok_iff.mp h
  obtain ⟨_, hstage, hlast⟩ := Resolution.forM_cons_eq_ok_iff.mp h
  obtain rfl := Resolution.forM_nil_eq_ok_iff.mp hlast
  exact ⟨r, _, runStages_eq_ok_iff.mpr ⟨_, hbefore⟩, hstage⟩

variable (hu : ∀ unit ∈ units, ∃ utility tree, Tree.unitOf utility tree = .ok unit)
include hu

theorem paths_of_mem_classes {d : Definition} (hd : d ∈ units.flatMap CompilationUnit.classes) :
    d.paths = ∅ := by
  obtain ⟨unit, hunit, hd⟩ := List.mem_flatMap.mp hd
  obtain ⟨decl, hdecl, he⟩ := List.mem_filterMap.mp hd
  obtain ⟨utility, tree, htree⟩ := hu unit hunit
  obtain ⟨child, read, imports, hchild, rfl⟩ := Tree.exists_denotes_of_unitOf htree decl hdecl
  cases hchild with
  | namedClass h =>
    cases he
    have hpaths := Tree.paths_of_classOf h
    exact hpaths
  | interface | rule | method => cases he

theorem exists_loaded_of_runStages
    (h : runStages settings units (Stage.standard.take 4) = .ok r) :
    ∃ s : Registry, Widens s r ∧ s.Loaded units := by
  obtain ⟨_, h⟩ := runStages_eq_ok_iff.mp h
  simp only [Stage.standard, List.take_succ_cons, List.take_zero, Resolution.forM_cons_eq_ok_iff,
    Resolution.forM_nil_eq_ok_iff] at h
  obtain ⟨r₁, h₁, r₂, h₂, r₃, h₃, _, h₄, rfl⟩ := h
  exact ⟨r₂, (Stage.run_widens (by decide) h₃).trans (Stage.run_widens (by decide) h₄),
    loaded_of_load (proper_of_unitOf hu) h₁ h₂⟩

theorem unconverted_of_loaded (h : r.Loaded units) : r.Unconverted := by
  intro name d hd
  rcases h.origin d (h.mem_of_get? hd) with hshape | ⟨e, he, hf⟩
  · rw [Definition.paths, hshape]
  · rw [hf.paths]
    rcases List.mem_append.mp he with he | he
    · have hkind := (proper_of_mem_interfaces (proper_of_unitOf hu) he).1
      exact Definition.paths_of_kind (by simp [hkind])
    · exact paths_of_mem_classes hu he

theorem unconverted_of_runStages
    (h : runStages settings units (Stage.standard.take 4) = .ok r) : r.Unconverted := by
  obtain ⟨s, hwidens, hs⟩ := exists_loaded_of_runStages hu h
  intro name d hd
  rcases hwidens.added name d hd with ⟨e, he, hf⟩ | hk
  · rw [hf.paths, unconverted_of_loaded hu hs name e he]
  · exact Definition.paths_of_kind (by simp [hk])

theorem exists_ancestors_of_runStages
    (h : runStages settings units (Stage.standard.take 4) = .ok r) {name : String} {d : Definition}
    (hd : r.get? name = some d) (hk : d.kind ≠ .anonymousClass) :
    ∃ types, r.ancestors d = .ok types := by
  obtain ⟨s, hwidens, hs⟩ := exists_loaded_of_runStages hu h
  obtain ⟨e, he, hf⟩ := (hwidens.added name d hd).resolve_right hk
  obtain ⟨types, ht⟩ := hs.ancestors e (hs.mem_of_get? he)
  exact ⟨types, hwidens.ancestors_eq hf ht⟩

theorem closedUpTo_of_runStages {r' : Registry}
    (hbefore : runStages settings units (Stage.standard.take 4) = .ok r)
    (hafter : runStages settings units (Stage.standard.take 5) = .ok r') (hapart : r.Apart) :
    ClosedUpTo r (r.classes.map Definition.name) r' := by
  obtain ⟨s, _, hs, hstage⟩ := exists_closeClasses_of_runStages hafter
  cases hbefore.symm.trans hs
  have hsound : r.Sound :=
    sound_of_runStages (proper_of_unitOf hu) (List.take_prefix 4 Stage.standard) hbefore
  exact closeClasses_closed hsound hapart (unconverted_of_runStages hu hbefore) hstage

end Stages

/-! ## After conversions -/

theorem Definition.distanceTo_eq_zero_iff {d : Definition}
    (hd : ∀ b p, d.paths.get? b = some p → 0 < p.distance) (i : String) :
    d.distanceTo i = 0 ↔ d.paths.get? i = none := by
  unfold distanceTo
  cases hp : d.paths.get? i with
  | none => simp
  | some p => simpa using (hd i p hp).ne'

/-- **Distance zero means that an ancestor was there before, unless a class above brought it.**
Units are read from trees, conversions are applied, and no type parameter of a definition has the
name of a definition. Let `d` be a class, and `d'` the same class afterwards.

All ancestors that `d` had have distance zero. For each ancestor of `d'`, distance zero means that
`d` had it, with one exception: `d` did not have it, `d'` has no path to it, and it came with an
ancestor that has one. Everything that an ancestor of `d` gains which is registered before `d` has
distance zero. -/
theorem distanceTo_eq_zero_iff_before {r r' : Registry} {settings : Settings}
    {units : List CompilationUnit}
    (hu : ∀ unit ∈ units, ∃ utility tree, Tree.unitOf utility tree = .ok unit)
    (hbefore : runStages settings units (Stage.standard.take 4) = .ok r)
    (hafter : runStages settings units (Stage.standard.take 5) = .ok r') (hapart : r.Apart)
    {d d' : Definition} {after : List TypeExpr} (hd : d ∈ r.classes)
    (hd' : r'.get? d.name = some d') (ha : r'.ancestors d' = .ok after) :
    ∃ before, r.ancestors d = .ok before ∧
      (∀ i ∈ before.map TypeExpr.name, i ∈ after.map TypeExpr.name ∧ d'.distanceTo i = 0) ∧
      (∀ i ∈ after.map TypeExpr.name,
        (d'.distanceTo i = 0 ↔ i ∈ before.map TypeExpr.name) ↔
          ¬ (i ∉ before.map TypeExpr.name ∧ d'.paths.get? i = none ∧
            ∃ c ∈ after.map TypeExpr.name, r'.Gained c i)) ∧
      ∀ e, [e, d].Sublist r.classes → e.name ∈ before.map TypeExpr.name →
        ∀ i, r'.Gained e.name i → i ∈ after.map TypeExpr.name ∧ d'.distanceTo i = 0 := by
  have hsound : r.Sound :=
    sound_of_runStages (proper_of_unitOf hu) (List.take_prefix 4 Stage.standard) hbefore
  have hget : r.get? d.name = some d := hsound.get?_of_mem_classes hd
  obtain ⟨before, hb⟩ := exists_ancestors_of_runStages hu hbefore hget (by
    simp [Registry.kind_of_mem_classes hd])
  have hclosed := closedUpTo_of_runStages hu hbefore hafter hapart
  have hold : ∀ i, i ∈ before.map TypeExpr.name ↔ TransGen r.Extends d.name i := fun i =>
    hapart.unshadowed.mem_names_ancestors_iff hget hb
  have hnew : ∀ i, i ∈ after.map TypeExpr.name ↔ TransGen r'.Extends d.name i := fun i =>
    hclosed.apart.unshadowed.mem_names_ancestors_iff hd' ha
  have hzero := Definition.distanceTo_eq_zero_iff (hclosed.positive d.name d' hd')
  have hpath : ∀ i, d'.paths.get? i = none ↔ ¬ r'.Gained d.name i := fun i => by
    rw [Registry.gained_iff hd', Table.get?_eq_none_iff]
  refine ⟨before, hb, fun i hi => ?_, fun i hi => ?_, fun e he hmem i hgain => ?_⟩
  · have hi := (hold i).mp hi
    rw [hnew, hzero, hpath]
    exact ⟨hclosed.kept _ _ hi, fun hgain => hclosed.fresh _ _ hgain hi⟩
  · rw [hzero, hpath]
    constructor
    · rintro hiff ⟨hfresh, hnone, -⟩
      exact hfresh (hiff.mp hnone)
    · intro hexception
      constructor
      · intro hnone
        by_contra hfresh
        rcases hclosed.origin _ _ ((hnew i).mp hi) with hwas | ⟨c, rfl | hc, hgain⟩
        · exact hfresh ((hold i).mpr hwas)
        · exact hnone hgain
        · exact hexception ⟨hfresh, hnone, c, (hnew c).mpr hc, hgain⟩
      · exact fun hwas hgain => hclosed.fresh _ _ hgain ((hold i).mp hwas)
  · have hsub : [e.name, d.name].Sublist (r.classes.map Definition.name) := he.map Definition.name
    have habove := (hold e.name).mp hmem
    rw [hnew, hzero, hpath]
    exact ⟨(hclosed.kept _ _ habove).trans (hclosed.reached _ _ hgain),
      List.pairwise_iff_forall_sublist.mp hclosed.once hsub habove i hgain⟩

/-- A class `P` that implements `A` and a class `D` that extends it, in one order or the other; a
conversion makes `B` of `A`. -/
def Tree.convertedAbove (superclassFirst : Bool) : Tree :=
  let above := classNode ["abstract"] "P" [] none [("A", [])] []
  let below := classNode ["abstract"] "D" [] (some ("P", [])) [] []
  node "Unit" ([interfaceNode "A" [] [leaf "Archetype" "Sql"],
    interfaceNode "B" [] [leaf "Archetype" "Sql"]] ++
    (if superclassFirst then [above, below] else [below, above]) ++ [conversionNode "B" "A"])

/-- The ancestors of a class before conversions, and the class and its ancestors afterwards, have the
property `p`. -/
def Registry.comparesTo (r r' : Registry) (name : String)
    (p : List TypeExpr → Definition → List TypeExpr → Bool) : Bool :=
  r.classes.any fun d => d.name = name && (r.ancestors d).toOption.any fun before =>
    (r'.get? d.name).any fun d' => (r'.ancestors d').toOption.any (p before d')

theorem Registry.exists_of_comparesTo {r r' : Registry} {name : String}
    {p : List TypeExpr → Definition → List TypeExpr → Bool} (h : r.comparesTo r' name p = true) :
    ∃ d before d' after, d ∈ r.classes ∧ d.name = name ∧ r.ancestors d = .ok before ∧
      r'.get? d.name = some d' ∧ r'.ancestors d' = .ok after ∧ p before d' after = true := by
  obtain ⟨d, hd, h⟩ := List.any_eq_true.mp h
  obtain ⟨hname, h⟩ := Bool.and_eq_true_iff.mp h
  obtain ⟨before, hb, h⟩ := Except.exists_of_any h
  obtain ⟨d', hd', h⟩ := (Option.any_eq_true _ _).mp h
  obtain ⟨after, ha, hp⟩ := Except.exists_of_any h
  exact ⟨d, before, d', after, hd, of_decide_eq_true hname, hb, hd', ha, hp⟩

/-- With `P` registered first, `D` meets the conditions, and `B` is the exception. -/
theorem distanceTo_eq_zero_iff_before_converted_above :
    ∃ units r r' d before d' after, readUnits sqlSettings [.convertedAbove true] = .ok units ∧
      runStages sqlSettings units (Stage.standard.take 4) = .ok r ∧
      runStages sqlSettings units (Stage.standard.take 5) = .ok r' ∧ r.Apart ∧ d ∈ r.classes ∧
      d.name = "D" ∧ r.ancestors d = .ok before ∧ r'.get? d.name = some d' ∧
      r'.ancestors d' = .ok after ∧ before.map TypeExpr.name = ["P", "A"] ∧
      after.map TypeExpr.name = ["P", "A", "B"] ∧
      (∀ i ∈ before.map TypeExpr.name, i ∈ after.map TypeExpr.name ∧ d'.distanceTo i = 0) ∧
      (∀ i ∈ after.map TypeExpr.name,
        (d'.distanceTo i = 0 ↔ i ∈ before.map TypeExpr.name) ↔
          ¬ (i ∉ before.map TypeExpr.name ∧ d'.paths.get? i = none ∧
            ∃ c ∈ after.map TypeExpr.name, r'.Gained c i)) ∧
      ∀ e, [e, d].Sublist r.classes → e.name ∈ before.map TypeExpr.name →
        ∀ i, r'.Gained e.name i → i ∈ after.map TypeExpr.name ∧ d'.distanceTo i = 0 := by
  have hrun : passesTo 4 5 (.convertedAbove true) (fun _ r r' => r.Apart &&
      r.comparesTo r' "D" fun before _ after => before.map TypeExpr.name = ["P", "A"] &&
        after.map TypeExpr.name = ["P", "A", "B"]) = true := by
    decide +kernel
  obtain ⟨units, r, r', hu, hr, hr', hp⟩ := exists_of_passesTo hrun
  obtain ⟨hapart, hp⟩ := Bool.and_eq_true_iff.mp hp
  obtain ⟨d, before, d', after, hd, hname, hb, hd', ha, hp⟩ := Registry.exists_of_comparesTo hp
  simp only [Bool.and_eq_true, decide_eq_true_eq] at hapart hp
  obtain ⟨before', hb', hall⟩ := distanceTo_eq_zero_iff_before (fun unit hunit => by
    obtain ⟨tree, _, htree⟩ := Except.exists_of_mem_mapM hu unit hunit
    exact ⟨_, tree, htree⟩) hr hr' hapart hd hd' ha
  cases hb.symm.trans hb'
  exact ⟨units, r, r', d, before, d', after, hu, hr, hr', hapart, hd, hname, hb, hd', ha, hp.1, hp.2,
    hall⟩

/-- In both orders `D` gets the interface `B`, which it did not have. -/
theorem distanceTo_converted_above (superclassFirst : Bool) : ∃ units r r' d before d' after,
    readUnits sqlSettings [.convertedAbove superclassFirst] = .ok units ∧
    runStages sqlSettings units (Stage.standard.take 4) = .ok r ∧
    runStages sqlSettings units (Stage.standard.take 5) = .ok r' ∧ d ∈ r.classes ∧
    d.name = "D" ∧ d.name ≠ r.utility ∧ r.ancestors d = .ok before ∧ r'.get? d.name = some d' ∧
    r'.ancestors d' = .ok after ∧ r'.HasInterface "B" ∧ "B" ∉ before.map TypeExpr.name ∧
    "B" ∈ after.map TypeExpr.name ∧ d'.distanceTo "B" = if superclassFirst then 0 else 1 := by
  have hrun : passesTo 4 5 (.convertedAbove superclassFirst) (fun _ r r' => r'.HasInterface "B" &&
      r.utility = "Forms" && r.comparesTo r' "D" fun before d' after =>
        "B" ∉ before.map TypeExpr.name && "B" ∈ after.map TypeExpr.name &&
        d'.distanceTo "B" = if superclassFirst then 0 else 1) = true := by
    revert superclassFirst
    decide +kernel
  obtain ⟨units, r, r', hu, hr, hr', hp⟩ := exists_of_passesTo hrun
  simp only [Bool.and_eq_true, decide_eq_true_eq] at hp
  obtain ⟨⟨hinterface, hutility⟩, hp⟩ := hp
  obtain ⟨d, before, d', after, hd, hname, hb, hd', ha, hp⟩ := Registry.exists_of_comparesTo hp
  simp only [Bool.and_eq_true, decide_eq_true_eq] at hp
  exact ⟨units, r, r', d, before, d', after, hu, hr, hr', hd, hname, by simp [hname, hutility], hb,
    hd', ha, hinterface, hp.1.1, hp.1.2, hp.2⟩

/-- **The order of classes decides.** If `P` comes first, `D` has distance zero to `B`, and otherwise
it has distance one. -/
theorem distanceTo_depends_on_order :
    (∃ units r r' d before d' after,
      readUnits sqlSettings [.convertedAbove true] = .ok units ∧
      runStages sqlSettings units (Stage.standard.take 4) = .ok r ∧
      runStages sqlSettings units (Stage.standard.take 5) = .ok r' ∧ d ∈ r.classes ∧
      d.name = "D" ∧ d.name ≠ r.utility ∧ r.ancestors d = .ok before ∧ r'.get? d.name = some d' ∧
      r'.ancestors d' = .ok after ∧ r'.HasInterface "B" ∧ "B" ∉ before.map TypeExpr.name ∧
      "B" ∈ after.map TypeExpr.name ∧ d'.distanceTo "B" = 0) ∧
    ∃ units r r' d before d' after,
      readUnits sqlSettings [.convertedAbove false] = .ok units ∧
      runStages sqlSettings units (Stage.standard.take 4) = .ok r ∧
      runStages sqlSettings units (Stage.standard.take 5) = .ok r' ∧ d ∈ r.classes ∧
      d.name = "D" ∧ d.name ≠ r.utility ∧ r.ancestors d = .ok before ∧ r'.get? d.name = some d' ∧
      r'.ancestors d' = .ok after ∧ r'.HasInterface "B" ∧ "B" ∉ before.map TypeExpr.name ∧
      "B" ∈ after.map TypeExpr.name ∧ d'.distanceTo "B" = 1 :=
  ⟨distanceTo_converted_above true, distanceTo_converted_above false⟩

end FluentGrammar
