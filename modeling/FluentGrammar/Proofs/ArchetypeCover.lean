import FluentGrammar.Proofs.InheritedStubs
import FluentGrammar.Proofs.PromotedTables

/-!
# Archetype methods of anonymous classes

The anonymous class of a rule is made with the archetype methods in the table of the target. Rules,
explicit methods and conversions leave that table as it is, provided that interfaces extend
interfaces only. Promotion does not, but for the archetype methods that it leaves the class has what
it needs; and once inherited methods have been settled, the class implements whatever the target
has.

* `Registry.Covers`, `Registry.Serves`: a class implements the archetype methods of a target.
* `Registry.Serves.transfer`: this depends on the table of the target only.
* `ready_of_runStages`, `Registry.Ready.addExplicitMethods`, `Registry.Ready.closeClasses`: the
  stages before promotion.
* **`Registry.Ready.promoteMethods`**: methods that are not promoted are covered.
* **`Registry.Ready.implementMethods`**, `Registry.ServesAll.gains`: the stages after it.
-/

namespace FluentGrammar

namespace Registry

/-! ## Tables that stay -/

section Tables

variable {r r' : Registry} {d d' : Definition} {m b : Method} {trail : List String}
  {table t : Table Method} {parents : List TypeExpr}

theorem stubFor_of_ancestors {ancestors ancestors' : Except ModelFault (List TypeExpr)}
    (h : ∀ types, ancestors = .ok types → ancestors' = .ok types)
    (hb : stubFor d ancestors m = .ok b) : stubFor d ancestors' m = .ok b := by
  obtain ⟨ancestor, hancestor, hstub⟩ := Except.bind_eq_ok_iff.mp hb
  refine Except.bind_eq_ok_iff.mpr ⟨ancestor, ?_, hstub⟩
  unfold ancestorFor at hancestor ⊢
  by_cases hself : d.name = m.owner.name
  · rw [if_pos hself] at hancestor ⊢
    exact hancestor
  · rw [if_neg hself] at hancestor ⊢
    obtain ⟨types, htypes, hancestor⟩ := Except.bind_eq_ok_iff.mp hancestor
    exact Except.bind_eq_ok_iff.mpr ⟨types, h types htypes, hancestor⟩

theorem Widens.overrideFor_eq (h : Widens r r') (hf : d.SameFrame d')
    (hb : r.overrideFor d m = .ok b) : r'.overrideFor d' m = .ok b := by
  rw [overrideFor, stubFor_congr hf]
  exact stubFor_of_ancestors (fun _ => h.ancestors_eq hf) hb

theorem Spares.inheritVia_eq (h : r.Spares r') (hw : Widens r r') (hs : r.Sound) (hs' : r'.Sound)
    {ancestors ancestors' : LazyAncestors}
    (ha : ∀ types, ancestors.get = .ok types → ancestors'.get = .ok types)
    (ht : r.inheritVia trail d ancestors table parents = .ok t) :
    r'.inheritVia trail d ancestors' table parents = .ok t := by
  fun_induction inheritVia r trail d ancestors table parents generalizing ancestors' t with
  | case1 => rw [inheritVia_nil, ← ht]
  | case2 => cases ht
  | case3 => cases ht
  | case4 trail d ancestors table parent rest p hget hn ih₁ ih₂ =>
    simp only [Except.bind_eq_ok_iff] at ht
    obtain ⟨inherited, hi, u, hu, ht⟩ := ht
    obtain ⟨p', hget', hf⟩ := hw.kept _ p hget
    obtain ⟨inherited', hi', hvisible⟩ : ∃ inherited',
        r'.inheritVia (trail ++ [p'.name]) p' (r'.lazyAncestors p') p'.methods p'.supertypes =
          .ok inherited' ∧ visible inherited' = visible inherited := by
      by_cases hutility : parent.name = r.utility
      · -- The utility class may have changed, but it hands nothing down.
        rw [hutility] at hget hget'
        rw [hs.supertypes_utility hget, inheritVia_nil] at hi
        rw [← h.utility] at hget'
        refine ⟨p'.methods, ?_, ?_⟩
        · rw [hs'.supertypes_utility hget', inheritVia_nil]
        · rw [hs'.visible_utility hget', ← Except.ok.inj hi, hs.visible_utility hget]
      · cases (h.same _ p hutility hget).symm.trans hget'
        exact ⟨inherited, ih₁ (fun _ => hw.ancestors_eq (.refl p)) hi, rfl⟩
    obtain ⟨stubs, hstubs, hmerge⟩ := foldlM_inheritMethod_eq_ok_iff.mp hu
    refine inheritVia_cons_eq_ok_iff.mpr ⟨p', inherited', u, hget', hf.name.symm ▸ hn, hi',
      foldlM_inheritMethod_eq_ok_iff.mpr ⟨stubs, ?_, hmerge⟩, ih₂ u ha ht⟩
    rw [Except.mapM_eq_ok_iff] at hstubs ⊢
    rw [← visible, hvisible]
    exact hstubs.imp fun _ _ => stubFor_of_ancestors ha

/-- **Tables stay** when only the utility class changes. -/
theorem Spares.allMethods_eq (h : r.Spares r') (hw : Widens r r') (hs : r.Sound) (hs' : r'.Sound)
    (ht : r.allMethods d = .ok t) : r'.allMethods d = .ok t := by
  have ha : ∀ types, (r.lazyAncestors d).get = .ok types → (r'.lazyAncestors d).get = .ok types :=
    fun _ => hw.ancestors_eq (.refl d)
  exact h.inheritVia_eq hw hs hs' ha ht

end Tables

/-! ## Targets that are served -/

section Cover

variable {settings : Settings} {r r' : Registry} {rule : ProductionRule} {target : TypeExpr}
  {a a' : Definition} {P Q : Method → Prop}

/-- The class `a` implements those archetype methods in the table of the target that have the
property `P`, each under the signature of its stub. -/
def Covers (settings : Settings) (P : Method → Prop) (r : Registry) (target : TypeExpr)
    (a : Definition) : Prop :=
  ∀ d t, r.get? target.name = some d → r.allMethods d = .ok t → ∀ m ∈ t.values,
    (archetypeMethodOf? r settings m).isSome = true → P m →
      ∃ b n, r.overrideFor a m = .ok b ∧ a.methods.get? b.signature = some n ∧
        n.state = .implemented

theorem Covers.imp (h : r.Covers settings P target a) (hQ : ∀ m, Q m → P m) :
    r.Covers settings Q target a :=
  fun d t hd ht m hm hsome hq => h d t hd ht m hm hsome (hQ m hq)

theorem Covers.keeps (h : r.Covers settings P target a) (ha : a.Keeps a')
    (hk : a.kind = .anonymousClass) : r.Covers settings P target a' := by
  intro d t hd ht m hm hsome hp
  obtain ⟨b, n, hb, hn, hstate⟩ := h d t hd ht m hm hsome hp
  obtain ⟨comment, hn'⟩ := ha.methods _ n hn
  refine ⟨b, _, ?_, hn', hstate⟩
  rw [(SameFrame.refl r).overrideFor_eq (ha.sameFrame hk), hb]

/-- The anonymous class of a rule and all archetype methods of the target. -/
structure Serves (settings : Settings) (r : Registry) (rule : ProductionRule) (a : Definition) :
    Prop where
  shape : a.shape = .anonymousClass rule.target
  target : r.HasInterface rule.target.name
  table : ∃ d t, r.get? rule.target.name = some d ∧ r.allMethods d = .ok t
  covers : r.Covers settings (fun _ => True) rule.target a

theorem Serves.kind_eq (h : r.Serves settings rule a) : a.kind = .anonymousClass := by
  rw [Definition.kind, h.shape]

theorem supertypes_of_shape (h : a.shape = .anonymousClass target) : a.supertypes = [target] := by
  rw [Definition.supertypes, h]

/-- **Whether a target is served depends on its table only**, and on the stubs of the methods in it.
-/
theorem Serves.transfer (h : r.Serves settings rule a) (hs : r.Sound) (he : r.Evolves r')
    (ha : a.Keeps a')
    (htable : ∀ d t, r.get? rule.target.name = some d → d.kind = .interface →
      r.allMethods d = .ok t → ∃ d', r'.get? rule.target.name = some d' ∧ r'.allMethods d' = .ok t)
    (hover : ∀ m b, r.overrideFor a m = .ok b → r'.overrideFor a' m = .ok b) :
    r'.Serves settings rule a' := by
  obtain ⟨d, t, hd, ht⟩ := h.table
  obtain ⟨e, he', hk⟩ := hs.hasInterface_iff.mp h.target
  cases hd.symm.trans he'
  obtain ⟨d', hd', ht'⟩ := htable d t hd hk ht
  refine ⟨(ha.shape h.kind_eq).trans h.shape, he.hasInterface h.target, ⟨d', t, hd', ht'⟩, ?_⟩
  intro e u he' hu m hm hsome _
  cases hd'.symm.trans he'
  cases ht'.symm.trans hu
  rw [archetypeMethodOf?_congr (he.archetype?_eq hs m.origin)] at hsome
  obtain ⟨b, n, hb, hn, hstate⟩ := h.covers d t hd ht m hm hsome trivial
  obtain ⟨comment, hn'⟩ := ha.methods _ n hn
  exact ⟨b, _, hover m b hb, hn', hstate⟩

theorem Serves.spares (h : r.Serves settings rule a) (hs : r.Sound) (hs' : r'.Sound)
    (he : r.Evolves r') (hspares : r.Spares r') (hw : Widens r r') : r'.Serves settings rule a := by
  refine h.transfer hs he (.refl a)
    (fun d t hd hk ht => ⟨d, ?_, hspares.allMethods_eq hw hs hs' ht⟩)
    fun m b => hw.overrideFor_eq (.refl a)
  have hne := hs.ne_utility_of_kind (mem_of_get? hd) (by simp [hk])
  exact hspares.same _ d (name_of_get? hd ▸ hne) hd

theorem Serves.sameOn (h : r.Serves settings rule a) (hs : r.Sound) (hg : r.Grounded)
    (he : r.Evolves r') (hsame : SameOn r.HasInterface r r') : r'.Serves settings rule a := by
  refine h.transfer hs he (.refl a) (fun d t hd _ ht => ⟨d, ?_, ?_⟩) fun m b hb => ?_
  · rw [hsame.same _ h.target, hd]
  · rw [hsame.allMethods_eq (hg.hasInterface_parent hs h.target hd), ht]
  · have hparents : ∀ parent ∈ a.supertypes, r.HasInterface parent.name := by
      rw [supertypes_of_shape h.shape]
      exact List.forall_mem_singleton.mpr h.target
    rw [overrideFor, ancestors, hsame.ancestorsVia_eq hparents]
    exact hb

theorem Serves.agreesOn (h : r.Serves settings rule a) (hs : r.Sound) (he : r.Evolves r')
    (hagrees : AgreesOn r.HasInterface r r') (ha : a.Keeps a') : r'.Serves settings rule a' := by
  refine h.transfer hs he ha (fun d t hd _ ht => ?_) fun m b hb => ?_
  · obtain ⟨d', hd', hf⟩ := hagrees.frame.exists_of_get? hd
    refine ⟨d', hd', ?_⟩
    rw [hagrees.allMethods_eq hf (hagrees.methods _ d d' h.target hd hd')
      (hagrees.parents _ d h.target hd), ht]
  · rw [hagrees.frame.overrideFor_eq (ha.sameFrame h.kind_eq), hb]

theorem serves_of_anonymousFor {kind name : String} (hs : r.Sound)
    (hkind : targetArchetype r rule = .ok kind)
    (h : anonymousFor r settings rule kind name = .ok a) :
    r.Serves settings rule a ∧ ∀ n ∈ a.methods.values, n.state = .implemented := by
  obtain ⟨d, t, hd, ht, hall, hmade⟩ := anonymousFor_spec h
  have hwell : a.WellFormed := (adds_anonymousFor h).wellFormed (by rintro e ⟨⟩)
  refine ⟨⟨shape_of_anonymousFor h, hasInterface_of_targetArchetype hs hkind, ⟨d, t, hd, ht⟩, ?_⟩,
    ?_⟩
  · intro e u he hu m hm hsome _
    cases hd.symm.trans he
    cases ht.symm.trans hu
    obtain ⟨method, hmethod⟩ := Option.isSome_iff_exists.mp hsome
    obtain ⟨n, hn, himplements⟩ := hall m hm method hmethod
    obtain ⟨b, hb, hsignature, -⟩ := himplements.stub
    exact ⟨b, n, hb, hsignature ▸ hwell.get?_signature hn, himplements.state⟩
  · intro n hn
    obtain ⟨m, _, method, himplements⟩ := hmade n hn
    exact himplements.state

end Cover

end Registry

/-! ## Stages before promotion -/

section Stages

open Registry

variable {settings : Settings} {units : List CompilationUnit} {rules : List ProductionRule}
  {r r' : Registry}

/-- All anonymous classes serve their rules, in the order of the rules. -/
abbrev Registry.ServesAll (settings : Settings) (rules : List ProductionRule) (r : Registry) :
    Prop :=
  List.Forall₂ (r.Serves settings) rules r.anonymous

/-- All methods of anonymous classes are implemented. -/
def Registry.Implemented (r : Registry) : Prop :=
  ∀ a ∈ r.anonymous, ∀ n ∈ a.methods.values, n.state = .implemented

/-- The registry before promotion: all rules are served. -/
structure Registry.Ready (settings : Settings) (rules : List ProductionRule) (r : Registry) :
    Prop where
  sound : r.Sound
  archetyped : r.Archetyped settings
  serves : r.ServesAll settings rules
  implemented : r.Implemented

theorem Registry.Ready.spares (h : r.Ready settings rules) (he : r.Evolves r')
    (hspares : r.Spares r') (hw : Widens r r') (ha : r'.anonymous = r.anonymous) :
    r'.Ready settings rules := by
  have hs' := h.sound.evolves he
  refine ⟨hs', h.archetyped.spares hspares hs', ?_, ?_⟩
  · rw [ServesAll, ha]
    exact h.serves.imp fun _ _ hserves => hserves.spares h.sound hs' he hspares hw
  · rw [Implemented, ha]
    exact h.implemented

theorem Registry.Ready.handleRule (h : r.Ready settings rules) {rule : ProductionRule} {u : Unit}
    (hrule : FluentGrammar.handleRule settings rule r = .ok u r') :
    r'.Ready settings (rules ++ [rule]) := by
  have hs := h.sound
  have he := handleRule_evolves hs hrule
  have hs' := hs.evolves he
  have hspares := handleRule_spares hs hrule
  have hserved : ∀ {rule a}, r.Serves settings rule a → r'.Serves settings rule a := fun hserves =>
    hserves.spares hs hs' he hspares (handleRule_widens hrule)
  obtain ⟨kind, a, hkind, ha, -, hanonymous, -⟩ := get?_of_handleRule hs hrule
  -- The class is made in a registry where its name has been taken already.
  have hs₀ : r.takeAnonymousName.Sound := hs.evolves (evolves_of_eq rfl rfl rfl rfl)
  obtain ⟨hserves, hmade⟩ := serves_of_anonymousFor hs₀ hkind ha
  have hserves : r.Serves settings rule a := hserves.spares hs₀ hs (evolves_of_eq rfl rfl rfl rfl)
    (.of_get?_eq rfl fun _ _ => rfl) (.of_eq rfl rfl)
  refine ⟨hs', h.archetyped.spares hspares hs', ?_, ?_⟩
  · rw [ServesAll, hanonymous]
    exact List.rel_append (h.serves.imp fun _ _ => hserved) (.cons (hserved hserves) .nil)
  · rw [Implemented, hanonymous]
    exact List.forall_mem_append.mpr ⟨h.implemented, List.forall_mem_singleton.mpr hmade⟩

/-- **All rules are served** once they have been handled. -/
theorem ready_of_runStages (hp : ∀ unit ∈ units, ∀ d ∈ unit.declarations, d.Proper)
    (h : runStages settings units (Stage.standard.take 3) = .ok r) :
    r.Ready settings (units.flatMap CompilationUnit.rules) ∧
      (ExtendsInterfaces units → r.Grounded) := by
  obtain ⟨_, h⟩ := runStages_eq_ok_iff.mp h
  simp only [Stage.standard, List.take_succ_cons, List.take_zero, Resolution.forM_cons_eq_ok_iff,
    Resolution.forM_nil_eq_ok_iff] at h
  obtain ⟨r₁, h₁, r₂, h₂, _, h₃, rfl⟩ := h
  obtain ⟨_, _, _, _, hs₂, _⟩ := load_spec hp h₁ h₂
  have hnone : r₂.anonymous = [] := (loaded_of_load hp h₁ h₂).anonymous
  refine ⟨?_, fun hi => ?_⟩
  · refine addFactories_induction (Ready settings) (fun _ _ s t _ hs himports => ?_)
      (fun _ _ _ _ _ hs hrule => hs.handleRule hrule) ⟨hs₂, archetyped_of_load hp h₁ h₂, ?_, ?_⟩ h₃
    · obtain ⟨hutility, hanonymous, hget⟩ := get?_of_addUtilityImports hs.sound himports
      exact hs.spares (evolves_addUtilityImports himports) (.of_get?_eq hutility hget)
        (addUtilityImports_widens himports) hanonymous
    · rw [ServesAll, hnone]
      exact .nil
    · rw [Implemented, hnone]
      simp
  · exact (grounded_of_load hp hi h₁ h₂).2.evolves hs₂
      (Stage.run_evolves (declaredMethods_of_proper hp) (by decide) (by decide) hs₂ h₃)

theorem Registry.Ready.addExplicitMethods (h : r.Ready settings rules)
    (hd : DeclaredMethods units) {u : Unit}
    (hadd : Stage.explicitMethods.run settings units r = .ok u r') : r'.Ready settings rules := by
  have hs := h.sound
  have hkeeps := Stage.run_keeps hs (by decide) (by decide) (by decide) hadd
  exact h.spares (Stage.run_evolves hd (by decide) (by decide) hs hadd)
    (addExplicitMethods_spares hs hadd) (Stage.run_widens (by decide) hadd)
    (hkeeps.anonymous_eq hs.nodup fun a ha => (hs.hasKind_of_mem_anonymous ha).1)

/-- Interfaces that extend interfaces only are not concerned by conversions. -/
theorem Registry.Ready.closeClasses (h : r.Ready settings rules) (hd : DeclaredMethods units)
    (hg : r.Grounded) {u : Unit}
    (hclose : Stage.conversionClosure.run settings units r = .ok u r') :
    r'.Ready settings rules := by
  have hs := h.sound
  have he := Stage.run_evolves hd (by decide) (by decide) hs hclose
  have hkeeps := Stage.run_keeps hs (by decide) (by decide) (by decide) hclose
  have hclass : ∀ name d, r.get? name = some d → d.kind ≠ .namedClass →
      name ∉ r.classes.map Definition.name := fun name d hd hk hmem => by
    obtain ⟨e, he, rfl⟩ := List.mem_map.mp hmem
    cases hd.symm.trans (hs.get?_of_mem_classes he)
    exact hk (kind_of_mem_classes he)
  have hanonymous := hkeeps.anonymous_eq hs.nodup fun a ha =>
    hclass _ a (hs.get?_of_mem (List.mem_append_right _ ha)) (by simp [hs.unnamed a ha])
  have hsame : SameOn r.HasInterface r r' := by
    refine ⟨fun name hn => ?_, fun _ _ hn hd => hg.hasInterface_parent hs hn hd⟩
    obtain ⟨d, hd, hk⟩ := hs.hasInterface_iff.mp hn
    exact hkeeps.untouched name (hclass name d hd (by simp [hk]))
  refine ⟨hs.evolves he, fun name d hd hk => ?_, ?_, ?_⟩
  · have hn := hkeeps.hasInterface_of_get? hd hk hs
    exact h.archetyped name d ((hsame.same name hn).symm.trans hd) hk
  · rw [ServesAll, hanonymous]
    exact h.serves.imp fun _ _ hserves => hserves.sameOn hs hg he hsame
  · rw [Implemented, hanonymous]
    exact h.implemented

end Stages

/-! ## Promotion and after -/

section Later

open Registry

variable {settings : Settings} {units : List CompilationUnit} {rules : List ProductionRule}
  {r r' : Registry}

theorem anonymous_of_promoteMethods (hs : r.Sound) {u : Unit}
    (h : Stage.interfaceEnhancement.run settings units r = .ok u r') :
    r'.anonymous = r.anonymous :=
  (Stage.run_keeps hs (by decide) (by decide) (by decide) h).anonymous_eq hs.nodup fun _ ha =>
    (hs.hasKind_of_mem_anonymous ha).not_hasInterface hs (by simp)

/-- **Archetype methods that are not promoted are covered** after promotion. -/
theorem Registry.Ready.promoteMethods (h : r.Ready settings rules) (hg : r.Grounded) {u : Unit}
    (hpromote : Stage.interfaceEnhancement.run settings units r = .ok u r') :
    List.Forall₂ (fun rule a => r'.Covers settings (·.delegate = none) rule.target a) rules
      r'.anonymous := by
  have hs := h.sound
  have ha := h.archetyped
  have hpromotes := promoteMethods_promotes hpromote
  have hframe : SameFrame r r' := hpromotes.imp fun _ _ hd => hd.frame
  rw [anonymous_of_promoteMethods hs hpromote]
  refine h.serves.imp fun rule a hserves d' t' hd' ht' m hm hsome hdelegate => ?_
  obtain ⟨d, t, hd, ht⟩ := hserves.table
  obtain ⟨e, he', hk⟩ := hs.hasInterface_iff.mp hserves.target
  cases hd.symm.trans he'
  have hname := name_of_get? hd
  obtain ⟨method, hmethod⟩ := Option.isSome_iff_exists.mp hsome
  obtain ⟨-, -, -, hreserved, -⟩ := exists_of_archetypeMethodOf? hmethod
  rw [← hname] at hd hd'
  obtain ⟨n, hn, htwin⟩ := exists_twin hpromotes hs hg ha hd hk hd' ht ht' m hm hreserved hdelegate
  have hsome' := (ha.of_mem_allMethods hs hg hd hk ht hn (htwin.name ▸ hreserved)).2.2
  obtain ⟨b, i, hb, hi, hstate⟩ := hserves.covers d t (hname ▸ hd) ht n hn hsome' trivial
  obtain ⟨c, hc, hcb⟩ := exists_overrideFor_twin htwin hb
  refine ⟨c, i, ?_, hcb.signature_eq ▸ hi, hstate⟩
  rw [hframe.overrideFor_eq (.refl a), hc]

theorem state_of_settle {d : Definition} {m m' : Method} (hd : d.kind = .anonymousClass)
    (h : settle d m = .ok m') : m'.state = .implemented := by
  unfold settle at h
  split at h
  · unfold Method.implement at h
    split at h
    · exact Except.ok.inj h ▸ rfl
    · cases h
  · rw [Definition.isAbstract, hd] at h
    cases h

theorem Registry.Sound.mem_anonymous_of_get? (hs : r.Sound) {name : String} {a : Definition}
    (ha : r.get? name = some a) (hk : a.kind = .anonymousClass) : a ∈ r.anonymous :=
  (List.mem_append.mp (mem_of_get? ha)).resolve_left fun hmem => hs.named a hmem hk

theorem implemented_of_implementMethods (hs : r.Sound) (hd : DeclaredMethods units)
    (hi : r.Implemented) {u : Unit} (h : Stage.implementMethods.run settings units r = .ok u r') :
    r'.Implemented := by
  have hs' := hs.evolves (Stage.run_evolves hd (by decide) (by decide) hs h)
  obtain ⟨order, -, -, h⟩ := implementMethods_cases hs h
  have hall := Resolution.forM_induction (fun s => ∀ name a, s.get? name = some a →
    a.kind = .anonymousClass → ∀ n ∈ a.methods.values, n.state = .implemented)
    (fun name _ s t _ hall hstep other a ha hk n hn => ?_)
    (fun name a ha hk => hi a (hs.mem_anonymous_of_get? ha hk)) h
  · exact fun a ha =>
      hall a.name a (hs'.get?_of_mem (List.mem_append_right _ ha)) (hs'.unnamed a ha)
  · obtain ⟨d, d', _, _, hd, _, hsettle, hadds, hd', hoff⟩ := implementClass_cases hstep
    by_cases hself : other = name
    · subst hself
      cases hd'.symm.trans ha
      obtain ⟨hf, hentries⟩ := Definition.addMethods_spec hadds
      have hkd := hf.kind.symm.trans hk
      rw [Table.values, hentries, List.map_append, List.map_map, List.map_map] at hn
      rcases List.mem_append.mp hn with hn | hn
      · exact hall other d hd hkd n hn
      · obtain ⟨m, hm, rfl⟩ := List.mem_map.mp hn
        obtain ⟨_, _, hmade⟩ := Except.exists_of_mem_mapM hsettle m hm
        have hstate := state_of_settle hkd hmade
        exact hstate
    · exact hall other a (hoff.off other hself ▸ ha) hk n hn

/-- Since `r`, the anonymous classes in `done` have been settled, and interfaces have stayed. -/
structure Registry.Settling (r : Registry) (done : List String) (s : Registry) : Prop where
  evolved : r.Evolves s
  frame : SameFrame r s
  interfaces : ∀ name, r.HasInterface name → s.get? name = r.get? name
  settled : ∀ name ∈ done, ∀ a, s.get? name = some a → a.kind = .anonymousClass → s.Settled a

theorem Registry.Settling.parents {done : List String} {s : Registry} (h : r.Settling done s)
    (hs : r.Sound) (hg : r.Grounded) {name : String} {a : Definition} (ha : s.get? name = some a)
    (hk : a.kind = .anonymousClass) : ∀ parent ∈ a.supertypes, r.HasInterface parent.name := by
  obtain ⟨e, he, hf⟩ := h.frame.symm.exists_of_get? ha
  rw [← hf.supertypes]
  exact hg.anonymous e (hs.mem_anonymous_of_get? he (hf.kind.trans hk))

theorem Registry.Settling.implementClass {done : List String} {name : String} {kind : Kind}
    {s t : Registry} (h : r.Settling done s) (hs : r.Sound) (hg : r.Grounded)
    (hc : r.HasKind kind name) (hk : kind ≠ .interface) {u : Unit}
    (hstep : FluentGrammar.implementClass name s = .ok u t) : r.Settling (done ++ [name]) t := by
  have hss := hs.evolves h.evolved
  have hframe := implementClass_sameFrame hstep
  obtain ⟨d, d', table, hd, htable, hd', hf, hoff, hkeys, hcovered⟩ := implementClass_spec hss hstep
  have hne : ∀ other, r.HasInterface other → other ≠ name := by
    rintro other hother rfl
    exact hc.not_hasInterface hs hk hother
  have hagrees : AgreesOn r.HasInterface s t := by
    refine ⟨hframe, fun other e hother hget => ?_, fun other e e' hother hget hget' => ?_⟩
    · exact hg.hasInterface_parent hs hother (h.interfaces other hother ▸ hget)
    · rw [hoff.off other (hne other hother), hget] at hget'
      rw [Option.some.inj hget']
  refine ⟨h.evolved.trans (implementClass_evolves hss (hc.evolves hs h.evolved) hk hstep),
    h.frame.trans hframe, fun other hother => ?_, fun other hother a ha hka => ?_⟩
  · rw [hoff.off other (hne other hother), h.interfaces other hother]
  · by_cases hself : other = name
    · subst hself
      cases hd'.symm.trans ha
      have hparents := h.parents hs hg hd (hf.kind.symm.trans hka)
      exact settled_of_covered hagrees hf hparents hkeys htable hcovered
    · have hdone : other ∈ done :=
        (List.mem_append.mp hother).resolve_right fun hmem => hself (List.mem_singleton.mp hmem)
      rw [hoff.off other hself] at ha
      exact (h.settled other hdone a ha hka).of_agreesOn hagrees (.refl a)
        (h.parents hs hg ha hka) fun _ => id

/-- In the interfaces of the registry no method with a reserved name has access or modifiers. -/
def Registry.ReservedPlain (settings : Settings) (r : Registry) : Prop :=
  ∀ name d, r.get? name = some d → d.kind = .interface → ∀ m ∈ d.methods.values,
    settings.isReserved m.name = true → m.Plain

theorem Registry.ReservedPlain.of_mem_allMethods (hp : r.ReservedPlain settings) (hs : r.Sound)
    (hg : r.Grounded) {d : Definition} {t : Table Method} (hd : r.get? d.name = some d)
    (hk : d.kind = .interface) (ht : r.allMethods d = .ok t) :
    ∀ m ∈ t.values, settings.isReserved m.name = true → m.Plain := by
  refine hg.forall_mem_allMethods hs hp (fun m b owner ancestor hk hb hm hreserved => ?_) hd hk ht
  obtain ⟨hstub, -⟩ := Method.stub_eq_ok hb
  exact (hm (hstub.name ▸ hreserved)).stub hk hstub

theorem isOpen_of_overrideFor (hs : r.Sound) {a d : Definition} {t : Table Method} {m b : Method}
    (ha : a.kind ≠ .interface) (hd : r.get? d.name = some d) (hk : d.kind = .interface)
    (ht : r.allMethods d = .ok t) (hm : m ∈ t.values) (hb : r.overrideFor a m = .ok b) :
    b.isOpen = true := by
  obtain ⟨howner, habstract⟩ :=
    owner_of_mem_allMethods (hs.wellFormed d (mem_of_get? hd)).holdsMethods ht hm
  rw [(isStub_of_overrideFor hb).isOpen_eq ha habstract, habstract, howner]
  exact congrArg (Kind.isAbstract · m.modifiers) hk

/-- **A settled class serves its rule**, as all its methods are implemented. -/
theorem Registry.Settled.serves (hs : r.Sound) (hg : r.Grounded) (hp : r.ReservedPlain settings)
    {rule : ProductionRule} {a : Definition} (hshape : a.shape = .anonymousClass rule.target)
    (htarget : r.HasInterface rule.target.name)
    (himplemented : ∀ n ∈ a.methods.values, n.state = .implemented) (h : r.Settled a) :
    r.Serves settings rule a := by
  obtain ⟨lists, hlists, hcovered⟩ := h
  rw [supertypes_of_shape hshape] at hlists
  obtain ⟨stubs, hinherits, rfl⟩ :
      ∃ stubs, r.InheritsFrom a rule.target stubs ∧ lists = [stubs] := by
    obtain ⟨stubs, _, hstubs, hnil, rfl⟩ := List.forall₂_cons_left_iff.mp hlists
    exact ⟨stubs, hstubs, by rw [List.forall₂_nil_left_iff.mp hnil]⟩
  obtain ⟨d, t, hd, ht, hstubs⟩ := hinherits
  refine ⟨hshape, htarget, ⟨d, t, hd, ht⟩, fun e v he hv m hm hsome _ => ?_⟩
  cases hd.symm.trans he
  cases ht.symm.trans hv
  obtain ⟨e, he, hk⟩ := hs.hasInterface_iff.mp htarget
  cases hd.symm.trans he
  rw [← name_of_get? hd] at hd
  -- The method is visible, so it has a stub, and the first stub of that signature is open.
  obtain ⟨method, hmethod⟩ := Option.isSome_iff_exists.mp hsome
  obtain ⟨-, -, -, hreserved, -⟩ := exists_of_archetypeMethodOf? hmethod
  have hplain := hp.of_mem_allMethods hs hg hd hk ht m hm hreserved
  obtain ⟨b, hb, hover⟩ := exists_right_of_forall₂ (Except.mapM_eq_ok_iff.mp hstubs) m
    (mem_visible.mpr ⟨hm, hplain.isHidden_eq_false⟩)
  obtain ⟨c, hc⟩ : ∃ c, [stubs].flatten.find? (·.signature = b.signature) = some c :=
    Option.isSome_iff_exists.mp (List.find?_isSome.mpr ⟨b, by simpa using hb, by simp⟩)
  have hmem : c ∈ stubs := by simpa using List.mem_of_find?_eq_some hc
  obtain ⟨e, he, hstub⟩ := Except.exists_of_mem_mapM hstubs c hmem
  have hopen := isOpen_of_overrideFor hs (by simp [Definition.kind, hshape]) hd hk ht
    (mem_visible.mp he).1 hstub
  obtain ⟨n, hn⟩ := Table.exists_get?_of_mem_keys (hcovered b.signature c hc hopen)
  exact ⟨b, n, hover, hn, himplemented n (mem_values_of_get? hn)⟩

theorem servesAll_of_implementMethods (hs : r.Sound) (hd : DeclaredMethods units) (hg : r.Grounded)
    (hp : r.ReservedPlain settings) (hi : r.Implemented)
    (hshapes : List.Forall₂ (fun (rule : ProductionRule) a => a.shape = .anonymousClass rule.target)
      rules r.anonymous) {u : Unit} (h : Stage.implementMethods.run settings units r = .ok u r') :
    r'.ServesAll settings rules := by
  have he := Stage.run_evolves hd (by decide) (by decide) hs h
  have hs' := hs.evolves he
  have hi' := implemented_of_implementMethods hs hd hi h
  have hkeeps := Stage.run_keeps hs (by decide) (by decide) (by decide) h
  obtain ⟨order, hkinds, hanonymous, h⟩ := implementMethods_cases hs h
  have hsettling := Resolution.forM_induction_prefix r.Settling
    (fun done name rest s t u horder hsettling hstep => ?_)
    ⟨.refl r, .refl r, fun _ _ => rfl, by simp⟩ h
  · have hp' : r'.ReservedPlain settings := fun name d hd hk => by
      have hn := hkeeps.hasInterface_of_get? hd hk hs
      exact hp name d ((hsettling.interfaces name hn).symm.trans hd) hk
    refine forall₂_of_common (fun a ha rule a' hshape hpair => ?_) hshapes.flip
      (forall₂_and_mem_right hkeeps.anonymous)
    obtain ⟨hka, ha'⟩ := hpair
    have hk := hs'.unnamed a' ha'
    have hshape' := (hka.shape (hs.unnamed a ha)).trans hshape
    have hget := hs'.get?_of_mem (List.mem_append_right _ ha')
    have hsettled := hsettling.settled a'.name (hka.name ▸ hanonymous a ha) a' hget hk
    refine hsettled.serves hs' (hg.evolves hs he) hp' hshape' (he.hasInterface ?_) (hi' a' ha')
    exact hg.anonymous a ha rule.target (by rw [supertypes_of_shape hshape]; simp)
  · obtain ⟨kind, hk, hc⟩ := hkinds name (by simp [horder])
    exact hsettling.implementClass hs hg hc hk hstep

/-- **All rules are served again** once inherited methods have been settled after promotion. -/
theorem Registry.Ready.implementMethods (h : r.Ready settings rules) (hd : DeclaredMethods units)
    (hg : r.Grounded) {s : Registry} {u v : Unit}
    (hpromote : Stage.interfaceEnhancement.run settings units r = .ok u s)
    (himplement : Stage.implementMethods.run settings units s = .ok v r') :
    r'.ServesAll settings rules := by
  have he := Stage.run_evolves hd (by decide) (by decide) h.sound hpromote
  have hanonymous := anonymous_of_promoteMethods h.sound hpromote
  refine servesAll_of_implementMethods (h.sound.evolves he) hd (hg.evolves h.sound he) ?_ ?_ ?_
    himplement
  · intro name d' hd' hk m hm hreserved
    obtain ⟨d, hd, hpromotes⟩ := (promoteMethods_promotes hpromote).flip.exists_of_get? hd'
    rcases hpromotes.methods m hm with hm | ⟨hplain, -⟩
    · obtain ⟨_, _, rfl⟩ := (h.archetyped name d hd (hpromotes.frame.kind.symm.trans hk)).reserved
        m hm hreserved
      exact ⟨rfl, rfl⟩
    · exact hplain
  · rw [Implemented, hanonymous]
    exact h.implemented
  · rw [hanonymous]
    exact h.serves.imp fun _ _ hserves => hserves.shape

theorem Registry.ServesAll.gains (h : r.ServesAll settings rules) (hs : r.Sound) (hg : r.Grounded)
    (he : r.Evolves r') {utility : String} (hgains : Related (Definition.Gains utility) r r')
    (hkeeps : List.Forall₂ Definition.Keeps r.anonymous r'.anonymous) :
    r'.ServesAll settings rules := by
  have hagrees := hg.agreesOn hs (hgains.imp fun _ _ hd => hd.frame)
    fun _ _ _ hd hk hd' => hgains.methods_of_interface hd hk hd'
  exact forall₂_of_common (fun a _ rule a' hserves ha => hserves.agreesOn hs he hagrees ha)
    h.flip hkeeps

end Later

end FluentGrammar
