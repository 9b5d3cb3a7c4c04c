import FluentGrammar.Proofs.LateMembers

/-!
# What later stages leave alone

Once all rules have been handled, nothing is taken back: factories stay with their anonymous
classes, the conversions are those of the rules, and explicit methods only get more. Definitions
keep their methods up to documentation. Besides, each stage touches the definitions of some names
only.

* `Definition.Keeps`, `Registry.Keeps`: what is left alone, of a definition and of a registry.
* `Registry.Keeps.modify`, `Registry.Keeps.addMethod`: changes to a definition that may be touched.
* `Stage.Touches`: the names that a stage touches.
* **`Stage.run_keeps`**, `Stage.forM_run_keeps`: the stages after the rules.
-/

namespace FluentGrammar

/-! ## Definitions -/

/-- A definition with at least the methods it had, up to their documentation. The parents of an
anonymous class are the same. -/
structure Definition.Keeps (d d' : Definition) : Prop where
  name : d'.name = d.name
  typeParams : d'.typeParams = d.typeParams
  kind : d'.kind = d.kind
  shape : d.kind = .anonymousClass → d'.shape = d.shape
  methods : ∀ key m, d.methods.get? key = some m →
    ∃ comment, d'.methods.get? key = some { m with comment := comment }

namespace Definition.Keeps

variable {d d' d'' : Definition}

theorem of_methods_eq (hf : d.SameFrame d') (hm : d'.methods = d.methods) : d.Keeps d' where
  name := hf.name
  typeParams := hf.typeParams
  kind := hf.kind
  shape _ := hf.shape
  methods _ m h := ⟨m.comment, hm ▸ h⟩

theorem refl (d : Definition) : d.Keeps d :=
  of_methods_eq (.refl d) rfl

theorem trans (h₁ : d.Keeps d') (h₂ : d'.Keeps d'') : d.Keeps d'' where
  name := h₂.name.trans h₁.name
  typeParams := h₂.typeParams.trans h₁.typeParams
  kind := h₂.kind.trans h₁.kind
  shape hk := (h₂.shape (h₁.kind.trans hk)).trans (h₁.shape hk)
  methods key m h := by
    obtain ⟨_, h'⟩ := h₁.methods key m h
    obtain ⟨comment, h''⟩ := h₂.methods key _ h'
    exact ⟨comment, h''⟩

theorem sameFrame (h : d.Keeps d') (hk : d.kind = .anonymousClass) : d.SameFrame d' :=
  ⟨h.name, h.typeParams, h.shape hk⟩

theorem addMethod {m : Method} (h : d.addMethod m = .ok d') : d.Keeps d' := by
  have hf := sameFrame_of_addMethod h
  obtain ⟨hnew, rfl⟩ := addMethod_eq_ok_iff.mp h
  refine ⟨hf.name, hf.typeParams, hf.kind, fun _ => hf.shape, fun key n hn => ⟨n.comment, ?_⟩⟩
  have hne : key ≠ (m.reown d.owner).signature := fun he => hnew (he ▸ Registry.mem_keys_of_get? hn)
  rw [Table.get?_insert, if_neg hne, hn]

theorem mapInterfaces (d : Definition) (f : List TypeExpr → List TypeExpr) :
    d.Keeps (d.mapInterfaces f) := by
  refine ⟨rfl, rfl, ?_, fun hk => ?_, fun key m h => ⟨m.comment, h⟩⟩
  · rw [Definition.kind, Definition.kind, Definition.mapInterfaces]
    cases d.shape <;> rfl
  · rw [Definition.kind] at hk
    rw [Definition.mapInterfaces]
    cases hs : d.shape with
    | namedClass => simp [hs] at hk
    | interface | anonymousClass => rfl

theorem addInterface (d : Definition) (t : TypeExpr) : d.Keeps (d.addInterface t) := by
  unfold Definition.addInterface
  split
  · exact mapInterfaces d _
  · exact refl d

theorem addPaths (d : Definition) (paths : List ConversionPath) : d.Keeps (d.addPaths paths) := by
  refine ⟨rfl, rfl, ?_, fun hk => ?_, fun key m h => ⟨m.comment, h⟩⟩
  · rw [Definition.kind, Definition.kind, Definition.addPaths]
    cases d.shape <;> rfl
  · rw [Definition.kind] at hk
    rw [Definition.addPaths]
    cases hs : d.shape with
    | namedClass => simp [hs] at hk
    | interface | anonymousClass => rfl

theorem of_comments (d : Definition) (key : String) (f : String → String) :
    d.Keeps { d with
      methods := d.methods.modify key fun m => { m with comment := f m.comment } } := by
  refine ⟨rfl, rfl, rfl, fun _ => rfl, fun other m h => ?_⟩
  dsimp only
  rw [Table.get?_modify, h]
  split
  · exact ⟨_, rfl⟩
  · exact ⟨m.comment, rfl⟩

end Definition.Keeps

/-! ## Registries -/

namespace Registry

variable {touched : String → Prop} {r s t : Registry} {name context : String}

/-- The registry `s` has what is noted in `r`. Definitions keep their methods, and those of names
that are not touched are the same. -/
structure Keeps (touched : String → Prop) (r s : Registry) : Prop where
  utility : s.utility = r.utility
  factories : s.factories = r.factories
  conversions : s.conversions = r.conversions
  explicit : r.explicit <+: s.explicit
  definitions : List.Forall₂ Definition.Keeps r.definitions s.definitions
  anonymous : List.Forall₂ Definition.Keeps r.anonymous s.anonymous
  untouched : ∀ name, ¬ touched name → s.get? name = r.get? name

namespace Keeps

theorem refl (touched : String → Prop) (r : Registry) : r.Keeps touched r :=
  ⟨rfl, rfl, rfl, List.prefix_refl _, List.forall₂_same.mpr fun d _ => .refl d,
    List.forall₂_same.mpr fun d _ => .refl d, fun _ _ => rfl⟩

theorem trans (h₁ : r.Keeps touched s) (h₂ : s.Keeps touched t) : r.Keeps touched t where
  utility := h₂.utility.trans h₁.utility
  factories := h₂.factories.trans h₁.factories
  conversions := h₂.conversions.trans h₁.conversions
  explicit := h₁.explicit.trans h₂.explicit
  definitions := forall₂_trans (fun _ _ _ => .trans) h₁.definitions h₂.definitions
  anonymous := forall₂_trans (fun _ _ _ => .trans) h₁.anonymous h₂.anonymous
  untouched name hn := (h₂.untouched name hn).trans (h₁.untouched name hn)

theorem imp {touched' : String → Prop} (h : r.Keeps touched s)
    (ht : ∀ name, touched name → touched' name) : r.Keeps touched' s :=
  { h with untouched := fun name hn => h.untouched name (mt (ht name) hn) }

theorem of_eq (h : r.Keeps touched s) (hu : t.utility = s.utility) (hf : t.factories = s.factories)
    (hc : t.conversions = s.conversions) (he : t.explicit = s.explicit)
    (hd : t.definitions = s.definitions) (ha : t.anonymous = s.anonymous) : r.Keeps touched t where
  utility := hu.trans h.utility
  factories := hf.trans h.factories
  conversions := hc.trans h.conversions
  explicit := he ▸ h.explicit
  definitions := hd ▸ h.definitions
  anonymous := ha ▸ h.anonymous
  untouched name hn := by
    rw [← h.untouched name hn, get?, get?, hd, ha]

theorem related (h : r.Keeps touched s) : Related Definition.Keeps r s :=
  related_of_forall₂ (fun _ _ hd => hd.name) h.definitions h.anonymous

theorem utilityClass? (h : r.Keeps touched s) {u : Definition} (hu : r.utilityClass? = some u) :
    ∃ u', s.utilityClass? = some u' ∧ u.Keeps u' := by
  have hrel := find?_of_forall₂ (fun _ _ hd => hd.name) h.definitions r.utility
  rw [← Registry.utilityClass?, hu, ← h.utility, ← Registry.utilityClass?] at hrel
  revert hrel
  cases s.utilityClass? with
  | none => rintro ⟨⟩
  | some u' => rintro ⟨hkeeps⟩; exact ⟨u', rfl, hkeeps⟩

theorem nodup (h : r.Keeps touched s) (hr : r.names.Nodup) : s.names.Nodup := by
  rw [names, List.map_append] at hr ⊢
  rwa [names_of_forall₂ (fun _ _ hd => hd.name) h.definitions,
    names_of_forall₂ (fun _ _ hd => hd.name) h.anonymous]

theorem anonymous_eq (h : r.Keeps touched s) (hr : r.names.Nodup)
    (ha : ∀ a ∈ r.anonymous, ¬ touched a.name) : s.anonymous = r.anonymous := by
  have hs := h.nodup hr
  rw [← List.forall₂_eq_eq_eq]
  have hmem := (List.forall₂_and_left _ _).mpr ⟨fun a ha => ha, h.anonymous⟩
  have hmem' := (List.forall₂_and_left _ _).mpr ⟨fun a ha => ha, hmem.flip⟩
  refine hmem'.imp fun a' a hpair => ?_
  obtain ⟨ha', hmem, hkeeps⟩ := hpair
  have hget := Registry.get?_of_mem hs (List.mem_append_right _ ha')
  have hget' := h.untouched _ (hkeeps.name ▸ ha a hmem)
  rw [hget, hkeeps.name, Registry.get?_of_mem hr (List.mem_append_right _ hmem)] at hget'
  exact Option.some.inj hget'

theorem hasInterface_of_get? (h : r.Keeps touched s) {d : Definition}
    (hd : s.get? name = some d) (hk : d.kind = .interface) (hs : r.Sound) :
    r.HasInterface name := by
  obtain ⟨e, he, hkeeps⟩ := h.related.flip.exists_of_get? hd
  exact hs.hasInterface_iff.mpr ⟨e, he, hkeeps.kind.symm.trans hk⟩

theorem modify (h : r.Keeps touched s) (hn : touched name) {f : Definition → Definition}
    (hf : ∀ d ∈ s.definitions ++ s.anonymous, d.name = name → d.Keeps (f d))
    (hname : ∀ d : Definition, d.name = name → (f d).name = name) :
    r.Keeps touched (s.modify name f) := by
  obtain ⟨_, _, hd, ha⟩ := forall₂_modify (R := Definition.Keeps) .refl hf
  refine h.trans ⟨utility_modify .., factories_modify .., conversions_modify .., ?_, hd, ha,
    fun other ho => ?_⟩
  · rw [explicit_modify]
  · have hne : other ≠ name := fun he => ho (he ▸ hn)
    rw [get?_modify hname, if_neg hne]

theorem addMethod (h : r.Keeps touched s) (hr : r.names.Nodup) (hn : touched name) {m : Method}
    {u : Unit} (hadd : Resolution.addMethod name context m s = .ok u t) : r.Keeps touched t := by
  obtain ⟨d, d', hd, hd', rfl⟩ := Resolution.addMethod_eq_ok_iff.mp hadd
  have hkeeps := Definition.Keeps.addMethod hd'
  refine h.modify hn (fun e he hename => ?_) fun e _ => hkeeps.name.trans (name_of_get? hd)
  have hget := Registry.get?_of_mem (h.nodup hr) he
  rw [hename, hd] at hget
  exact Option.some.inj hget ▸ hkeeps

theorem addMethods (h : r.Keeps touched s) (hr : r.names.Nodup) (hn : touched name)
    {ms : List Method} {u : Unit} (hadd : ms.forM (Resolution.addMethod name context) s = .ok u t) :
    r.Keeps touched t :=
  Resolution.forM_induction (r.Keeps touched)
    (fun _ _ _ _ _ hs hstep => hs.addMethod hr hn hstep) h hadd

theorem addExplicit (h : r.Keeps touched s) (hr : r.names.Nodup) (hn : touched r.utility)
    {m : Method} {u : Unit} (hadd : Resolution.addExplicit m s = .ok u t) : r.Keeps touched t := by
  obtain ⟨q, hq, rfl⟩ := Resolution.addExplicit_eq_ok_iff.mp hadd
  have hkeeps := h.addMethod hr (h.utility ▸ hn) hq
  exact { hkeeps with explicit := hkeeps.explicit.trans (List.prefix_append _ _) }

end Keeps

end Registry

/-! ## Steps -/

section Steps

open Registry

variable {touched : String → Prop} {r s t : Registry} {name utility : String} {u : Unit}

theorem addUtilityImports_keeps (h : r.Keeps (· = r.utility) s) {imports : OrderedSet String}
    (hstep : addUtilityImports imports s = .ok u t) : r.Keeps (· = r.utility) t := by
  obtain rfl := Resolution.modify_eq_ok_iff.mp hstep
  exact h.modify h.utility (fun d _ _ => .of_methods_eq ⟨rfl, rfl, rfl⟩ rfl) fun _ => id

theorem gainInterface_keeps (h : r.Keeps touched s) (hr : r.names.Nodup) (hn : touched name)
    {via target : TypeExpr} {c : Conversion} {gained : List TypeExpr}
    (hstep : gainInterface name utility via target c s = .ok gained t) : r.Keeps touched t := by
  obtain ⟨paths, names, _, _, _, _, _, _, _, hadd⟩ := gainInterface_changes hstep
  have h₁ := h.modify hn (fun d _ _ => .addInterface d target) fun d hd =>
    (Definition.Keeps.addInterface d target).name.trans hd
  refine Keeps.addMethods ?_ hr hn hadd
  refine h₁.modify hn (fun d _ _ => ?_) fun _ => id
  exact (Definition.Keeps.addPaths d paths).trans (.mapInterfaces (d.addPaths paths) _)

theorem promoteMethod_keeps (h : r.Keeps r.HasInterface s) (hs : r.Sound) {m : Method}
    (hstep : promoteMethod m s = .ok u t) : r.Keeps r.HasInterface t := by
  rcases promoteMethod_cases hstep with rfl | ⟨d, receiver, member, hreceiver, _, hadd⟩
  · exact h
  · obtain ⟨hget, hk⟩ := receiverInterface?_spec hreceiver
    have hnote : r.Keeps r.HasInterface (s.recordPromotion m d.name member) :=
      h.of_eq rfl rfl rfl rfl rfl rfl
    exact hnote.addMethod hs.nodup (h.hasInterface_of_get? (name_of_get? hget ▸ hget) hk hs) hadd

theorem implementClass_keeps (h : r.Keeps touched s) (hr : r.names.Nodup) (hn : touched name)
    (hstep : implementClass name s = .ok u t) : r.Keeps touched t := by
  obtain ⟨_, _, _, _, hadd⟩ := implementClass_eq_ok hstep
  exact h.addMethods hr hn hadd

theorem selectFor_keeps (h : r.Keeps touched s) (hr : r.names.Nodup) (hn : touched name)
    {group : String × List Method} (hstep : selectFor name group s = .ok u t) :
    r.Keeps touched t := by
  rcases selectFor_cases hstep with rfl | ⟨_, _, member, explicit, _, _, _, hadd⟩
  · exact h
  · have hnote : r.Keeps touched (s.recordPromotion explicit name member) :=
      h.of_eq rfl rfl rfl rfl rfl rfl
    exact hnote.addMethod hr hn hadd

theorem documentPromotions_keeps (h : r.Keeps (fun _ => True) s) :
    r.Keeps (fun _ => True) (documentPromotions s) := by
  refine documentPromotions_induction (r.Keeps fun _ => True) (fun s signature hs => ?_) h
  refine hs.modify trivial (fun d _ _ => ?_) fun _ => id
  exact .of_comments d signature fun comment =>
    (s.promotionsOf signature).foldl withReference comment

theorem documentRules_keeps (h : r.Keeps (fun _ => True) s) :
    r.Keeps (fun _ => True) (documentRules s) :=
  h.trans ⟨rfl, rfl, rfl, List.prefix_refl _,
    forall₂_documentRules fun _ _ => .of_methods_eq ⟨rfl, rfl, rfl⟩ rfl,
    List.forall₂_same.mpr fun d _ => .refl d, fun _ hn => absurd trivial hn⟩

theorem finish_keeps (h : r.Keeps (fun _ => True) s) {settings : Settings}
    (hstep : finish settings s = .ok u t) : r.Keeps (fun _ => True) t := by
  obtain ⟨q, tests, rfl, _, rfl, _⟩ := finish_cases hstep
  exact (documentPromotions_keeps (documentRules_keeps h)).of_eq rfl rfl rfl rfl rfl rfl

end Steps

/-! ## Stages -/

/-- The names whose definitions a stage that begins with the registry may change. -/
def Stage.Touches (r : Registry) : Stage → String → Prop
  | .explicitMethods => (· = r.utility)
  | .conversionClosure => (· ∈ r.classes.map Definition.name)
  | .interfaceEnhancement => r.HasInterface
  | .implementMethods => fun name => ¬ r.HasInterface name
  | _ => fun _ => True

section Stages

variable {r r' : Registry} {settings : Settings} {units : List CompilationUnit} {u : Unit}

/-- **Every stage after the rules** leaves alone what is noted, and touches the definitions of its
names only. -/
theorem Stage.run_keeps {stage : Stage} (hs : r.Sound) (hi : stage ≠ .loadInterfaces)
    (hc : stage ≠ .loadClasses) (hp : stage ≠ .productionRules)
    (h : stage.run settings units r = .ok u r') : r.Keeps (stage.Touches r) r' := by
  refine Stage.run_preserves ?_ (.refl _ r) h
  cases stage with
  | loadInterfaces => exact absurd rfl hi
  | loadClasses => exact absurd rfl hc
  | productionRules => exact absurd rfl hp
  | explicitMethods =>
    refine fun unit _ => ⟨.refl fun s _ t hk h => addUtilityImports_keeps hk h, fun m _ _ => ?_⟩
    exact .refl fun s _ t hk h => hk.addExplicit hs.nodup rfl h
  | conversionClosure =>
    refine fun d hd _ via target c _ => .refl fun s _ t hk h => ?_
    exact gainInterface_keeps hk hs.nodup (List.mem_map.mpr ⟨d, hd, rfl⟩) h
  | interfaceEnhancement => exact fun m _ => .refl fun s _ t hk h => promoteMethod_keeps hk hs h
  | implementMethods =>
    refine fun sorted hsorted name hname => .refl fun s _ t hk h => ?_
    obtain ⟨kind, hkind, hname⟩ := exists_hasKind_of_settled hs hsorted hname
    exact implementClass_keeps hk hs.nodup (hname.not_hasInterface hs hkind) h
  | ambiguityResolution =>
    exact fun name _ group _ => .refl fun s _ t hk h => selectFor_keeps hk hs.nodup trivial h
  | finalize => exact .refl fun s _ t hk h => finish_keeps hk h

theorem Stage.forM_run_keeps (hd : DeclaredMethods units) {stages : List Stage} (hs : r.Sound)
    (hstages : ∀ stage ∈ stages, stage ≠ .loadInterfaces ∧ stage ≠ .loadClasses ∧
      stage ≠ .productionRules)
    (h : stages.forM (Stage.run settings units) r = .ok u r') : r.Keeps (fun _ => True) r' := by
  refine (Resolution.forM_induction (fun s => s.Sound ∧ r.Keeps (fun _ => True) s)
    (fun stage hmem s t u hrs hstep => ?_) ⟨hs, .refl _ r⟩ h).2
  obtain ⟨hi, hc, hp⟩ := hstages stage hmem
  exact ⟨hrs.1.evolves (stage.run_evolves hd hi hc hrs.1 hstep),
    hrs.2.trans ((stage.run_keeps hrs.1 hi hc hp hstep).imp fun _ _ => trivial)⟩

end Stages

end FluentGrammar
