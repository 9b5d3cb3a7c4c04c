import FluentGrammar.Proofs.StoredMethods

/-!
# Evolution of the registry

Once interfaces and classes are loaded, no step takes a definition away or changes its name, kind
and superclass. Definitions gain methods, classes gain interfaces, and anonymous classes are added.
This is said once, as a relation between registries, and every later step stays within it; so all
that it keeps holds at the end.

* `Registry.Sound`: names differ, methods are stored properly, the utility class is as it was made.
* `Registry.Grounded`: parents of interfaces and of anonymous classes are interfaces, and
  superclasses are no anonymous classes.
* `Registry.Evolves`: what steps after loading can do.
* **`Registry.Sound.evolves`**, **`Registry.Grounded.evolves`**: both are kept.
* `forM_evolves`: what every step for a member of a list keeps.
-/

namespace FluentGrammar

theorem forall₂_trans {α : Type} {R : α → α → Prop} (hR : ∀ a b c, R a b → R b c → R a c)
    {as bs cs : List α} (h₁ : List.Forall₂ R as bs) (h₂ : List.Forall₂ R bs cs) :
    List.Forall₂ R as cs := by
  induction h₁ generalizing cs with
  | nil => exact h₂
  | cons hab _ ih =>
    obtain ⟨c, cs, hbc, hcs, rfl⟩ := List.forall₂_cons_left_iff.mp h₂
    exact .cons (hR _ _ _ hab hbc) (ih hcs)

/-! ## Definitions -/

/-- What is kept of a definition. Only classes other than the utility class change their
interfaces. -/
structure Definition.Evolves (utility : String) (d d' : Definition) : Prop where
  name : d'.name = d.name
  typeParams : d'.typeParams = d.typeParams
  kind : d'.kind = d.kind
  superclass? : d'.superclass? = d.superclass?
  shape : d.kind ≠ .namedClass ∨ d.name = utility → d'.shape = d.shape
  wellFormed : d.WellFormed → d'.WellFormed
  static : d.name = utility → (∀ m ∈ d.methods.values, m.isStatic = true) →
    ∀ m ∈ d'.methods.values, m.isStatic = true

namespace Definition.Evolves

variable {utility : String} {d d' d'' : Definition} {P : Method → Prop}

theorem trans (h₁ : d.Evolves utility d') (h₂ : d'.Evolves utility d'') :
    d.Evolves utility d'' where
  name := h₂.name.trans h₁.name
  typeParams := h₂.typeParams.trans h₁.typeParams
  kind := h₂.kind.trans h₁.kind
  superclass? := h₂.superclass?.trans h₁.superclass?
  shape h := (h₂.shape (by rwa [h₁.kind, h₁.name])).trans (h₁.shape h)
  wellFormed h := h₂.wellFormed (h₁.wellFormed h)
  static hn h := h₂.static (h₁.name.trans hn) (h₁.static hn h)

theorem of_sameFrame (hf : d.SameFrame d') (hm : d'.methods = d.methods) :
    d.Evolves utility d' where
  name := hf.name
  typeParams := hf.typeParams
  kind := hf.kind
  superclass? := hf.superclass?
  shape _ := hf.shape
  wellFormed h := h.congr hf hm
  static _ h := hm ▸ h

theorem refl (utility : String) (d : Definition) : d.Evolves utility d :=
  of_sameFrame (.refl d) rfl

theorem of_adds (h : d.Adds P d') (hp : d.name = utility → ∀ m, P m → m.isStatic = true) :
    d.Evolves utility d' where
  name := h.frame.name
  typeParams := h.frame.typeParams
  kind := h.frame.kind
  superclass? := h.frame.superclass?
  shape _ := h.frame.shape
  wellFormed := h.wellFormed
  static hn hstatic m hm := by
    obtain ⟨more, hmore, hall⟩ := h.methods
    rw [Table.values, hmore, List.map_append, List.map_map, List.mem_append] at hm
    rcases hm with hm | hm
    · exact hstatic m hm
    · obtain ⟨n, hn', rfl⟩ := List.mem_map.mp hm
      exact hp hn n (hall n hn').2

theorem of_shape (hn : d.name ≠ utility) {shape : Shape} (h : shape = d.shape ∨
    ∃ superclass interfaces paths interfaces' paths',
      d.shape = .namedClass superclass interfaces paths ∧
      shape = .namedClass superclass interfaces' paths') :
    d.Evolves utility { d with shape := shape } := by
  rcases h with rfl | ⟨superclass, interfaces, paths, interfaces', paths', hd, rfl⟩
  · exact .refl utility d
  · have hk : ({ d with shape := .namedClass superclass interfaces' paths' } : Definition).kind =
        d.kind := by
      rw [Definition.kind, Definition.kind, hd]
    have hown : ({ d with shape := .namedClass superclass interfaces' paths' } : Definition).owner =
        d.owner := by
      rw [Definition.owner, hk, Definition.owner]
    refine ⟨rfl, rfl, hk, ?_, ?_, fun h e he => hown ▸ h e he, fun h => absurd h hn⟩
    · rw [Definition.superclass?, Definition.superclass?, hd]
    · rintro (h | h)
      · exact absurd (by rw [Definition.kind, hd]) h
      · exact absurd h hn

theorem mapInterfaces (hn : d.name ≠ utility) (f : List TypeExpr → List TypeExpr) :
    d.Evolves utility (d.mapInterfaces f) := by
  refine of_shape hn ?_
  cases d.shape with
  | namedClass superclass interfaces paths => exact .inr ⟨_, _, _, _, _, rfl, rfl⟩
  | interface | anonymousClass => exact .inl rfl

theorem addInterface (hn : d.name ≠ utility) (t : TypeExpr) :
    d.Evolves utility (d.addInterface t) := by
  unfold Definition.addInterface
  split
  · exact mapInterfaces hn _
  · exact .refl utility d

theorem addPaths (hn : d.name ≠ utility) (paths : List ConversionPath) :
    d.Evolves utility (d.addPaths paths) := by
  refine of_shape hn ?_
  cases d.shape with
  | namedClass superclass interfaces paths => exact .inr ⟨_, _, _, _, _, rfl, rfl⟩
  | interface | anonymousClass => exact .inl rfl

end Definition.Evolves

/-! ## Registries -/

namespace Registry

variable {r r' r'' : Registry} {name context : String} {d : Definition} {m : Method}

/-- An interface of the given name is registered. -/
def HasInterface (r : Registry) (name : String) : Prop :=
  ∃ d ∈ r.interfaces, d.name = name

instance (r : Registry) : DecidablePred r.HasInterface := fun name =>
  inferInstanceAs (Decidable (∃ d ∈ r.interfaces, d.name = name))

/-- Names differ, methods are stored properly, and the utility class has neither parents nor methods
that need a receiver. -/
structure Sound (r : Registry) : Prop where
  nodup : r.names.Nodup
  wellFormed : ∀ d ∈ r.definitions ++ r.anonymous, d.WellFormed
  named : ∀ d ∈ r.definitions, d.kind ≠ .anonymousClass
  unnamed : ∀ d ∈ r.anonymous, d.kind = .anonymousClass
  tests : ∀ d ∈ r.tests, d.WellFormed
  utility : ∃ u ∈ r.definitions, u.name = r.utility ∧ u.shape = .namedClass none [] ∅ ∧
    ∀ m ∈ u.methods.values, m.isStatic = true

/-- Interfaces and anonymous classes inherit from interfaces only, and superclasses are no anonymous
classes. -/
structure Grounded (r : Registry) : Prop where
  interfaces : ∀ d ∈ r.interfaces, ∀ t ∈ d.supertypes, r.HasInterface t.name
  superclasses : ∀ d ∈ r.definitions, ∀ t, d.superclass? = some t →
    t.name ∈ r.definitions.map Definition.name
  anonymous : ∀ d ∈ r.anonymous, ∀ t ∈ d.supertypes, r.HasInterface t.name

theorem find?_of_mem {ds : List Definition} (hnodup : (ds.map Definition.name).Nodup) (hd : d ∈ ds) :
    ds.find? (·.name = d.name) = some d := by
  induction ds with
  | nil => cases hd
  | cons e es ih =>
    obtain ⟨hnot, hes⟩ := List.nodup_cons.mp hnodup
    rcases List.mem_cons.mp hd with rfl | hd
    · simp
    · have hne : e.name ≠ d.name := fun he => hnot (he ▸ List.mem_map.mpr ⟨d, hd, rfl⟩)
      rw [List.find?_cons_of_neg (by simpa using hne)]
      exact ih hes hd

theorem get?_of_mem (hnodup : r.names.Nodup) (hd : d ∈ r.definitions ++ r.anonymous) :
    r.get? d.name = some d :=
  find?_of_mem hnodup hd

theorem Sound.get?_of_mem (h : r.Sound) (hd : d ∈ r.definitions ++ r.anonymous) :
    r.get? d.name = some d :=
  Registry.get?_of_mem h.nodup hd

theorem Sound.eq_of_name (h : r.Sound) {e : Definition} (hd : d ∈ r.definitions ++ r.anonymous)
    (he : e ∈ r.definitions ++ r.anonymous) (hn : d.name = e.name) : d = e := by
  have := h.get?_of_mem hd
  rw [hn, h.get?_of_mem he] at this
  exact (Option.some.inj this).symm

theorem Sound.nodup_classes (h : r.Sound) : (r.classes.map Definition.name).Nodup := by
  have hsub : (r.classes.map Definition.name).Sublist r.names :=
    (List.filter_sublist.trans (List.sublist_append_left _ _)).map _
  exact h.nodup.sublist hsub

theorem mem_of_get? (h : r.get? name = some d) : d ∈ r.definitions ++ r.anonymous :=
  List.mem_of_find?_eq_some h

theorem Sound.utility_spec (hs : r.Sound) (hd : r.get? r.utility = some d) :
    d.shape = .namedClass none [] ∅ ∧ ∀ m ∈ d.methods.values, m.isStatic = true := by
  obtain ⟨u, hu, hname, hspec⟩ := hs.utility
  have hget := hs.get?_of_mem (List.mem_append_left r.anonymous hu)
  rw [hname, hd] at hget
  rw [Option.some.inj hget]
  exact hspec

theorem Sound.supertypes_utility (hs : r.Sound) (hd : r.get? r.utility = some d) :
    d.supertypes = [] := by
  rw [Definition.supertypes, (hs.utility_spec hd).1]
  rfl

/-- What steps after loading can do to the registry. -/
structure Evolves (r r' : Registry) : Prop where
  utility : r'.utility = r.utility
  definitions : List.Forall₂ (Definition.Evolves r.utility) r.definitions r'.definitions
  anonymous : ∀ d ∈ r'.anonymous, (∃ e ∈ r.anonymous, e.Evolves r.utility d) ∨
    (d.WellFormed ∧ d.kind = .anonymousClass ∧ ∀ t ∈ d.supertypes, r'.HasInterface t.name)
  kept : ∀ d ∈ r.anonymous, ∃ d' ∈ r'.anonymous, d.Evolves r.utility d'
  tests : ∀ d ∈ r'.tests, d ∈ r.tests ∨ d.WellFormed
  nodup : r.names.Nodup → r'.names.Nodup

theorem Evolves.hasInterface (h : r.Evolves r') (hn : r.HasInterface name) :
    r'.HasInterface name := by
  obtain ⟨d, hd, rfl⟩ := hn
  obtain ⟨hd, hi⟩ := List.mem_filter.mp hd
  obtain ⟨d', hd', he⟩ := exists_right_of_forall₂ h.definitions d hd
  refine ⟨d', List.mem_filter.mpr ⟨hd', ?_⟩, he.name⟩
  rw [Definition.isInterface, he.kind]
  exact hi

theorem Evolves.trans (h₁ : r.Evolves r') (h₂ : r'.Evolves r'') : r.Evolves r'' where
  utility := h₂.utility.trans h₁.utility
  definitions := forall₂_trans (fun _ _ _ => .trans) h₁.definitions (h₁.utility ▸ h₂.definitions)
  anonymous d hd := by
    rcases h₂.anonymous d hd with ⟨e, he, hed⟩ | hnew
    · rw [h₁.utility] at hed
      rcases h₁.anonymous e he with ⟨f, hf, hfe⟩ | ⟨hwf, hk, hp⟩
      · exact .inl ⟨f, hf, hfe.trans hed⟩
      · refine .inr ⟨hed.wellFormed hwf, hed.kind.trans hk, fun t ht => ?_⟩
        have hshape := hed.shape (.inl (by simp [hk]))
        rw [Definition.supertypes, hshape] at ht
        exact h₂.hasInterface (hp t ht)
    · exact .inr hnew
  kept d hd := by
    obtain ⟨e, he, hde⟩ := h₁.kept d hd
    obtain ⟨f, hf, hef⟩ := h₂.kept e he
    exact ⟨f, hf, hde.trans (h₁.utility ▸ hef)⟩
  tests d hd := (h₂.tests d hd).elim (h₁.tests d) .inr
  nodup h := h₂.nodup (h₁.nodup h)

theorem Sound.evolves (hs : r.Sound) (h : r.Evolves r') : r'.Sound where
  nodup := h.nodup hs.nodup
  wellFormed d hd := by
    rcases List.mem_append.mp hd with hd | hd
    · obtain ⟨e, he, hed⟩ := exists_left_of_forall₂ h.definitions d hd
      exact hed.wellFormed (hs.wellFormed e (List.mem_append_left _ he))
    · rcases h.anonymous d hd with ⟨e, he, hed⟩ | ⟨hwf, _⟩
      · exact hed.wellFormed (hs.wellFormed e (List.mem_append_right _ he))
      · exact hwf
  named d hd := by
    obtain ⟨e, he, hed⟩ := exists_left_of_forall₂ h.definitions d hd
    exact hed.kind ▸ hs.named e he
  unnamed d hd := by
    rcases h.anonymous d hd with ⟨e, he, hed⟩ | ⟨_, hk, _⟩
    · exact hed.kind.trans (hs.unnamed e he)
    · exact hk
  tests d hd := (h.tests d hd).elim (hs.tests d) id
  utility := by
    obtain ⟨u, hu, hname, hshape, hstatic⟩ := hs.utility
    obtain ⟨u', hu', he⟩ := exists_right_of_forall₂ h.definitions u hu
    exact ⟨u', hu', by rw [he.name, hname, h.utility], (he.shape (.inr hname)).trans hshape,
      he.static hname hstatic⟩

theorem Grounded.evolves (hs : r.Sound) (hg : r.Grounded) (h : r.Evolves r') : r'.Grounded where
  interfaces d hd t ht := by
    obtain ⟨hd, hi⟩ := List.mem_filter.mp hd
    obtain ⟨e, he, hed⟩ := exists_left_of_forall₂ h.definitions d hd
    have hkind : e.kind = .interface := by
      rw [← hed.kind]
      simpa [Definition.isInterface] using hi
    have hshape := hed.shape (.inl (by simp [hkind]))
    rw [Definition.supertypes, hshape] at ht
    exact h.hasInterface (hg.interfaces e
      (List.mem_filter.mpr ⟨he, by simp [Definition.isInterface, hkind]⟩) t ht)
  superclasses d hd t ht := by
    obtain ⟨e, he, hed⟩ := exists_left_of_forall₂ h.definitions d hd
    obtain ⟨f, hf, hname⟩ := List.mem_map.mp (hg.superclasses e he t (hed.superclass? ▸ ht))
    obtain ⟨f', hf', hff⟩ := exists_right_of_forall₂ h.definitions f hf
    exact List.mem_map.mpr ⟨f', hf', hff.name.trans hname⟩
  anonymous d hd t ht := by
    rcases h.anonymous d hd with ⟨e, he, hed⟩ | ⟨_, _, hp⟩
    · have hshape := hed.shape (.inl (by simp [hs.unnamed e he]))
      rw [Definition.supertypes, hshape] at ht
      exact h.hasInterface (hg.anonymous e he t ht)
    · exact hp t ht

theorem Evolves.exists_of_get? (h : r.Evolves r') (hs : r.Sound) (hd : r.get? name = some d) :
    ∃ d', r'.get? name = some d' ∧ d.Evolves r.utility d' := by
  have hname := name_of_get? hd
  rcases List.mem_append.mp (mem_of_get? hd) with hmem | hmem
  · obtain ⟨d', hd', he⟩ := exists_right_of_forall₂ h.definitions d hmem
    have hget := (hs.evolves h).get?_of_mem (List.mem_append_left _ hd')
    exact ⟨d', by rwa [he.name, hname] at hget, he⟩
  · obtain ⟨d', hd', he⟩ := h.kept d hmem
    have hget := (hs.evolves h).get?_of_mem (List.mem_append_right _ hd')
    exact ⟨d', by rwa [he.name, hname] at hget, he⟩

/-! ## Single changes -/

theorem evolves_of_eq (hu : r'.utility = r.utility) (hd : r'.definitions = r.definitions)
    (ha : r'.anonymous = r.anonymous) (ht : r'.tests = r.tests) : r.Evolves r' where
  utility := hu
  definitions := by
    rw [hd, List.forall₂_same]
    exact fun d _ => .refl _ d
  anonymous d h := .inl ⟨d, ha ▸ h, .refl _ d⟩
  kept d h := ⟨d, ha.symm ▸ h, .refl _ d⟩
  tests d h := .inl (ht ▸ h)
  nodup h := by rwa [names, hd, ha]

theorem Evolves.refl (r : Registry) : r.Evolves r :=
  evolves_of_eq rfl rfl rfl rfl

/-- A change to the definition of one name relates all definitions before and after. -/
theorem forall₂_modify {R : Definition → Definition → Prop} {f : Definition → Definition}
    (hrefl : ∀ d, R d d) (hf : ∀ d ∈ r.definitions ++ r.anonymous, d.name = name → R d (f d)) :
    (r.modify name f).utility = r.utility ∧ (r.modify name f).tests = r.tests ∧
      List.Forall₂ R r.definitions (r.modify name f).definitions ∧
      List.Forall₂ R r.anonymous (r.modify name f).anonymous := by
  have hmap : ∀ ds, (∀ d ∈ ds, d ∈ r.definitions ++ r.anonymous) →
      List.Forall₂ R ds (ds.map fun d => if d.name = name then f d else d) := by
    intro ds hds
    rw [List.forall₂_map_right_iff, List.forall₂_same]
    intro d hd
    by_cases hn : d.name = name
    · simpa [hn] using hf d (hds d hd) hn
    · simpa [hn] using hrefl d
  have hsame : ∀ ds, List.Forall₂ R ds ds := fun ds => List.forall₂_same.mpr fun d _ => hrefl d
  unfold modify
  dsimp only
  split
  · exact ⟨rfl, rfl, hmap _ fun d hd => List.mem_append_left _ hd, hsame _⟩
  · exact ⟨rfl, rfl, hsame _, hmap _ fun d hd => List.mem_append_right _ hd⟩

theorem names_of_forall₂ {R : Definition → Definition → Prop}
    (hR : ∀ d d', R d d' → d'.name = d.name) {ds ds' : List Definition}
    (h : List.Forall₂ R ds ds') : ds'.map Definition.name = ds.map Definition.name := by
  rw [← List.forall₂_eq_eq_eq, List.forall₂_map_left_iff, List.forall₂_map_right_iff]
  exact (h.imp fun d d' hd => hR d d' hd).flip

theorem evolves_of_forall₂ (hu : r'.utility = r.utility)
    (hd : List.Forall₂ (Definition.Evolves r.utility) r.definitions r'.definitions)
    (ha : List.Forall₂ (Definition.Evolves r.utility) r.anonymous r'.anonymous)
    (ht : r'.tests = r.tests) : r.Evolves r' where
  utility := hu
  definitions := hd
  anonymous d h := .inl (exists_left_of_forall₂ ha d h)
  kept := exists_right_of_forall₂ ha
  tests d h := .inl (ht ▸ h)
  nodup h := by
    have hnames : r'.names = r.names := by
      rw [names, names, List.map_append, List.map_append, names_of_forall₂ (fun _ _ => (·.name)) hd,
        names_of_forall₂ (fun _ _ => (·.name)) ha]
    rwa [hnames]

theorem evolves_modify {f : Definition → Definition}
    (hf : ∀ d ∈ r.definitions ++ r.anonymous, d.name = name → d.Evolves r.utility (f d)) :
    r.Evolves (r.modify name f) := by
  obtain ⟨hu, ht, hd, ha⟩ := forall₂_modify (.refl r.utility) hf
  exact evolves_of_forall₂ hu hd ha ht

theorem evolves_addMethod {u : Unit} (hs : r.Sound)
    (h : Resolution.addMethod name context m r = .ok u r')
    (hm : ∀ d, r.get? name = some d → m.Fits d.kind)
    (hstatic : name = r.utility → m.isStatic = true) : r.Evolves r' := by
  obtain ⟨d, d', hget, hadd, rfl⟩ := Resolution.addMethod_eq_ok_iff.mp h
  refine evolves_modify fun e he hname => ?_
  obtain rfl : d = e := by
    have := hs.get?_of_mem he
    rw [hname, hget] at this
    exact Option.some.inj this
  refine .of_adds (Definition.adds_of_addMethod (P := fun n => d.name = r.utility → n.isStatic = true)
    hadd (hm d hget) fun hu => ?_) fun hn n hp => hp hn
  exact hstatic (hname.symm.trans hu)

theorem evolves_addUtilityMethod {u : Unit} (hs : r.Sound)
    (h : Resolution.addUtilityMethod m r = .ok u r') (hd : m.state = .declared)
    (hstatic : m.isStatic = true) : r.Evolves r' :=
  evolves_addMethod hs h (fun _ _ => Method.fits_of_declared hd) fun _ => hstatic

theorem evolves_addExplicit {u : Unit} (hs : r.Sound) (h : Resolution.addExplicit m r = .ok u r')
    (hd : m.state = .declared) (hstatic : m.isStatic = true) : r.Evolves r' := by
  obtain ⟨s, hadd, rfl⟩ := Resolution.addExplicit_eq_ok_iff.mp h
  exact (evolves_addUtilityMethod hs hadd hd hstatic).trans (evolves_of_eq rfl rfl rfl rfl)

theorem evolves_addAnonymous {factory : Method} {u : Unit}
    (h : Resolution.addAnonymous factory d r = .ok u r') (hwf : d.WellFormed)
    (hk : d.kind = .anonymousClass)
    (hp : ∀ t ∈ d.supertypes, r.HasInterface t.name) : r.Evolves r' := by
  obtain ⟨hnone, rfl⟩ := Resolution.addAnonymous_eq_ok_iff.mp h
  refine ⟨rfl, List.forall₂_same.mpr fun d _ => .refl _ d, fun e he => ?_,
    fun e he => ⟨e, List.mem_append_left _ he, .refl _ e⟩, fun _ => .inl, fun hnodup => ?_⟩
  · rcases List.mem_append.mp he with he | he
    · exact .inl ⟨e, he, .refl _ e⟩
    · obtain rfl := List.mem_singleton.mp he
      exact .inr ⟨hwf, hk, hp⟩
  · have hnew : d.name ∉ r.names := by
      intro hm
      obtain ⟨e, he, hname⟩ := List.mem_map.mp hm
      exact List.find?_eq_none.mp hnone e he (by simpa using hname)
    rw [names, ← List.append_assoc, List.map_append, List.nodup_append]
    refine ⟨hnodup, by simp, fun a ha b hb hab => hnew ?_⟩
    obtain rfl : b = d.name := by simpa using hb
    exact hab ▸ ha

theorem evolves_addTests {tests : List Definition} (ht : ∀ d ∈ tests, d.WellFormed) :
    r.Evolves { r with tests := r.tests ++ tests } := by
  refine ⟨rfl, List.forall₂_same.mpr fun d _ => .refl _ d, fun e he => .inl ⟨e, he, .refl _ e⟩,
    fun e he => ⟨e, he, .refl _ e⟩, fun e he => ?_, id⟩
  exact (List.mem_append.mp he).imp id (ht e)

end Registry

theorem forM_evolves {r r' : Registry} {α ε : Type} {f : α → Resolution ε PUnit} {as : List α}
    {u : PUnit}
    (step : ∀ a ∈ as, ∀ s t u, Registry.Sound s → r.Evolves s → f a s = .ok u t → s.Evolves t)
    (hs : r.Sound) (h : as.forM f r = .ok u r') : r.Evolves r' :=
  Resolution.forM_induction r.Evolves
    (fun a ha s t u hrs hst => hrs.trans (step a ha s t u (hs.evolves hrs) hrs hst)) (.refl r) h

/-! ## Classes -/

namespace Registry

variable {r r' : Registry} {name context : String} {kind : Kind} {d : Definition}

/-- A definition of the given kind, other than the utility class. -/
def HasKind (r : Registry) (kind : Kind) (name : String) : Prop :=
  name ≠ r.utility ∧ ∃ d, r.get? name = some d ∧ d.kind = kind

theorem HasKind.evolves (h : r.HasKind kind name) (hs : r.Sound) (he : r.Evolves r') :
    r'.HasKind kind name := by
  obtain ⟨hn, d, hd, hk⟩ := h
  obtain ⟨d', hd', hdd⟩ := he.exists_of_get? hs hd
  exact ⟨he.utility ▸ hn, d', hd', hdd.kind.trans hk⟩

theorem HasKind.kind_eq (h : r.HasKind kind name) (hd : r.get? name = some d) : d.kind = kind := by
  obtain ⟨_, e, he, hk⟩ := h
  cases he.symm.trans hd
  exact hk

theorem Sound.hasKind_of_mem_classes (hs : r.Sound) (hd : d ∈ r.classes) (hn : d.name ≠ r.utility) :
    r.HasKind .namedClass d.name := by
  obtain ⟨hd, hk⟩ := List.mem_filter.mp hd
  exact ⟨hn, d, hs.get?_of_mem (List.mem_append_left _ hd), by
    simpa [Definition.isNamedClass] using hk⟩

theorem Sound.ne_utility_of_kind (hs : r.Sound) (hd : d ∈ r.definitions ++ r.anonymous)
    (hk : d.kind ≠ .namedClass) : d.name ≠ r.utility := by
  intro hn
  have hshape := (hs.utility_spec (hn ▸ hs.get?_of_mem hd)).1
  refine hk ?_
  rw [Definition.kind, hshape]

theorem Sound.hasKind_of_mem_anonymous (hs : r.Sound) (hd : d ∈ r.anonymous) :
    r.HasKind .anonymousClass d.name := by
  have hk := hs.unnamed d hd
  have hmem := List.mem_append_right r.definitions hd
  exact ⟨hs.ne_utility_of_kind hmem (by simp [hk]), d, hs.get?_of_mem hmem, hk⟩

theorem evolves_addMethods (hs : r.Sound) (hc : r.HasKind kind name) {ms : List Method}
    (hm : ∀ m ∈ ms, m.Fits kind) {u : Unit}
    (h : ms.forM (Resolution.addMethod name context) r = .ok u r') : r.Evolves r' := by
  refine forM_evolves (fun m hmem s t u hs' hrs hstep => ?_) hs h
  have hc' := hc.evolves hs hrs
  refine evolves_addMethod hs' hstep (fun d hd => ?_) fun he => absurd he hc'.1
  rw [hc'.kind_eq hd]
  exact hm m hmem

end Registry

end FluentGrammar
