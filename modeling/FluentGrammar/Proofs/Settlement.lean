import FluentGrammar.Proofs.Loading

/-!
# Settlement of inherited methods

When all classes have been handled, none of them inherits a method that is still open. A class is
handled after its superclass, so what it inherits does not change any more: its stubs stay, and
those that were open are covered by methods of its own.

* `Registry.Settled`: what a definition inherits and leaves open is covered by its own methods.
* `Registry.Settled.isOpen_eq_false`: the table of a settled definition has no open method.
* `Registry.Ordered`: classes in an order in which each has all it inherits from before it.
* `implementClass_progress`: one more class is settled, and those before it stay so.
* **`implementMethods_settled`**: all classes are settled after the stage.
-/

namespace FluentGrammar

/-! ## Open methods -/

namespace Registry

variable {r r' : Registry} {d d' : Definition} {t : Table Method} {m : Method}

/-- A definition can inherit from all its parents, and it has methods of its own for all that they
leave open. -/
def Settled (r : Registry) (d : Definition) : Prop :=
  ∃ lists, List.Forall₂ (r.InheritsFrom d) d.supertypes lists ∧ ∀ key m,
    lists.flatten.find? (·.signature = key) = some m → m.isOpen = true → key ∈ d.methods.keys

/-- Own methods come first, then the first stub of each signature. -/
theorem exists_stubs_get? (h : r.allMethods d = .ok t) :
    ∃ lists, List.Forall₂ (r.InheritsFrom d) d.supertypes lists ∧ ∀ key,
      t.get? key = (d.methods.get? key).or (lists.flatten.find? (·.signature = key)) := by
  obtain ⟨lists, hlists, hmerge⟩ := exists_stubs_of_allMethods h
  exact ⟨lists, hlists, get?_of_foldlM_merge hmerge⟩

theorem get?_of_mem_allMethods (hd : d.WellFormed) (h : r.allMethods d = .ok t)
    (hm : m ∈ t.values) : t.get? m.signature = some m := by
  obtain ⟨e, he, rfl⟩ := List.mem_map.mp hm
  rw [← key_eq_signature (fun e he => (hd e he).1) h e he, Table.get?_eq_some_iff]
  exact he

theorem get?_methods_of_isOpen (hd : d.WellFormed) (h : r.allMethods d = .ok t) (hm : m ∈ t.values)
    (ho : m.isOpen = true) : d.methods.get? m.signature = none := by
  obtain ⟨lists, _, hget⟩ := exists_stubs_get? h
  cases hown : d.methods.get? m.signature with
  | none => rfl
  | some n =>
    have hn := get?_of_mem_allMethods hd h hm
    rw [hget, hown, Option.some_or, Option.some.injEq] at hn
    rw [← hn, (hd.storedOn (mem_values_of_get? hown)).isOpen_eq_false] at ho
    cases ho

theorem Settled.isOpen_eq_false (hs : r.Settled d) (hd : d.WellFormed) (h : r.allMethods d = .ok t)
    (hm : m ∈ t.values) : m.isOpen = false := by
  by_contra ho
  rw [Bool.not_eq_false] at ho
  obtain ⟨lists, hlists, hcovered⟩ := hs
  obtain ⟨lists', hlists', hget⟩ := exists_stubs_get? h
  obtain rfl := inheritsFrom_unique.forall₂ hlists' hlists
  have hown := get?_methods_of_isOpen hd h hm ho
  have hfind := get?_of_mem_allMethods hd h hm
  rw [hget, hown, Option.none_or] at hfind
  exact Table.get?_eq_none_iff.mp hown (hcovered m.signature m hfind ho)

/-- A definition stays settled if it inherits the same as before and loses no method. -/
theorem Settled.of_agreesOn {known : String → Prop} (ha : AgreesOn known r r')
    (hf : d.SameFrame d') (hp : ∀ parent ∈ d.supertypes, known parent.name)
    (hkeys : ∀ key ∈ d.methods.keys, key ∈ d'.methods.keys) (h : r.Settled d) : r'.Settled d' := by
  obtain ⟨lists, hlists, hcovered⟩ := h
  rw [Settled, hf.supertypes]
  exact ⟨lists, ha.inheritsFrom hf hp hlists, fun key m hfind ho =>
    hkeys key (hcovered key m hfind ho)⟩

/-- **A definition with methods for all that was open is settled**, if it inherits the same as
before. -/
theorem settled_of_covered {known : String → Prop} (ha : AgreesOn known r r')
    (hf : d.SameFrame d') (hp : ∀ parent ∈ d.supertypes, known parent.name)
    (hkeys : ∀ key ∈ d.methods.keys, key ∈ d'.methods.keys) (h : r.allMethods d = .ok t)
    (hcovered : ∀ m ∈ t.values, m.isOpen = true → m.signature ∈ d'.methods.keys) :
    r'.Settled d' := by
  obtain ⟨lists, hlists, hget⟩ := exists_stubs_get? h
  rw [Settled, hf.supertypes]
  refine ⟨lists, ha.inheritsFrom hf hp hlists, fun key m hfind ho => ?_⟩
  have hkey : m.signature = key := by simpa using List.find?_some hfind
  cases hown : d.methods.get? key with
  | none =>
    have hm : t.get? key = some m := by rw [hget, hown, Option.none_or, hfind]
    exact hkey ▸ hcovered m (mem_values_of_get? hm) ho
  | some n => exact hkeys key (mem_keys_of_get? hown)

end Registry

/-! ## One class -/

section OneClass

variable {r r' : Registry} {name context : String} {d : Definition}

theorem forM_addMethod_spec {ms : List Method} (hd : r.get? name = some d) {u : Unit}
    (h : ms.forM (Resolution.addMethod name context) r = .ok u r') :
    ∃ d', d.addMethods ms = .ok d' ∧ r'.get? name = some d' ∧ Registry.AgreesOff name r r' := by
  induction ms generalizing r d with
  | nil =>
    obtain rfl := Resolution.forM_nil_eq_ok_iff.mp h
    exact ⟨d, rfl, hd, .refl name r⟩
  | cons m ms ih =>
    obtain ⟨s, hstep, h⟩ := Resolution.forM_cons_eq_ok_iff.mp h
    obtain ⟨e, e', he, hadd, rfl⟩ := Resolution.addMethod_eq_ok_iff.mp hstep
    cases hd.symm.trans he
    have hname : ∀ f : Definition, f.name = name → e'.name = name := fun _ _ =>
      (Definition.sameFrame_of_addMethod hadd).name.trans (Registry.name_of_get? hd)
    have hget : (r.modify name fun _ => e').get? name = some e' := by
      rw [Registry.get?_modify hname, if_pos rfl, hd]
      rfl
    obtain ⟨d', hadds, hd', hoff⟩ := ih hget h
    exact ⟨d', Except.bind_eq_ok_iff.mpr ⟨e', hadd, hadds⟩, hd',
      (Registry.agreesOff_modify hname).trans hoff⟩

theorem exists_forM_addMethod (context : String) {ms : List Method} {d' : Definition}
    (hd : r.get? name = some d) (h : d.addMethods ms = .ok d') :
    ∃ r', ms.forM (Resolution.addMethod name context) r = .ok () r' := by
  induction ms generalizing r d with
  | nil => exact ⟨r, Resolution.forM_nil_eq_ok_iff.mpr rfl⟩
  | cons m ms ih =>
    obtain ⟨e, he, h⟩ := Except.bind_eq_ok_iff.mp h
    have hname : ∀ f : Definition, f.name = name → e.name = name := fun _ _ =>
      (Definition.sameFrame_of_addMethod he).name.trans (Registry.name_of_get? hd)
    have hget : (r.modify name fun _ => e).get? name = some e := by
      rw [Registry.get?_modify hname, if_pos rfl, hd]
      rfl
    obtain ⟨r', hr'⟩ := ih hget h
    have hstep : Resolution.addMethod name context m r = .ok () (r.modify name fun _ => e) :=
      Resolution.addMethod_eq_ok_iff.mpr ⟨d, e, hd, he, rfl⟩
    exact ⟨r', Resolution.forM_cons_eq_ok_iff.mpr ⟨_, hstep, hr'⟩⟩

theorem implementClass_cases {u : Unit} (h : implementClass name r = .ok u r') :
    ∃ d d' table settled, r.get? name = some d ∧ r.allMethods d = .ok table ∧
      (table.values.filter Method.isOpen).mapM (settle d) = .ok settled ∧
      d.addMethods settled = .ok d' ∧ r'.get? name = some d' ∧ Registry.AgreesOff name r r' := by
  obtain ⟨d, settled, hd, hsettled, hadd⟩ := implementClass_eq_ok h
  obtain ⟨table, htable, hsettle⟩ := Except.bind_eq_ok_iff.mp hsettled
  obtain ⟨d', hadds, hd', hoff⟩ := forM_addMethod_spec hd hadd
  exact ⟨d, d', table, settled, hd, htable, hsettle, hadds, hd', hoff⟩

theorem signature_of_settle {m m' : Method} (h : settle d m = .ok m') (ho : m.owner = d.owner) :
    (m'.reown d.owner).signature = m.signature := by
  have hsame : m'.name = m.name ∧ m'.typeParams = m.typeParams ∧ m'.params = m.params := by
    unfold settle Method.implement Method.declareAbstract at h
    repeat' split at h
    all_goals cases h
    all_goals exact ⟨rfl, rfl, rfl⟩
  obtain ⟨hname, htp, hparams⟩ := hsame
  unfold Method.signature Method.scope
  rw [ho]
  change Method.signatureOf m'.name (m'.typeParams.names ++ d.owner.typeParams) m'.params = _
  rw [hname, htp, hparams]

/-- Settling a class covers all that was open with methods of its own. -/
theorem implementClass_spec (hs : r.Sound) {u : Unit} (h : implementClass name r = .ok u r') :
    ∃ d d' table, r.get? name = some d ∧ r.allMethods d = .ok table ∧ r'.get? name = some d' ∧
      d.SameFrame d' ∧ Registry.AgreesOff name r r' ∧
      (∀ key ∈ d.methods.keys, key ∈ d'.methods.keys) ∧
      ∀ m ∈ table.values, m.isOpen = true → m.signature ∈ d'.methods.keys := by
  obtain ⟨d, d', table, settled, hd, htable, hsettle, hadds, hd', hoff⟩ := implementClass_cases h
  obtain ⟨hf, hentries⟩ := Definition.addMethods_spec hadds
  have hkeys : d'.methods.keys =
      d.methods.keys ++ settled.map fun m => (m.reown d.owner).signature := by
    rw [Table.keys, hentries, Table.keys]
    simp [Function.comp_def]
  refine ⟨d, d', table, hd, htable, hd', hf, hoff, fun key hkey => ?_, fun m hm ho => ?_⟩
  · exact hkeys ▸ List.mem_append_left _ hkey
  · obtain ⟨m', hm', hm''⟩ := exists_right_of_forall₂ (Except.mapM_eq_ok_iff.mp hsettle) m
      (List.mem_filter.mpr ⟨hm, ho⟩)
    have howner : m.owner = d.owner := by
      rcases Registry.isStub_of_mem_allMethods (hs.wellFormed d (Registry.mem_of_get? hd)) htable hm
        with hstored | ⟨_, hstub⟩
      · exact hstored.owner_eq
      · exact hstub.owner
    rw [hkeys, ← signature_of_settle hm'' howner]
    exact List.mem_append_right _ (List.mem_map.mpr ⟨m', hm', rfl⟩)

theorem implementClass_sameFrame {u : Unit} (h : implementClass name r = .ok u r') :
    Registry.SameFrame r r' := by
  obtain ⟨d, d', _, _, hd, _, _, hadds, hd', hoff⟩ := implementClass_cases h
  exact .of_agreesOff .refl hoff hd hd' (Definition.addMethods_spec hadds).1

end OneClass

/-! ## All classes -/

namespace Registry

variable {r s t : Registry} {order done rest : List String} {name : String} {kind : Kind}

/-- Classes in an order in which each comes after those it inherits from, apart from interfaces and
the utility class. -/
structure Ordered (r : Registry) (order : List String) : Prop where
  nodup : order.Nodup
  classes : ∀ name ∈ order, ∃ kind, kind ≠ .interface ∧ r.HasKind kind name
  parents : ∀ before name after, order = before ++ name :: after →
    ∀ d, r.get? name = some d → ∀ p ∈ d.supertypes,
      p.name = name ∨ p.name ∈ before ∨ r.HasInterface p.name ∨ p.name = r.utility

theorem Sound.hasInterface_iff (hs : r.Sound) :
    r.HasInterface name ↔ ∃ d, r.get? name = some d ∧ d.kind = .interface := by
  constructor
  · rintro ⟨d, hd, rfl⟩
    obtain ⟨hmem, hk⟩ := List.mem_filter.mp hd
    rw [Definition.isInterface, decide_eq_true_eq] at hk
    exact ⟨d, hs.get?_of_mem (List.mem_append_left _ hmem), hk⟩
  · rintro ⟨d, hd, hk⟩
    refine ⟨d, List.mem_filter.mpr ⟨?_, by simp [Definition.isInterface, hk]⟩, name_of_get? hd⟩
    refine (List.mem_append.mp (mem_of_get? hd)).resolve_right fun hmem => ?_
    rw [hs.unnamed d hmem] at hk
    cases hk

theorem HasKind.not_hasInterface (hs : r.Sound) (h : r.HasKind kind name) (hk : kind ≠ .interface) :
    ¬ r.HasInterface name := by
  intro hi
  obtain ⟨d, hd, hkind⟩ := hs.hasInterface_iff.mp hi
  exact hk ((h.kind_eq hd).symm.trans hkind)

theorem Grounded.hasInterface_parent (hg : r.Grounded) (hs : r.Sound) {d : Definition}
    (hn : r.HasInterface name) (hd : r.get? name = some d) :
    ∀ parent ∈ d.supertypes, r.HasInterface parent.name := by
  obtain ⟨e, hmem, rfl⟩ := hn
  cases (hs.get?_of_mem (List.mem_append_left _ (List.mem_filter.mp hmem).1)).symm.trans hd
  exact hg.interfaces _ hmem

theorem Grounded.agreesOn (hg : r.Grounded) (hs : r.Sound) (hf : SameFrame r s)
    (hm : ∀ name d d', r.get? name = some d → d.kind = .interface → s.get? name = some d' →
      d'.methods = d.methods) : AgreesOn r.HasInterface r s where
  frame := hf
  parents _ _ hn hd := hg.hasInterface_parent hs hn hd
  methods name d d' hn hd hd' := by
    obtain ⟨e, he, hk⟩ := hs.hasInterface_iff.mp hn
    cases hd.symm.trans he
    exact hm name d d' hd hk hd'

/-- The classes in `done` are settled, and nothing but methods has been added since `r`. -/
structure Progress (r : Registry) (done : List String) (s : Registry) : Prop where
  evolved : r.Evolves s
  frame : SameFrame r s
  settled : ∀ name ∈ done, ∀ d, s.get? name = some d → s.Settled d

/-- What has been handled already, interfaces and the utility class. -/
def Known (r : Registry) (done : List String) (name : String) : Prop :=
  name ∈ done ∨ r.HasInterface name ∨ name = r.utility

theorem Ordered.known_parents (ho : r.Ordered order) (he : order = done ++ rest) (hs : r.Sound)
    (hg : r.Grounded) {d : Definition} (hn : r.Known done name) (hd : r.get? name = some d) :
    ∀ parent ∈ d.supertypes, r.Known done parent.name := by
  intro parent hp
  rcases hn with hn | hn | rfl
  · obtain ⟨before, after, rfl⟩ := List.append_of_mem hn
    rcases ho.parents before name (after ++ rest) (by simp [he]) d hd parent hp with
      heq | hbefore | hknown
    · exact .inl (heq ▸ hn)
    · exact .inl (List.mem_append_left _ hbefore)
    · exact .inr hknown
  · exact .inr (.inl (hg.hasInterface_parent hs hn hd parent hp))
  · rw [hs.supertypes_utility hd] at hp
    cases hp

end Registry

open Registry in
/-- One more class is settled, and those before it stay so. -/
theorem implementClass_progress {r s t : Registry} {order done rest : List String} {name : String}
    (hs : r.Sound) (hg : r.Grounded) (ho : r.Ordered order) (he : order = done ++ name :: rest)
    (hp : r.Progress done s) {u : Unit} (h : implementClass name s = .ok u t) :
    r.Progress (done ++ [name]) t := by
  have hss := hs.evolves hp.evolved
  obtain ⟨kind, hk, hkind⟩ := ho.classes name (by simp [he])
  have hevolves := implementClass_evolves hss (hkind.evolves hs hp.evolved) hk h
  obtain ⟨d, d', table, hd, htable, hd', hf, hoff, hkeys, hcovered⟩ := implementClass_spec hss h
  have hframe := implementClass_sameFrame h
  -- Nothing that is known changes: `name` is neither done nor an interface nor the utility class.
  have hne : ∀ other, r.Known done other → other ≠ name := by
    rintro other hother rfl
    rcases hother with hmem | hi | hu
    · have hnodup := ho.nodup
      rw [he, List.nodup_append] at hnodup
      exact hnodup.2.2 other hmem other List.mem_cons_self rfl
    · exact hkind.not_hasInterface hs hk hi
    · exact hkind.1 hu
  have hparents : ∀ other e, r.Known done other → s.get? other = some e →
      ∀ parent ∈ e.supertypes, r.Known done parent.name := by
    intro other e hother hget parent hparent
    obtain ⟨e₀, hget₀, hf₀⟩ := hp.frame.symm.exists_of_get? hget
    rw [← hf₀.supertypes] at hparent
    exact ho.known_parents he hs hg hother hget₀ parent hparent
  have hagrees : AgreesOn (r.Known done) s t := by
    refine ⟨hframe, hparents, fun other e e' hother hget hget' => ?_⟩
    rw [hoff.off other (hne other hother), hget] at hget'
    rw [Option.some.inj hget']
  refine ⟨hp.evolved.trans hevolves, hp.frame.trans hframe, fun other hother => ?_⟩
  rcases List.mem_append.mp hother with hdone | hself
  · intro e hget
    rw [hoff.off other (hne other (.inl hdone))] at hget
    exact (hp.settled other hdone e hget).of_agreesOn hagrees (.refl e)
      (hparents other e (.inl hdone) hget) fun _ => id
  · obtain rfl := List.mem_singleton.mp hself
    intro e hget
    cases hd'.symm.trans hget
    refine settled_of_covered hagrees hf (fun parent hparent => ?_) hkeys htable hcovered
    obtain ⟨d₀, hd₀, hf₀⟩ := hp.frame.symm.exists_of_get? hd
    have hparent₀ : parent ∈ d₀.supertypes := hf₀.supertypes ▸ hparent
    rcases ho.parents done other rest he d₀ hd₀ parent hparent₀ with heq | hbefore | hknown
    · exact absurd (heq.trans (name_of_get? hd).symm) (ne_of_allMethods htable hparent)
    · exact .inl hbefore
    · exact .inr hknown

/-! ## The order of classes -/

namespace Registry

variable {r : Registry} {name : String} {d : Definition}

/-- Classes name interfaces only where they say which they implement. -/
def ImplementsInterfaces (r : Registry) : Prop :=
  ∀ d ∈ r.classes, ∀ t ∈ d.interfaces, r.HasInterface t.name

instance : DecidablePred ImplementsInterfaces := fun r =>
  inferInstanceAs (Decidable (∀ d ∈ r.classes, ∀ t ∈ d.interfaces, r.HasInterface t.name))

theorem kind_of_mem_classes (hd : d ∈ r.classes) : d.kind = .namedClass := by
  simpa [Definition.isNamedClass] using (List.mem_filter.mp hd).2

theorem Sound.get?_of_mem_classes (hs : r.Sound) (hd : d ∈ r.classes) : r.get? d.name = some d :=
  hs.get?_of_mem (List.mem_append_left _ (List.mem_filter.mp hd).1)

theorem Sound.mem_classes_of_get? (hs : r.Sound) (hd : r.get? name = some d)
    (hk : d.kind = .namedClass) : d ∈ r.classes := by
  refine List.mem_filter.mpr ⟨?_, by simp [Definition.isNamedClass, hk]⟩
  refine (List.mem_append.mp (mem_of_get? hd)).resolve_right fun hmem => ?_
  rw [hs.unnamed d hmem] at hk
  cases hk

theorem ImplementsInterfaces.of_sameFrame {r' : Registry} (hi : r.ImplementsInterfaces)
    (hs : r.Sound) (hs' : r'.Sound) (h : SameFrame r r') : r'.ImplementsInterfaces := by
  intro d' hd' t ht
  obtain ⟨d, hd, hf⟩ := h.symm.exists_of_get? (hs'.get?_of_mem_classes hd')
  have hmem := hs.mem_classes_of_get? hd (hf.kind.trans (kind_of_mem_classes hd'))
  obtain ⟨e, he, hk⟩ := hs.hasInterface_iff.mp (hi d hmem t (hf.interfaces ▸ ht))
  obtain ⟨e', he', hf'⟩ := h.exists_of_get? he
  exact hs'.hasInterface_iff.mpr ⟨e', he', hf'.kind.trans hk⟩

theorem Sound.find?_definitions (hs : r.Sound) (hd : d ∈ r.definitions) :
    r.definitions.find? (·.name = d.name) = some d :=
  find?_of_mem (hs.nodup.sublist ((List.sublist_append_left _ _).map _)) hd

theorem sort_of_sortedClasses (hs : r.Sound) {sorted : List Definition}
    (h : r.sortedClasses = .ok sorted) :
    DependencyOrder.sort (r.classes.map Definition.name) r.superclassNames =
      .ok (sorted.map Definition.name) := by
  unfold sortedClasses at h
  split at h
  · rename_i order horder
    obtain rfl := Except.ok.inj h
    have hall : ∀ n ∈ order, ∃ d, r.definitions.find? (·.name = n) = some d ∧ d.name = n := by
      intro n hn
      obtain ⟨d, hd, rfl⟩ := List.mem_map.mp ((DependencyOrder.sort_perm horder).mem_iff.mp hn)
      exact ⟨d, hs.find?_definitions (List.mem_filter.mp hd).1, rfl⟩
    rw [horder]
    clear horder h
    congr 1
    induction order with
    | nil => rfl
    | cons n order ih =>
      obtain ⟨⟨d, hd, hname⟩, hrest⟩ := List.forall_mem_cons.mp hall
      rw [List.filterMap_cons, hd, List.map_cons, hname, ← ih hrest]
  · cases h

theorem parent_cases (hs : r.Sound) (hg : r.Grounded) (hi : r.ImplementsInterfaces)
    (hd : d ∈ r.classes) {t : TypeExpr} (ht : t ∈ d.supertypes) :
    r.HasInterface t.name ∨
      (d.superclass? = some t ∧ ∃ p ∈ r.classes, r.get? t.name = some p) := by
  obtain ⟨hmem, hk⟩ := List.mem_filter.mp hd
  have hsplit : d.superclass? = some t ∨ t ∈ d.interfaces := by
    rw [Definition.isNamedClass, Definition.kind] at hk
    rw [Definition.supertypes] at ht
    rw [Definition.superclass?, Definition.interfaces]
    cases hshape : d.shape with
    | namedClass superclass interfaces paths => simpa [hshape] using ht
    | interface | anonymousClass => simp [hshape] at hk
  rcases hsplit with hsuper | hinterface
  · obtain ⟨p, hp, hname⟩ := List.mem_map.mp (hg.superclasses d hmem t hsuper)
    cases hkind : p.kind with
    | interface =>
      exact .inl ⟨p, List.mem_filter.mpr ⟨hp, by simp [Definition.isInterface, hkind]⟩, hname⟩
    | anonymousClass => exact absurd hkind (hs.named p hp)
    | namedClass =>
      refine .inr ⟨hsuper, p, List.mem_filter.mpr ⟨hp, by simp [Definition.isNamedClass, hkind]⟩, ?_⟩
      rw [← hname]
      exact hs.get?_of_mem (List.mem_append_left _ hp)
  · exact .inl (hi d hd t hinterface)

section Order

variable {sorted : List Definition} (hs : r.Sound) (h : r.sortedClasses = .ok sorted)
include hs h

theorem nodup_of_sortedClasses : ((sorted.map Definition.name).filter (· ≠ r.utility) ++
    r.anonymous.map Definition.name).Nodup := by
  have hperm := DependencyOrder.sort_perm (sort_of_sortedClasses hs h)
  have hnames := hs.nodup
  rw [names, List.map_append, List.nodup_append] at hnames
  have hsub : (r.classes.map Definition.name).Sublist (r.definitions.map Definition.name) :=
    List.filter_sublist.map _
  rw [List.nodup_append]
  refine ⟨(hperm.nodup_iff.mpr (hsub.nodup hnames.1)).filter _, hnames.2.1, fun a ha b hb => ?_⟩
  exact hnames.2.2 a (hsub.subset (hperm.mem_iff.mp (List.mem_filter.mp ha).1)) b hb

theorem hasKind_of_sortedClasses {n : String}
    (hn : n ∈ (sorted.map Definition.name).filter (· ≠ r.utility) ++
      r.anonymous.map Definition.name) : ∃ kind, kind ≠ .interface ∧ r.HasKind kind n := by
  rcases List.mem_append.mp hn with hn | hn
  · obtain ⟨hn, hne⟩ := List.mem_filter.mp hn
    rw [(DependencyOrder.sort_perm (sort_of_sortedClasses hs h)).mem_iff] at hn
    obtain ⟨d, hd, rfl⟩ := List.mem_map.mp hn
    exact ⟨.namedClass, by simp, hs.hasKind_of_mem_classes hd (by simpa using hne)⟩
  · obtain ⟨d, hd, rfl⟩ := List.mem_map.mp hn
    exact ⟨.anonymousClass, by simp, hs.hasKind_of_mem_anonymous hd⟩

end Order

theorem ordered_of_sortedClasses (hs : r.Sound) (hg : r.Grounded) (hi : r.ImplementsInterfaces)
    {sorted : List Definition} (h : r.sortedClasses = .ok sorted) :
    r.Ordered ((sorted.map Definition.name).filter (· ≠ r.utility) ++
      r.anonymous.map Definition.name) := by
  refine ⟨nodup_of_sortedClasses hs h, fun n => hasKind_of_sortedClasses hs h, ?_⟩
  have hsort := sort_of_sortedClasses hs h
  generalize sorted.map Definition.name = order at hsort
  have hclass : ∀ n ∈ order, ∃ d ∈ r.classes, d.name = n := fun n hn =>
    List.mem_map.mp ((DependencyOrder.sort_perm hsort).mem_iff.mp hn)
  intro before n after he d hd p hp
  have hanonymous : n ∈ r.anonymous.map Definition.name → r.HasInterface p.name := by
    intro hn
    obtain ⟨e, hmem, rfl⟩ := List.mem_map.mp hn
    cases (hs.get?_of_mem (List.mem_append_right _ hmem)).symm.trans hd
    exact hg.anonymous _ hmem p hp
  rcases List.append_eq_append_iff.mp he with ⟨as, _, has⟩ | ⟨bs, hbs, hafter⟩
  · exact .inr (.inr (.inl (hanonymous (by simp [has]))))
  · cases bs with
    | nil =>
      rw [List.nil_append] at hafter
      exact .inr (.inr (.inl (hanonymous (by simp [← hafter]))))
    | cons b bs =>
      obtain ⟨rfl, -⟩ := List.cons.inj hafter
      obtain ⟨l₁, l₂, rfl, hl₁, hl₂⟩ := List.filter_eq_append_iff.mp hbs
      obtain ⟨skipped, rest, rfl, hskipped, _, _⟩ := List.filter_eq_cons_iff.mp hl₂
      obtain ⟨e, hmem, rfl⟩ := hclass n (by simp)
      cases (hs.get?_of_mem (List.mem_append_left _ (List.mem_filter.mp hmem).1)).symm.trans hd
      rcases parent_cases hs hg hi hmem hp with hinterface | ⟨hsuperclass, e, he, hget⟩
      · exact .inr (.inr (.inl hinterface))
      · by_cases hself : p.name = d.name
        · exact .inl hself
        have hsuper : p.name ∈ r.superclassNames d.name := by
          rw [superclassNames, hs.find?_definitions (List.mem_filter.mp hmem).1]
          simp [hsuperclass]
        have hnode : p.name ∈ r.classes.map Definition.name :=
          List.mem_map.mpr ⟨e, he, name_of_get? hget⟩
        have hsplit : l₁ ++ (skipped ++ d.name :: rest) = (l₁ ++ skipped) ++ d.name :: rest := by
          rw [List.append_assoc]
        have hbefore := DependencyOrder.sort_before hsort hsplit hsuper hnode hself
        by_cases hu : p.name = r.utility
        · exact .inr (.inr (.inr hu))
        -- Only the utility class is left out, so the superclass is in the part before.
        refine .inr (.inl (hl₁ ▸ List.mem_filter.mpr ⟨?_, by simpa using hu⟩))
        refine (List.mem_append.mp hbefore).resolve_right fun hm => ?_
        simpa [hu] using hskipped p.name hm

end Registry

theorem Registry.Sound.settled_utility {r : Registry} (hs : r.Sound) {d : Definition}
    (hd : r.get? r.utility = some d) : r.Settled d := by
  rw [Registry.Settled, hs.supertypes_utility hd]
  exact ⟨[], .nil, fun key m hfind => by cases hfind⟩

theorem implementMethods_sameFrame {r r' : Registry} {u : Unit} (h : implementMethods r = .ok u r') :
    Registry.SameFrame r r' := by
  obtain ⟨sorted, -, h⟩ := implementMethods_eq_ok h
  exact Resolution.forM_induction (Registry.SameFrame r)
    (fun _ _ _ _ _ hs hstep => hs.trans (implementClass_sameFrame hstep)) (.refl r) h

/-- **All classes are settled** once they have been handled in their order. -/
theorem implementMethods_settled {r r' : Registry} (hs : r.Sound) (hg : r.Grounded)
    (hi : r.ImplementsInterfaces) {u : Unit} (h : implementMethods r = .ok u r') :
    ∀ d ∈ r'.definitions ++ r'.anonymous, d.kind ≠ .interface → r'.Settled d := by
  obtain ⟨sorted, hsorted, h⟩ := implementMethods_eq_ok h
  have ho := Registry.ordered_of_sortedClasses hs hg hi hsorted
  have hp := Resolution.forM_induction_prefix r.Progress
    (fun done name rest s t u he hp hstep => implementClass_progress hs hg ho he hp hstep)
    ⟨.refl r, .refl r, by simp⟩ h
  have hs' := hs.evolves hp.evolved
  intro d hd hk
  have hget := hs'.get?_of_mem hd
  by_cases hu : d.name = r.utility
  · rw [hu, ← hp.evolved.utility] at hget
    exact hs'.settled_utility hget
  obtain ⟨e, he, hf⟩ := hp.frame.symm.exists_of_get? hget
  rw [← hf.kind] at hk
  refine hp.settled d.name (List.mem_append.mpr ?_) d hget
  rw [← hf.name] at hu ⊢
  rcases List.mem_append.mp (Registry.mem_of_get? he) with hmem | hmem
  · refine .inl (List.mem_filter.mpr ⟨?_, by simpa using hu⟩)
    rw [(DependencyOrder.sort_perm (Registry.sort_of_sortedClasses hs hsorted)).mem_iff]
    refine List.mem_map.mpr ⟨e, List.mem_filter.mpr ⟨hmem, ?_⟩, rfl⟩
    cases hkind : e.kind with
    | interface => exact absurd hkind hk
    | anonymousClass => exact absurd hkind (hs.named e hmem)
    | namedClass => simp [Definition.isNamedClass, hkind]
  · exact .inr (List.mem_map.mpr ⟨e, hmem, rfl⟩)

end FluentGrammar
