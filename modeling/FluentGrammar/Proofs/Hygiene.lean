import FluentGrammar.Proofs.LateMembers

/-!
# Names of type parameters

When the type parameter of an inherited method collides with one of the class, it gets a number. A
type of the program may have just that name, and then the stub means something else than the method.
In a *hygienic* registry this does not happen: no type that stands in a superclass clause or for a
parameter of a method is named like a type parameter with a number, unless it is a type parameter
there.

* `Registry.Hygienic`: the condition, which can be decided.
* `Registry.Hygienic.freshNames`: the names to be kept free are closed under numbering.
* `Registry.Tame`: what hygiene says about a registry, for given fresh names.
* **`Registry.Tame.tame_of_mem_visible`**: all that classes hand down is tame.
-/

namespace FluentGrammar

/-! ## Numbered names -/

/-- The second name is the first, possibly followed by digits. -/
def IsNumbered (base name : String) : Prop :=
  base.toList <+: name.toList ∧ (name.toList.drop base.toList.length).all Char.isDigit = true

instance (base name : String) : Decidable (IsNumbered base name) :=
  inferInstanceAs (Decidable (_ ∧ _))

namespace IsNumbered

variable {base name : String}

theorem refl (name : String) : IsNumbered name name :=
  ⟨List.prefix_refl _, by simp⟩

theorem append (h : IsNumbered base name) (k : Nat) : IsNumbered base (name ++ toString k) := by
  obtain ⟨hstart, hdigits⟩ := h
  rw [IsNumbered, String.toList_append]
  refine ⟨hstart.trans (List.prefix_append _ _), ?_⟩
  rw [List.drop_append_of_le_length hstart.length_le, List.all_append, hdigits, Bool.true_and,
    Nat.toString_eq_repr, Nat.toList_repr, List.all_eq_true]
  intro c hc
  exact Nat.isDigit_of_mem_toDigits (by omega) (by omega) hc

theorem eq_of_last (h : IsNumbered base name)
    (hlast : name.toList.getLast?.any Char.isDigit = false) : base = name := by
  obtain ⟨⟨suffix, hsuffix⟩, hdigits⟩ := h
  rw [← hsuffix, List.drop_left, List.all_eq_true] at hdigits
  rw [← hsuffix] at hlast
  cases hs : suffix.getLast? with
  | none =>
    rw [List.getLast?_eq_none_iff.mp hs, List.append_nil] at hsuffix
    exact String.toList_inj.mp hsuffix
  | some c =>
    have hmem := List.mem_of_getLast? hs
    rw [List.getLast?_append, hs, Option.some_or, Option.any_some, hdigits c hmem] at hlast
    cases hlast

theorem isCapture_eq_false (h : IsNumbered base name) (hb : isCapture base = false) :
    isCapture name = false := by
  by_contra hc
  rw [Bool.not_eq_false, isCapture, List.isPrefixOf_iff_prefix] at hc
  have hnot : ¬ captureMark.toList <+: base.toList := by
    rw [← List.isPrefixOf_iff_prefix, Bool.not_eq_true]
    exact hb
  have hbase := (List.prefix_or_prefix_of_prefix h.1 hc).resolve_right hnot
  have hmark : IsNumbered base captureMark :=
    ⟨hbase, List.all_eq_true.mpr fun c hm =>
      List.all_eq_true.mp h.2 c ((hc.drop base.toList.length).subset hm)⟩
  have heq := hmark.eq_of_last (by decide)
  rw [heq] at hnot
  exact hnot (List.prefix_refl _)

end IsNumbered

/-! ## Hygiene -/

namespace Registry

variable {r : Registry}

/-- The methods of classes that subclasses can inherit. -/
def inheritable (r : Registry) : List Method :=
  r.classes.flatMap fun d => visible d.methods

/-- A name that a type parameter of an inherited method has or can get. -/
def Numbered (r : Registry) (name : String) : Prop :=
  ∃ m ∈ r.inheritable, ∃ base ∈ m.typeParams.names, IsNumbered base name

instance (r : Registry) : DecidablePred r.Numbered := fun name =>
  inferInstanceAs (Decidable (∃ m ∈ r.inheritable, ∃ base ∈ m.typeParams.names, IsNumbered base name))

/-- Names that type parameters of methods have or can get are used for type parameters only. -/
structure Hygienic (r : Registry) : Prop where
  typeParams : ∀ m ∈ r.inheritable, ∀ name ∈ m.typeParams.names,
    name ≠ TypeExpr.topName ∧ isCapture name = false
  superclasses : ∀ d ∈ r.classes, ∀ t ∈ d.superclass?, ∀ a ∈ t.args,
    r.Numbered a.toType.name → a.toType.name ∈ d.typeParams.names
  params : ∀ m ∈ r.inheritable, ∀ p ∈ m.params, r.Numbered p.type.name → p.type.name ∈ m.scope

instance (r : Registry) : Decidable r.Hygienic :=
  decidable_of_iff
    ((∀ m ∈ r.inheritable, ∀ name ∈ m.typeParams.names,
        name ≠ TypeExpr.topName ∧ isCapture name = false) ∧
      (∀ d ∈ r.classes, ∀ t ∈ d.superclass?, ∀ a ∈ t.args,
        r.Numbered a.toType.name → a.toType.name ∈ d.typeParams.names) ∧
      ∀ m ∈ r.inheritable, ∀ p ∈ m.params, r.Numbered p.type.name → p.type.name ∈ m.scope)
    ⟨fun h => ⟨h.1, h.2.1, h.2.2⟩, fun h => ⟨h.typeParams, h.superclasses, h.params⟩⟩

theorem Hygienic.freshNames (h : r.Hygienic) : FreshNames r.Numbered where
  numbered := by
    rintro name k ⟨m, hm, base, hbase, hn⟩
    exact ⟨m, hm, base, hbase, hn.append k⟩
  top := by
    rintro ⟨m, hm, base, hbase, hn⟩
    exact (h.typeParams m hm base hbase).1 (hn.eq_of_last (by decide))
  uncaptured := by
    rintro name ⟨m, hm, base, hbase, hn⟩
    exact hn.isCapture_eq_false (h.typeParams m hm base hbase).2

theorem Hygienic.tame (h : r.Hygienic) {m : Method} (hm : m ∈ r.inheritable) :
    m.Tame r.Numbered where
  typeParams name hn := ⟨m, hm, name, hn, .refl name⟩
  params := h.params m hm

end Registry

/-! ## Stubs on classes -/

namespace Method.IsStub

variable {m b : Method} {target : Owner}

theorem isHidden_eq_false (h : m.IsStub target b) (hm : m.isHidden = false) :
    b.isHidden = false := by
  obtain ⟨haccess, hstatic⟩ := Bool.or_eq_false_iff.mp hm
  have haccess : m.access ≠ .privateAccess := by simpa using haccess
  have hstatic : "static" ∉ m.modifiers := by simpa [isStatic] using hstatic
  rw [isHidden, isStatic, h.access, h.modifiers, Bool.or_eq_false_iff]
  refine ⟨?_, ?_⟩
  · rw [decide_eq_false_iff_not]
    cases target.kind with
    | interface => exact haccess
    | anonymousClass => simp [inheritedAccess]
    | namedClass =>
      rw [inheritedAccess]
      split
      · simp
      · exact haccess
  · rw [decide_eq_false_iff_not]
    cases target.kind with
    | interface => exact hstatic
    | namedClass | anonymousClass =>
      rw [inheritedModifiers]
      split <;> simp [OrderedSet.mem_insert, OrderedSet.mem_erase, hstatic]

/-- On a class, a stub is open just if the method is abstract. -/
theorem isOpen_eq (h : m.IsStub target b) (hk : target.kind ≠ .interface)
    (hm : m.isAbstract = m.owner.kind.isAbstract m.modifiers) : b.isOpen = m.isAbstract := by
  have hopen : b.isOpen = decide ("abstract" ∈ m.inheritedModifiers target.kind) := by
    rw [isOpen, h.state, h.isAbstract, h.modifiers]
    cases hkind : target.kind with
    | interface => exact absurd hkind hk
    | namedClass | anonymousClass => simp [Kind.isAbstract]
  have hmodifiers : m.inheritedModifiers target.kind =
      if m.isAbstract then (m.modifiers.erase "default").insert "abstract"
      else m.modifiers.erase "default" := by
    cases hkind : target.kind with
    | interface => exact absurd hkind hk
    | namedClass | anonymousClass => rfl
  rw [hopen, hmodifiers]
  cases ha : m.isAbstract with
  | true => simp [OrderedSet.mem_insert]
  | false =>
    rw [ha] at hm
    cases hkind : m.owner.kind with
    | interface =>
      rw [hkind] at hm
      cases hm
    | namedClass | anonymousClass =>
      rw [hkind] at hm
      simp [OrderedSet.mem_erase, of_decide_eq_false hm.symm]

end Method.IsStub

namespace Registry

variable {r : Registry} {d p : Definition} {t : Table Method} {m : Method} {fresh : String → Prop}

theorem owner_name_of_mem_visible {name : String} (hd : d.WellFormed) (hget : r.get? name = some d)
    (h : r.allMethods d = .ok t) (hm : m ∈ visible t) : m.owner.name = name := by
  rw [(owner_of_mem_allMethods hd.holdsMethods h (mem_visible.mp hm).1).1]
  exact name_of_get? hget

theorem owner_kind_of_mem_classes (hd : d ∈ r.classes) : d.owner.kind ≠ .interface := by
  rw [show d.owner.kind = d.kind from rfl, kind_of_mem_classes hd]
  simp

theorem eq_of_ancestorFor {parent a : TypeExpr} {rest : List TypeExpr}
    (hd : d.supertypes = parent :: rest) (hne : parent.name ≠ d.name)
    (h : ancestorFor d (r.ancestors d) parent.name = .ok a) : a = parent := by
  unfold ancestorFor at h
  rw [if_neg hne.symm] at h
  obtain ⟨types, htypes, h⟩ := Except.bind_eq_ok_iff.mp h
  rw [ancestors, hd] at htypes
  obtain ⟨_, _, ts, _, _, _, _, hts, _, rfl⟩ := ancestorsVia_cons_eq_ok_iff.mp htypes
  obtain ⟨_, _, _, _, rfl⟩ := throughParent_eq_ok_iff.mp hts
  rw [List.cons_append, List.find?_cons_of_pos (by simp)] at h
  exact (Except.ok.inj h).symm

/-! ## Tame registries -/

/-- What subclasses can inherit is tame, and superclasses bring no fresh names. -/
structure Tame (fresh : String → Prop) (r : Registry) : Prop where
  sound : r.Sound
  grounded : r.Grounded
  implementing : r.ImplementsInterfaces
  methods : ∀ d ∈ r.classes, ∀ m ∈ visible d.methods, m.Tame fresh
  superclasses : ∀ d ∈ r.classes, ∀ t, d.superclass? = some t → ∀ a ∈ t.args,
    fresh a.toType.name → a.toType.name ∈ d.typeParams.names

theorem Hygienic.tameRegistry (h : r.Hygienic) (hs : r.Sound) (hg : r.Grounded)
    (hi : r.ImplementsInterfaces) : r.Tame r.Numbered where
  sound := hs
  grounded := hg
  implementing := hi
  methods d hd _ hm := h.tame (List.mem_flatMap.mpr ⟨d, hd, hm⟩)
  superclasses := h.superclasses

theorem Sound.wellFormed_of_mem_classes (hs : r.Sound) (hd : d ∈ r.classes) : d.WellFormed :=
  hs.wellFormed d (List.mem_append_left _ (List.mem_filter.mp hd).1)

/-- What is not open in the table of a class is its own or comes from its superclass. -/
theorem Tame.mem_allMethods_cases (hr : r.Tame fresh) (hd : d ∈ r.classes)
    (h : r.allMethods d = .ok t) (hm : m ∈ t.values) (ho : m.isOpen = false) :
    m ∈ d.methods.values ∨ m.signature ∉ d.methods.keys ∧ ∃ parent p u e,
      d.superclass? = some parent ∧ p ∈ r.classes ∧ r.get? parent.name = some p ∧
      r.allMethods p = .ok u ∧ e ∈ visible u ∧ e.isAbstract = false ∧ r.overrideFor d e = .ok m := by
  rcases mem_values_allMethods h hm with hown | ⟨hnew, parent, hparent, p, u, e, hget, hu, he, hover⟩
  · exact .inl hown
  · have hp := hr.sound.wellFormed p (mem_of_get? hget)
    obtain ⟨howner, hkind⟩ := owner_of_mem_allMethods hp.holdsMethods hu (mem_visible.mp he).1
    rw [(isStub_of_overrideFor hover).isOpen_eq (owner_kind_of_mem_classes hd) hkind] at ho
    refine .inr ⟨hnew, parent, p, u, e, ?_⟩
    rcases parent_cases hr.sound hr.grounded hr.implementing hd hparent with
      hinterface | ⟨hsuper, q, hq, hgetq⟩
    · obtain ⟨q, hgetq, hq⟩ := hr.sound.hasInterface_iff.mp hinterface
      cases hget.symm.trans hgetq
      rw [howner, show p.owner.kind = p.kind from rfl, hq, ho] at hkind
      cases hkind
    · cases hget.symm.trans hgetq
      exact ⟨hsuper, hq, hget, hu, he, ho, hover⟩

theorem Tame.outline_of_override (hf : FreshNames fresh) (hr : r.Tame fresh) (hd : d ∈ r.classes)
    {parent : TypeExpr} (hsuper : d.superclass? = some parent) (hne : parent.name ≠ d.name)
    {e b : Method} (ho : e.owner.name = parent.name) (he : e.Tame fresh)
    (h : r.overrideFor d e = .ok b) :
    e.IsStub d.owner b ∧ b.Tame fresh ∧ ∃ bindings,
      Method.ownerBindings e.owner parent = .ok bindings ∧
      b.outline = (e.outline.1, e.outline.2.map bindings.replaceHead) := by
  obtain ⟨ancestor, hancestor, hstub⟩ := Except.bind_eq_ok_iff.mp h
  rw [ho] at hancestor
  obtain rfl := eq_of_ancestorFor (supertypes_of_superclass? hsuper) hne hancestor
  obtain ⟨his, bindings, _, hb, _⟩ := Method.stub_eq_ok hstub
  obtain ⟨houtline, htame⟩ := Method.outline_of_stub hf he
    (hr.superclasses d hd ancestor hsuper) hstub hb
  exact ⟨his, htame, bindings, hb, houtline⟩

theorem Tame.outline_congr (hf : FreshNames fresh) (hr : r.Tame fresh) (hd : d ∈ r.classes)
    {parent : TypeExpr} (hsuper : d.superclass? = some parent) (hne : parent.name ≠ d.name)
    {a a' b b' : Method} (ho : a.owner.name = parent.name) (ho' : a'.owner = a.owner)
    (ha : a.Tame fresh) (ha' : a'.Tame fresh) (h : a'.outline = a.outline)
    (hb : r.overrideFor d a = .ok b) (hb' : r.overrideFor d a' = .ok b') :
    b'.outline = b.outline ∧ b'.signature = b.signature := by
  obtain ⟨hstub, _, bindings, hbind, houtline⟩ := hr.outline_of_override hf hd hsuper hne ho ha hb
  obtain ⟨hstub', _, bindings', hbind', houtline'⟩ :=
    hr.outline_of_override hf hd hsuper hne (ho' ▸ ho) ha' hb'
  rw [ho', hbind] at hbind'
  obtain rfl := Except.ok.inj hbind'
  have hsame : b'.outline = b.outline := by rw [houtline', houtline, h]
  exact ⟨hsame, Method.signature_eq_of_outline (by rw [hstub.owner, hstub'.owner]) hsame⟩

/-- **All that a class hands down is tame**, unless it is still open. -/
theorem Tame.tame_of_mem_visible (hf : FreshNames fresh) (hr : r.Tame fresh) (hd : d ∈ r.classes)
    (h : r.allMethods d = .ok t) : ∀ m ∈ visible t, m.isOpen = false → m.Tame fresh := by
  refine allMethods_induction (motive := fun d t =>
    d ∈ r.classes → ∀ m ∈ visible t, m.isOpen = false → m.Tame fresh) ?_ h hd
  intro d t h ih hd m hm ho
  obtain ⟨hm, hvisible⟩ := mem_visible.mp hm
  rcases hr.mem_allMethods_cases hd h hm ho with
    hown | ⟨_, parent, p, u, e, hsuper, hp, hget, hu, he, habstract, hover⟩
  · exact hr.methods d hd m (mem_visible.mpr ⟨hown, hvisible⟩)
  · have hparent : parent ∈ d.supertypes := by simp [supertypes_of_superclass? hsuper]
    obtain ⟨u', hu', ih⟩ := ih parent hparent p hget
    cases hu.symm.trans hu'
    have heopen : e.isOpen = false := by simp [Method.isOpen, habstract]
    have hname := owner_name_of_mem_visible (hr.sound.wellFormed_of_mem_classes hp) hget hu he
    exact (hr.outline_of_override hf hd hsuper (ne_of_allMethods h hparent) hname
      (ih hp e he heopen) hover).2.1

end Registry

end FluentGrammar
