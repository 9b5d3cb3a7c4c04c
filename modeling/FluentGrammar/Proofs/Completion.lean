import FluentGrammar.Proofs.Hygiene

/-!
# Completion of settled classes

Classes are settled before members are made of explicit methods, and they are so afterwards. A
member can take the place of an inherited method, and then subclasses inherit the member instead;
but it has the same outline, so its stubs cover what the stubs of the other have covered.

* `StubsKept`: stubs that cover what others do, and of which no more are open.
* `Registry.Completes`: a registry before and after members are added.
* `Registry.Completes.stubsKept_of_superclass`: what a class inherits from its superclass.
* **`Registry.Completes.completed`**, `Registry.Completes.settled_anonymous`: all classes are
  settled afterwards.
-/

namespace FluentGrammar

/-! ## Lists of stubs -/

/-- The signatures of `before` are kept, and what is the first of its signature and open in `after`
was so in `before`. -/
structure StubsKept (before after : List Method) : Prop where
  signatures : ∀ b ∈ before, ∃ b' ∈ after, b'.signature = b.signature
  opens : ∀ key m, after.find? (·.signature = key) = some m → m.isOpen = true →
    before.find? (·.signature = key) = some m

namespace StubsKept

variable {before after before' after' : List Method}

theorem refl (stubs : List Method) : StubsKept stubs stubs :=
  ⟨fun b hb => ⟨b, hb, rfl⟩, fun _ _ h _ => h⟩

theorem append (h : StubsKept before after) (h' : StubsKept before' after') :
    StubsKept (before ++ before') (after ++ after') := by
  refine ⟨fun b hb => ?_, fun key m hfind ho => ?_⟩
  · rcases List.mem_append.mp hb with hb | hb
    · obtain ⟨b', hb', hs⟩ := h.signatures b hb
      exact ⟨b', List.mem_append_left _ hb', hs⟩
    · obtain ⟨b', hb', hs⟩ := h'.signatures b hb
      exact ⟨b', List.mem_append_right _ hb', hs⟩
  · rw [List.find?_append] at hfind ⊢
    cases hfirst : after.find? (·.signature = key) with
    | some n =>
      rw [hfirst, Option.some_or, Option.some.injEq] at hfind
      rw [h.opens key m (hfind ▸ hfirst) ho, Option.some_or]
    | none =>
      have hnone : before.find? (·.signature = key) = none := by
        rw [List.find?_eq_none] at hfirst ⊢
        intro b hb
        obtain ⟨b', hb', hs⟩ := h.signatures b hb
        rw [← hs]
        exact hfirst b' hb'
      rw [hfirst, Option.none_or] at hfind
      rw [hnone, Option.none_or, h'.opens key m hfind ho]

theorem flatten {lists lists' : List (List Method)} (h : List.Forall₂ StubsKept lists lists') :
    StubsKept lists.flatten lists'.flatten := by
  induction h with
  | nil => exact .refl []
  | cons h _ ih => exact h.append ih

end StubsKept

namespace Registry

variable {s r : Registry} {name : String} {d d' p p' : Definition} {t t' u u' : Table Method}
  {fresh : String → Prop} {parent : TypeExpr}

theorem Settled.of_stubsKept (hs : s.Settled d) (hf : d.SameFrame d')
    (hkeys : ∀ key ∈ d.methods.keys, key ∈ d'.methods.keys) {lists' : List (List Method)}
    (hlists' : List.Forall₂ (r.InheritsFrom d') d'.supertypes lists')
    (hkept : ∀ parent ∈ d'.supertypes, ∀ stubs stubs', s.InheritsFrom d parent stubs →
      r.InheritsFrom d' parent stubs' → StubsKept stubs stubs') : r.Settled d' := by
  obtain ⟨lists, hlists, hcovered⟩ := hs
  rw [← hf.supertypes] at hlists
  have hall := StubsKept.flatten (forall₂_of_common hkept hlists hlists')
  exact ⟨lists', hlists', fun key m hfind ho =>
    hkeys key (hcovered key m (hall.opens key m hfind ho) ho)⟩

/-! ## Before and after -/

theorem visible_allMethods (h : r.allMethods d = .ok t) :
    ∃ rest, visible t = visible d.methods ++ rest := by
  obtain ⟨lists, _, hmerge⟩ := exists_stubs_of_allMethods h
  obtain ⟨rest, hrest, _⟩ := entries_of_foldlM_merge hmerge
  refine ⟨(rest.map Prod.snd).filter (!·.isHidden), ?_⟩
  rw [visible, visible, Table.values, Table.values, hrest, List.map_append, List.filter_append]

theorem Sound.visible_utility (hs : s.Sound) (hd : s.get? s.utility = some d) :
    visible d.methods = [] := by
  rw [visible, List.filter_eq_nil_iff]
  intro m hm
  simp [Method.isHidden, (hs.utility_spec hd).2 m hm]

/-- Subclasses see the members after the methods that they have seen before. -/
theorem visible_of_gains (hs : s.Sound) (hr : r.Sound) (hu : r.utility = s.utility)
    (hd : s.get? name = some d) (hd' : r.get? name = some d') (hk : d.kind = .namedClass)
    (hg : d.Gains s.utility d') :
    ∃ more, visible d'.methods = visible d.methods ++ more ∧ ∀ m ∈ more, m.IsMember := by
  by_cases hn : d.name = s.utility
  · rw [name_of_get? hd] at hn
    subst hn
    have hnone := hs.visible_utility hd
    have hnone' := hr.visible_utility (hu ▸ hd')
    exact ⟨[], by rw [hnone, hnone', List.append_nil], by simp⟩
  · obtain ⟨more, hmore, hall⟩ := (hg.members hk hn).methods
    refine ⟨more.filter (!·.isHidden), ?_, fun m hm => (hall m (List.mem_filter.mp hm).1).2⟩
    rw [visible, visible, Table.values, Table.values, hmore, List.map_append, List.filter_append,
      List.map_map]
    simp [Function.comp_def]

theorem Tame.of_gains (hr : r.Tame fresh) (hs : s.Sound) (hg : s.Grounded)
    (hu : r.utility = s.utility) (h : Related (Definition.Gains s.utility) s r) :
    s.Tame fresh := by
  have hframe : SameFrame s r := h.imp fun _ _ hd => hd.frame
  refine ⟨hs, hg, hr.implementing.of_sameFrame hr.sound hs hframe.symm, ?_, ?_⟩
  · intro d hd m hm
    have hget := hs.get?_of_mem_classes hd
    obtain ⟨d', hget', hgains⟩ := h.exists_of_get? hget
    have hk := kind_of_mem_classes hd
    have hd' := hr.sound.mem_classes_of_get? hget' (hgains.frame.kind.trans hk)
    obtain ⟨more, hmore, _⟩ := visible_of_gains hs hr.sound hu hget hget' hk hgains
    exact hr.methods d' hd' m (hmore ▸ List.mem_append_left _ hm)
  · intro d hd t ht
    have hget := hs.get?_of_mem_classes hd
    obtain ⟨d', hget', hgains⟩ := h.exists_of_get? hget
    have hk := kind_of_mem_classes hd
    have hd' := hr.sound.mem_classes_of_get? hget' (hgains.frame.kind.trans hk)
    have hsuper := hr.superclasses d' hd' t (hgains.frame.superclass?.trans ht)
    rw [hgains.frame.typeParams] at hsuper
    exact hsuper

/-- The registry `s`, in which all classes are settled, and `r`, which has more members. -/
structure Completes (fresh : String → Prop) (s r : Registry) : Prop where
  freshNames : FreshNames fresh
  before : s.Tame fresh
  after : r.Tame fresh
  utility : r.utility = s.utility
  gains : Related (Definition.Gains s.utility) s r
  settled : ∀ d ∈ s.definitions ++ s.anonymous, d.kind ≠ .interface → s.Settled d

namespace Completes

variable (h : Completes fresh s r)

include h

theorem frame : SameFrame s r :=
  h.gains.imp fun _ _ hd => hd.frame

theorem agreesOn : AgreesOn s.HasInterface s r :=
  h.before.grounded.agreesOn h.before.sound h.frame
    fun _ _ _ hd hk hd' => h.gains.methods_of_interface hd hk hd'

theorem stubsKept_of_hasInterface (hf : d.SameFrame d') (hp : s.HasInterface parent.name)
    {stubs stubs' : List Method} (hstubs : s.InheritsFrom d parent stubs)
    (hstubs' : r.InheritsFrom d' parent stubs') : StubsKept stubs stubs' := by
  have hlist := h.agreesOn.inheritsFrom hf (List.forall_mem_singleton.mpr hp)
    (.cons hstubs .nil)
  obtain ⟨_, _, hsame, _, heq⟩ := List.forall₂_cons_left_iff.mp hlist
  obtain ⟨rfl, -⟩ := List.cons.inj heq
  obtain rfl := inheritsFrom_unique hsame hstubs'
  exact .refl _

end Completes

/-! ## Superclasses -/

/-- The class `d` of `r`, whose table is `t`, is settled, and it hands down all outlines that it has
handed down in `s`. -/
structure Completed (s r : Registry) (d : Definition) (t : Table Method) : Prop where
  settled : r.Settled d
  outlines : ∀ e u, s.get? d.name = some e → s.allMethods e = .ok u →
    ∀ a ∈ visible u, ∃ a' ∈ visible t, a'.outline = a.outline

theorem mem_methods_of_isAbstract (ht : r.allMethods d = .ok t) {m : Method} (hm : m ∈ t.values)
    (ho : m.isOpen = false) (ha : m.isAbstract = true) : m ∈ d.methods.values := by
  refine (mem_values_allMethods ht hm).resolve_right ?_
  rintro ⟨_, _, _, _, _, e, _, _, _, hover⟩
  rw [Method.isOpen, (isStub_of_overrideFor hover).state, ha] at ho
  cases ho

namespace Completes

section Superclass

variable (h : Completes fresh s r) (hd' : d' ∈ r.classes) (hf : d.SameFrame d')
  (hsuper : d'.superclass? = some parent) (hne : parent.name ≠ d'.name)
  (hget : s.get? parent.name = some p) (hu : s.allMethods p = .ok u) (hp' : p' ∈ r.classes)
  (hget' : r.get? parent.name = some p') (hu' : r.allMethods p' = .ok u')
  (hc : Completed s r p' u') {stubs stubs' : List Method}
  (hstubs' : (visible u').mapM (r.overrideFor d') = .ok stubs')

include h hd' hf hsuper hne hget hu hp' hget' hu' hc hstubs'

/-- For what a class has inherited from its superclass, it still gets a stub of the same outline. -/
theorem exists_stub {a b : Method} (ha : a ∈ visible u) (hb : s.overrideFor d a = .ok b) :
    ∃ b' ∈ stubs', b'.outline = b.outline ∧ b'.signature = b.signature ∧ b'.Tame fresh ∧
      b'.isHidden = false ∧ b'.owner = d'.owner := by
  obtain ⟨q, hq, hfp⟩ := h.frame.exists_of_get? hget
  cases hget'.symm.trans hq
  have hk : p.kind = .namedClass := hfp.kind.symm.trans (kind_of_mem_classes hp')
  have hp := h.before.sound.mem_classes_of_get? hget hk
  have hwp := h.before.sound.wellFormed_of_mem_classes hp
  have hwp' := h.after.sound.wellFormed_of_mem_classes hp'
  obtain ⟨a', ha', hout⟩ := hc.outlines p u (by rw [name_of_get? hget', hget]) hu a ha
  obtain ⟨b', hmem, hb'⟩ := exists_right_of_forall₂ (Except.mapM_eq_ok_iff.mp hstubs') a' ha'
  have hopen : a.isOpen = false := (h.settled p (mem_of_get? hget) (by simp [hk])).isOpen_eq_false
    hwp hu (mem_visible.mp ha).1
  have hopen' : a'.isOpen = false := hc.settled.isOpen_eq_false hwp' hu' (mem_visible.mp ha').1
  have htame := h.before.tame_of_mem_visible h.freshNames hp hu a ha hopen
  have htame' := h.after.tame_of_mem_visible h.freshNames hp' hu' a' ha' hopen'
  have hname := owner_name_of_mem_visible hwp hget hu ha
  have hsame : a'.owner = a.owner := by
    rw [(owner_of_mem_allMethods hwp'.holdsMethods hu' (mem_visible.mp ha').1).1,
      (owner_of_mem_allMethods hwp.holdsMethods hu (mem_visible.mp ha).1).1, hfp.owner]
  rw [← h.frame.overrideFor_eq hf] at hb
  obtain ⟨houtline, hsignature⟩ := h.after.outline_congr h.freshNames hd' hsuper hne hname hsame
    htame htame' hout hb hb'
  obtain ⟨hstub, hbtame, _⟩ := h.after.outline_of_override h.freshNames hd' hsuper hne
    (hsame ▸ hname) htame' hb'
  exact ⟨b', hmem, houtline, hsignature, hbtame, hstub.isHidden_eq_false (mem_visible.mp ha').2,
    hstub.owner⟩

theorem stubsKept_of_superclass (hstubs : (visible u).mapM (s.overrideFor d) = .ok stubs) :
    StubsKept stubs stubs' := by
  refine ⟨fun b hb => ?_, fun key m hfind ho => ?_⟩
  · obtain ⟨a, ha, hb⟩ := Except.exists_of_mem_mapM hstubs b hb
    obtain ⟨b', hb', _, hsignature, _⟩ :=
      h.exists_stub hd' hf hsuper hne hget hu hp' hget' hu' hc hstubs' ha hb
    exact ⟨b', hb', hsignature⟩
  · obtain ⟨e, he, hover⟩ := Except.exists_of_mem_mapM hstubs' m (List.mem_of_find?_eq_some hfind)
    obtain ⟨heu, hvisible⟩ := mem_visible.mp he
    have hwp' := h.after.sound.wellFormed_of_mem_classes hp'
    have habstract : e.isAbstract = true := by
      have hkind := (owner_of_mem_allMethods hwp'.holdsMethods hu' heu).2
      rw [← (isStub_of_overrideFor hover).isOpen_eq (owner_kind_of_mem_classes hd') hkind, ho]
    have hopen := hc.settled.isOpen_eq_false hwp' hu' heu
    have hown := mem_methods_of_isAbstract hu' heu hopen habstract
    -- Members are concrete, so `e` is among the methods that come first in both tables.
    obtain ⟨q, hq, hgains⟩ := h.gains.exists_of_get? hget
    cases hget'.symm.trans hq
    have hk := hgains.frame.kind.symm.trans (kind_of_mem_classes hp')
    obtain ⟨more, hmore, hmember⟩ :=
      visible_of_gains h.before.sound h.after.sound h.utility hget hget' hk hgains
    have hfirst : e ∈ visible p.methods := by
      have hmem := mem_visible.mpr ⟨hown, hvisible⟩
      rw [hmore] at hmem
      refine (List.mem_append.mp hmem).resolve_right fun hmem => ?_
      rw [(hmember e hmem).concrete] at habstract
      cases habstract
    obtain ⟨rest, hrest⟩ := visible_allMethods hu
    obtain ⟨rest', hrest'⟩ := visible_allMethods hu'
    rw [hrest', hmore, List.append_assoc, List.mapM_append] at hstubs'
    rw [← h.frame.overrideFor_eq hf, hrest, List.mapM_append] at hstubs
    simp only [Except.bind_eq_ok_iff, Except.pure_eq_ok_iff] at hstubs hstubs'
    obtain ⟨common, hcommon, _, _, rfl⟩ := hstubs
    obtain ⟨common', hcommon', _, _, rfl⟩ := hstubs'
    obtain rfl := Except.ok.inj (hcommon.symm.trans hcommon')
    obtain ⟨m', hm', hover'⟩ := exists_right_of_forall₂ (Except.mapM_eq_ok_iff.mp hcommon) e hfirst
    obtain rfl := Except.ok.inj (hover.symm.trans hover')
    have hkey : m.signature = key := by simpa using List.find?_some hfind
    rw [List.find?_append] at hfind ⊢
    cases hfindm : common.find? (·.signature = key) with
    | none => exact absurd hkey (by simpa using List.find?_eq_none.mp hfindm m hm')
    | some n =>
      rw [hfindm, Option.some_or] at hfind
      rw [Option.some_or, hfind]

end Superclass

theorem ne_utility (h : Completes fresh s r) (hd : s.get? d'.name = some d) (hf : d.SameFrame d')
    (hsuper : d'.superclass? = some parent) : d.name ≠ s.utility := by
  intro hn
  rw [hf.name, hn] at hd
  rw [hf.superclass?, Definition.superclass?, (h.before.sound.utility_spec hd).1] at hsuper
  cases hsuper

theorem isMember_of_new (h : Completes fresh s r) (hd : s.get? d'.name = some d)
    (hd' : d' ∈ r.classes) (hsuper : d'.superclass? = some parent) {m : Method}
    (hm : m ∈ d'.methods.values) (hnew : m.signature ∉ d.methods.keys) : m.IsMember := by
  obtain ⟨e', he', hgains⟩ := h.gains.exists_of_get? hd
  cases (h.after.sound.get?_of_mem_classes hd').symm.trans he'
  obtain ⟨more, hmore, hall⟩ := (hgains.members
    (hgains.frame.kind.symm.trans (kind_of_mem_classes hd'))
    (h.ne_utility hd hgains.frame hsuper)).methods
  rw [Table.values, hmore, List.map_append, List.map_map, List.mem_append] at hm
  rcases hm with hm | hm
  · have hget := (h.before.sound.wellFormed d (mem_of_get? hd)).get?_signature hm
    exact absurd (List.mem_map.mpr ⟨_, Table.mem_entries_of_get? hget, rfl⟩) hnew
  · obtain ⟨n, hn, rfl⟩ := List.mem_map.mp hm
    exact (hall n hn).2

/-- What takes the place of a stub is visible and has its outline. -/
theorem outline_of_matchesContract (h : Completes fresh s r) (hd : s.get? d'.name = some d)
    (hd' : d' ∈ r.classes) (hsuper : d'.superclass? = some parent) (hs' : r.Settled d')
    (ht' : r.allMethods d' = .ok t') {x b : Method} (hx : x ∈ t'.values)
    (hb : b.Tame fresh) (ho : b.owner = d'.owner) (hnew : b.signature ∉ d.methods.keys)
    (hmatch : x.matchesContract b = true) : x.isHidden = false ∧ x.outline = b.outline := by
  have hw' := h.after.sound.wellFormed_of_mem_classes hd'
  have hopen := hs'.isOpen_eq_false hw' ht' hx
  have howner := (owner_of_mem_allMethods hw'.holdsMethods ht' hx).1
  have hkey := (Method.matchesContract_spec hmatch).1
  have hspec : x.isHidden = false ∧
      ∀ name ∈ x.typeParams.names, fresh name ∧ name ∉ x.owner.typeParams := by
    rcases h.after.mem_allMethods_cases hd' ht' hx hopen with
      hown | ⟨_, parent', p', u', e, hsuper', hp', hget', hu', he, habstract, hover⟩
    · have hmember := h.isMember_of_new hd hd' hsuper hown (hkey ▸ hnew)
      have htame := h.after.methods d' hd' x (mem_visible.mpr ⟨hown, hmember.visible⟩)
      exact ⟨hmember.visible, fun name hn => ⟨htame.typeParams name hn, hmember.apart name hn⟩⟩
    · cases hsuper.symm.trans hsuper'
      have hparent : parent ∈ d'.supertypes := by simp [supertypes_of_superclass? hsuper]
      have hname := owner_name_of_mem_visible (h.after.sound.wellFormed_of_mem_classes hp') hget'
        hu' he
      have htame := h.after.tame_of_mem_visible h.freshNames hp' hu' e he
        (by simp [Method.isOpen, habstract])
      have hne := ne_of_allMethods ht' hparent
      have hstub := (h.after.outline_of_override h.freshNames hd' hsuper hne hname htame hover).1
      refine ⟨hstub.isHidden_eq_false (mem_visible.mp he).2, fun name hn => ?_⟩
      rw [hstub.owner]
      exact hstub.typeParams_spec h.freshNames htame name hn
  exact ⟨hspec.1, Method.outline_of_matchesContract h.freshNames hspec.2 hb
    (howner.trans ho.symm) hmatch⟩

/-! ## All classes -/

section Step

variable (h : Completes fresh s r) (hd' : d' ∈ r.classes) (ht' : r.allMethods d' = .ok t')
  (ih : ∀ parent ∈ d'.supertypes, ∀ p, r.get? parent.name = some p →
    ∃ u, r.allMethods p = .ok u ∧ (p ∈ r.classes → Completed s r p u))

include h hd' ht' ih

theorem settled_step : r.Settled d' := by
  have hget' := h.after.sound.get?_of_mem_classes hd'
  by_cases hn : d'.name = r.utility
  · exact h.after.sound.settled_utility (hn ▸ hget')
  obtain ⟨d, hget, hgains⟩ := h.gains.flip.exists_of_get? hget'
  have hf := hgains.frame
  have hk : d.kind = .namedClass := hf.kind.symm.trans (kind_of_mem_classes hd')
  have hkeys : ∀ key ∈ d.methods.keys, key ∈ d'.methods.keys := by
    rw [h.utility, hf.name] at hn
    obtain ⟨more, hmore, _⟩ := (hgains.members hk hn).methods
    intro key hkey
    rw [Table.keys, hmore, List.map_append]
    exact List.mem_append_left _ hkey
  obtain ⟨lists', hlists', _⟩ := exists_stubs_of_allMethods ht'
  refine (h.settled d (mem_of_get? hget) (by simp [hk])).of_stubsKept hf hkeys hlists' ?_
  intro parent hparent stubs stubs' hstubs hstubs'
  rcases parent_cases h.after.sound h.after.grounded h.after.implementing hd' hparent with
    hinterface | ⟨hsuper, q, hq, hgetq⟩
  · obtain ⟨e, he, hke⟩ := h.after.sound.hasInterface_iff.mp hinterface
    obtain ⟨e₀, he₀, hfe⟩ := h.frame.symm.exists_of_get? he
    exact h.stubsKept_of_hasInterface hf
      (h.before.sound.hasInterface_iff.mpr ⟨e₀, he₀, hfe.kind.trans hke⟩) hstubs hstubs'
  · obtain ⟨p, u, hgetp, hu, hmap⟩ := hstubs
    obtain ⟨p', u', hgetp', hu', hmap'⟩ := hstubs'
    cases hgetp'.symm.trans hgetq
    obtain ⟨u'', hu'', hc⟩ := ih parent hparent _ hgetq
    cases hu'.symm.trans hu''
    have hne := ne_of_allMethods ht' hparent
    exact h.stubsKept_of_superclass hd' hf hsuper hne hgetp hu hq hgetp' hu' (hc hq) hmap' hmap

theorem outlines_step (hs' : r.Settled d') (hd : s.get? d'.name = some d)
    (ht : s.allMethods d = .ok t) : ∀ a ∈ visible t, ∃ a' ∈ visible t', a'.outline = a.outline := by
  intro a ha
  obtain ⟨hat, hvisible⟩ := mem_visible.mp ha
  have hget' := h.after.sound.get?_of_mem_classes hd'
  obtain ⟨e', he', hgains⟩ := h.gains.exists_of_get? hd
  cases hget'.symm.trans he'
  have hf := hgains.frame
  have hk : d.kind = .namedClass := hf.kind.symm.trans (kind_of_mem_classes hd')
  have hdmem := h.before.sound.mem_classes_of_get? hd hk
  have hopen := (h.settled d (mem_of_get? hd) (by simp [hk])).isOpen_eq_false
    (h.before.sound.wellFormed_of_mem_classes hdmem) ht hat
  rcases h.before.mem_allMethods_cases hdmem ht hat hopen with
    hown | ⟨hnew, parent, p, u, e, hsuper, hp, hgetp, hu, he, _, hover⟩
  · obtain ⟨more, hmore, _⟩ :=
      visible_of_gains h.before.sound h.after.sound h.utility hd hget' hk hgains
    obtain ⟨rest, hrest⟩ := visible_allMethods ht'
    refine ⟨a, ?_, rfl⟩
    rw [hrest, hmore]
    exact List.mem_append_left _ (List.mem_append_left _ (mem_visible.mpr ⟨hown, hvisible⟩))
  · rw [← hf.superclass?] at hsuper
    have hparent : parent ∈ d'.supertypes := by simp [supertypes_of_superclass? hsuper]
    obtain ⟨lists', hlists', hmerge⟩ := exists_stubs_of_allMethods ht'
    obtain ⟨stubs', hmem, p', u', hgetp', hu', hmap'⟩ :=
      exists_right_of_forall₂ hlists' parent hparent
    obtain ⟨u'', hu'', hc⟩ := ih parent hparent p' hgetp'
    cases hu'.symm.trans hu''
    obtain ⟨q', hq', hfp⟩ := h.frame.exists_of_get? hgetp
    cases hgetp'.symm.trans hq'
    have hp' := h.after.sound.mem_classes_of_get? hgetp' (hfp.kind.trans (kind_of_mem_classes hp))
    obtain ⟨b, hb, houtline, hsignature, hbtame, hbvisible, hbowner⟩ := h.exists_stub hd' hf hsuper
      (ne_of_allMethods ht' hparent) hgetp hu hp' hgetp' hu' (hc hp') hmap' he hover
    -- The stub is in the table, or a method of the same contract is there instead.
    obtain ⟨x, hx, hcases⟩ := exists_of_mem_stubs hmerge b (List.mem_flatten_of_mem hmem hb)
    have hxt := mem_values_of_get? hx
    rcases hcases with rfl | hmatch
    · exact ⟨x, mem_visible.mpr ⟨hxt, hbvisible⟩, houtline⟩
    · obtain ⟨hxvisible, hxoutline⟩ := h.outline_of_matchesContract hd hd' hsuper hs' ht' hxt hbtame
        hbowner (hsignature ▸ hnew) hmatch
      exact ⟨x, mem_visible.mpr ⟨hxt, hxvisible⟩, hxoutline.trans houtline⟩

end Step

/-- **All classes are completed.** -/
theorem completed (h : Completes fresh s r) (hd' : d' ∈ r.classes)
    (ht' : r.allMethods d' = .ok t') : Completed s r d' t' := by
  refine allMethods_induction (motive := fun d t => d ∈ r.classes → Completed s r d t) ?_ ht' hd'
  intro d t ht ih hd
  have hs := h.settled_step hd ht ih
  exact ⟨hs, fun _ _ hget hu => h.outlines_step hd ht ih hs hget hu⟩

/-- Anonymous classes inherit from interfaces only, and stay settled. -/
theorem settled_anonymous (h : Completes fresh s r) (hd' : d' ∈ r.anonymous) : r.Settled d' := by
  have hget' := h.after.sound.get?_of_mem (List.mem_append_right _ hd')
  have hk' := h.after.sound.unnamed d' hd'
  obtain ⟨d, hget, hgains⟩ := h.gains.flip.exists_of_get? hget'
  have hk : d.kind = .anonymousClass := hgains.frame.kind.symm.trans hk'
  have hmethods := hgains.methods (by simp [hk])
  have hmem : d ∈ s.anonymous := by
    refine (List.mem_append.mp (mem_of_get? hget)).resolve_left fun hmem => ?_
    exact h.before.sound.named d hmem hk
  refine (h.settled d (mem_of_get? hget) (by simp [hk])).of_agreesOn h.agreesOn hgains.frame
    (h.before.grounded.anonymous d hmem) fun key hkey => ?_
  rw [hmethods]
  exact hkey

end Completes

end Registry

end FluentGrammar
