import FluentGrammar.Proofs.Hygiene
import FluentGrammar.Proofs.InheritedStubs

/-!
# Obligations of a class that gains interfaces

The open methods in the table of a class are its obligations: a body or an abstract declaration has
to be found for each. What is new with an interface that the class gains is implemented at once, so
it is no obligation. The interfaces that are dropped as redundant bring none to light either:
whatever else stands under a signature comes from the superclass, which stays, or from an interface,
and then it was open before.

* `obligations`: the signatures of the open methods in a table.
* `Method.Forwards`: a method that converts the receiver and forwards the call.
* `Gain.forwards`: the methods that come with an interface.
* `Gain.obligations_subset`: one interface adds no obligation.
* **`closeClass_adds_no_obligation`**: the closure of a class adds no obligation.
-/

namespace FluentGrammar

/-- The signatures under which a table has open methods. -/
def obligations (t : Table Method) : List String :=
  (t.entries.filter (·.2.isOpen)).map Prod.fst

theorem mem_obligations_iff {t : Table Method} {key : String} :
    key ∈ obligations t ↔ ∃ m, t.get? key = some m ∧ m.isOpen = true := by
  simp only [obligations, List.mem_map, List.mem_filter, Table.get?_eq_some_iff]
  constructor
  · rintro ⟨⟨_, m⟩, ⟨hm, ho⟩, rfl⟩
    exact ⟨m, hm, ho⟩
  · rintro ⟨m, hm, ho⟩
    exact ⟨(key, m), ⟨hm, ho⟩, rfl⟩

namespace Registry

variable {r : Registry} {owner : Owner} {via : TypeExpr} {stubs : List Method}

/-- The name of an interface. -/
def NamesInterface (r : Registry) (name : String) : Prop :=
  ∃ d, r.get? name = some d ∧ d.isInterface = true

instance : DecidablePred r.NamesInterface := fun name =>
  decidable_of_iff (∃ d ∈ r.get? name, d.isInterface = true) Iff.rfl

/-- The obligations of the definition of a name. -/
def obligationsOf (r : Registry) (name : String) : Except ModelFault (List String) := do
  let d ← r.require name name
  return obligations (← r.allMethods d)

theorem obligationsOf_eq_ok_iff {name : String} {keys : List String} :
    r.obligationsOf name = .ok keys ↔ ∃ d table, r.get? name = some d ∧
      r.allMethods d = .ok table ∧ obligations table = keys := by
  simp only [obligationsOf, Except.bind_eq_ok_iff, Except.pure_eq_ok_iff, require_eq_ok_iff]
  constructor
  · rintro ⟨d, hd, table, ht, rfl⟩
    exact ⟨d, table, hd, ht, rfl⟩
  · rintro ⟨d, table, hd, ht, rfl⟩
    exact ⟨d, hd, table, ht, rfl⟩

theorem StubsOf.isOpen (h : r.StubsOf owner via stubs) (hi : r.NamesInterface via.name)
    (hheld : ∀ n e, r.get? n = some e → e.HoldsMethods) (hk : owner.kind = .namedClass) :
    ∀ m ∈ stubs, m.isOpen = true := by
  intro m hm
  obtain ⟨e, inherited, he, hinherited, hstubs⟩ := h
  obtain ⟨e', he', hinterface⟩ := hi
  cases he.symm.trans he'
  obtain ⟨source, hsource, hstub⟩ := Except.exists_of_mem_mapM hstubs m hm
  obtain ⟨howner, habstract⟩ :=
    owner_of_mem_allMethods (hheld _ e he) hinherited (mem_visible.mp hsource).1
  have hkind : source.owner.kind = .interface := by
    rw [howner]
    exact of_decide_eq_true hinterface
  rw [(Method.stub_eq_ok hstub).1.isOpen_eq (by simp [hk]) habstract, habstract, hkind]
  rfl

end Registry

namespace Method

variable {m b b' : Method}

theorem reown_eq_self {owner : Owner} (ho : m.owner = owner)
    (hp : m.isPublic = owner.kind.isPublic m.access)
    (ha : m.isAbstract = owner.kind.isAbstract m.modifiers) : m.reown owner = m := by
  have horigin : (if m.origin = m.owner.name then owner.name else m.origin) = m.origin := by
    rw [ho]
    split
    · exact Eq.symm ‹_›
    · rfl
  rw [reown, horigin, ← hp, ← ha, ← ho]

theorem map_reown_eq_self {owner : Owner} {ms : List Method} (h : ∀ m ∈ ms, m.reown owner = m) :
    ms.map (·.reown owner) = ms := by
  conv_rhs => rw [← List.map_id ms]
  exact List.map_congr_left h

theorem reown_of_implement {target : Owner} {ancestor : TypeExpr} {body : String}
    (hk : target.kind = .namedClass) (hstub : m.stub target ancestor = .ok b)
    (h : b.implement body = .ok b') : b'.reown target = b' := by
  have hpublic : b.isPublic = target.kind.isPublic b.access := by
    unfold stub at hstub
    simp only [Except.bind_eq_ok_iff, Except.pure_eq_ok_iff] at hstub
    obtain ⟨_, _, _, _, _, _, _, _, _, _, rfl⟩ := hstub
    rfl
  have howner := (stub_eq_ok hstub).1.owner
  unfold implement at h
  split at h
  · obtain rfl := Except.ok.inj h
    refine reown_eq_self howner hpublic ?_
    simp [hk, Kind.isAbstract, OrderedSet.mem_erase]
  · cases h

theorem implement_spec {body : String} (h : b.implement body = .ok b') :
    b'.state = .implemented ∧ b'.name = b.name ∧ b'.signature = b.signature := by
  unfold implement at h
  split at h
  · obtain rfl := Except.ok.inj h
    exact ⟨rfl, rfl, rfl⟩
  · cases h

/-- The method `m` is the stub, on the class `d` with the interface to which a conversion leads from
one of the `ancestors`, of a method in the table of that interface; its body converts the receiver
and forwards the call. -/
def Forwards (r : Registry) (d : Definition) (utility : String) (conversions : List Conversion)
    (ancestors : List TypeExpr) (m : Method) : Prop :=
  ∃ c ∈ conversions, ∃ via s target e table source stub,
    via.name ∈ ancestors.map TypeExpr.name ∧ c.typeParams.infer c.source via = .ok s ∧
    c.target.replace s = .ok target ∧ r.get? target.name = some e ∧ e.isInterface = true ∧
    r.allMethods e = .ok table ∧ source ∈ table.values ∧ source.name = m.name ∧
    (r.modify d.name (·.addInterface target)).overrideFor (d.addInterface target) source =
      .ok stub ∧
    stub.implement (stub.forward (utility ++ "." ++ c.method.name ++ "(this)." ++ m.name) none) =
      .ok m

theorem Forwards.mono {r : Registry} {d : Definition} {utility : String}
    {conversions : List Conversion} {types types' : List TypeExpr}
    (hsub : ∀ n ∈ types.map TypeExpr.name, n ∈ types'.map TypeExpr.name)
    (h : m.Forwards r d utility conversions types) : m.Forwards r d utility conversions types' := by
  obtain ⟨c, hc, via, s, target, e, table, source, stub, hvia, h⟩ := h
  exact ⟨c, hc, via, s, target, e, table, source, stub, hsub _ hvia, h⟩

end Method

/-! ## One interface -/

section Step

variable {base r r₁ r' : Registry} {name utility : String} {d₀ d d' : Definition}
  {types₀ types types₁ types' : List TypeExpr} {via target : TypeExpr} {c : Conversion}
  {conversions : List Conversion} {table table₁ : Table Method} {methods : List Method}

theorem exists_of_mem_convertedMethods {conversion : String} {known : List String}
    (h : convertedMethods utility conversion known table = .ok methods) {m : Method}
    (hm : m ∈ methods) : ∃ b ∈ table.values, b.isOpen = true ∧ b.signature ∉ known ∧
      b.implement (b.forward (utility ++ "." ++ conversion ++ "(this)." ++ b.name) none) =
        .ok m := by
  obtain ⟨b, hb, himplement⟩ := Except.exists_of_mem_mapM h m hm
  obtain ⟨hmem, hcond⟩ := List.mem_filter.mp hb
  simp only [Bool.and_eq_true, decide_eq_true_eq] at hcond
  exact ⟨b, hmem, hcond.1, hcond.2, himplement⟩

theorem mem_convertedMethods_of_isOpen {conversion : String} {known : List String}
    (h : convertedMethods utility conversion known table = .ok methods) {b : Method}
    (hb : b ∈ table.values) (ho : b.isOpen = true) (hk : b.signature ∉ known) :
    ∃ m ∈ methods, m.signature = b.signature := by
  obtain ⟨m, hm, himplement⟩ := exists_right_of_forall₂ (Except.mapM_eq_ok_iff.mp h) b
    (List.mem_filter.mpr ⟨hb, by simp [ho, hk]⟩)
  exact ⟨m, hm, (Method.implement_spec himplement).2.2⟩

/-- The class `d` gains the interface `target`: it takes it up, becomes rid of what is redundant
then, and gets the methods that are new and open. -/
structure Gain (base : Registry) (name utility : String) (target : TypeExpr) (c : Conversion)
    (r : Registry) (d : Definition) (types : List TypeExpr) (table : Table Method)
    (types₁ : List TypeExpr) (table₁ : Table Method) (methods : List Method)
    (r' : Registry) (d' : Definition) (types' : List TypeExpr) : Prop where
  start : ClassAt base name r d types
  known : r.allMethods d = .ok table
  fresh : target.name ∉ types.map TypeExpr.name
  other : target.name ≠ name
  taken : ClassAt base name (r.modify name (·.addInterface target)) (d.addInterface target) types₁
  extended : (r.modify name (·.addInterface target)).allMethods (d.addInterface target) = .ok table₁
  converted : convertedMethods utility c.method.name table.keys table₁ = .ok methods
  stop : ClassAt base name r' d' types'
  dropped : ∃ redundant paths,
    (r.modify name (·.addInterface target)).redundantInterfaces (d.addInterface target) =
      .ok redundant ∧
    d'.shape = (((d.addInterface target).addPaths paths).removeInterfaces
      (redundant.map TypeExpr.name)).shape
  enlarged : d.Enlarged (methods.map (·.reown d.owner)) d'

theorem gain_of_gainInterface (hr : ClassAt base name r d types)
    (hn : target.name ∉ types.map TypeExpr.name) (hne : target.name ≠ name) {gained : List TypeExpr}
    (h : gainInterface name utility via target c r = .ok gained r') :
    ∃ table types₁ table₁ methods d' types',
      Gain base name utility target c r d types table types₁ table₁ methods r' d' types' ∧
      gained = newAncestors types types₁ := by
  obtain ⟨table, table₁, methods, d', ht, ht₁, hmethods, hd', _, henlarged⟩ :=
    gainInterface_enlarged hr h
  obtain ⟨types₁, redundant, e, types', hr₁, hgained, hred, hr', hshape⟩ := gainInterface_cases hr h
  cases hd'.symm.trans hr'.found
  exact ⟨table, types₁, table₁, methods, d', types', ⟨hr, ht, hn, hne, hr₁, ht₁, hmethods, hr',
    ⟨redundant, _, hred, hshape⟩, henlarged⟩, hgained⟩

theorem ClassAt.overrideFor_addInterface (hr : ClassAt base name r d types)
    (hn : target.name ∉ types.map TypeExpr.name) (hne : target.name ≠ name)
    (hr₁ : ClassAt base name r₁ (d.addInterface target) types₁) {m : Method}
    (hm : m.owner.name = target.name) :
    r₁.overrideFor (d.addInterface target) m = m.stub d.owner target := by
  obtain ⟨_, hfind⟩ := hr.find?_addInterface hr₁ hn
  rw [Registry.overrideFor, hr₁.ancestors, Registry.stubFor_of_find? _ (hm ▸ hfind),
    (d.enlarged_addInterface target).owner hr.named]
  rw [hr₁.name_eq, hm]
  exact hne.symm

namespace Gain

variable (g : Gain base name utility target c r d types table types₁ table₁ methods r' d' types')
  (hheld : ∀ n e, base.get? n = some e → e.HoldsMethods)
include g

theorem exists_taken (h₀ : ClassAt base name base d₀ types₀)
    (hn₀ : target.name ∉ types₀.map TypeExpr.name) :
    ∃ us, ClassAt base name (base.modify name (·.addInterface target)) (d₀.addInterface target)
      us := by
  have hvia := g.taken.ancestorsVia
  rw [g.start.supertypes_addInterface g.fresh] at hvia
  obtain ⟨_, us, _, hus, _⟩ := Registry.ancestorsVia_append_eq_ok_iff.mp hvia
  have hall := Registry.ancestorsVia_append_eq_ok_iff.mpr ⟨types₀, us, h₀.ancestorsVia, hus, rfl⟩
  rw [← h₀.supertypes_addInterface hn₀] at hall
  exact ⟨_, h₀.modify (fun e he => (Definition.name_addInterface target).trans he)
    (Definition.isNamedClass_addInterface target h₀.named) hall⟩

include hheld

/-- What is new in the table with the interface is the stub of a method in the table of the
interface. -/
theorem exists_source (hkeys : ∀ e ∈ d.methods.entries, e.1 = e.2.signature) {b : Method}
    (hb : b ∈ table₁.values) (hnew : b.signature ∉ table.keys) :
    ∃ e inherited source, base.get? target.name = some e ∧ base.allMethods e = .ok inherited ∧
      source ∈ inherited.values ∧ source.owner.name = target.name ∧
      source.stub d.owner target = .ok b := by
  obtain ⟨stubs, ⟨e, inherited, he, hinherited, hstubs⟩, hget⟩ :=
    g.start.get?_addInterface hheld g.taken g.fresh g.known g.extended
  have hkey : table₁.get? b.signature = some b := by
    obtain ⟨entry, hentry, rfl⟩ := List.mem_map.mp hb
    have hsig := Registry.key_eq_signature (d := d.addInterface target) (by simpa using hkeys)
      g.extended entry hentry
    rw [← hsig]
    exact Table.get?_eq_some_iff.mpr hentry
  rw [hget, Table.get?_eq_none_iff.mpr hnew, Option.none_or] at hkey
  obtain ⟨source, hsource, hstub⟩ :=
    Except.exists_of_mem_mapM hstubs b (List.mem_of_find?_eq_some hkey)
  have hmem := (Registry.mem_visible.mp hsource).1
  refine ⟨e, inherited, source, he, hinherited, hmem, ?_, hstub⟩
  rw [(Registry.owner_of_mem_allMethods (hheld _ e he) hinherited hmem).1]
  exact Registry.name_of_get? he

/-- **What comes with an interface** are stubs of methods in its table, which forward their calls.
-/
theorem forwards (h₀ : ClassAt base name base d₀ types₀) (howner : d.owner = d₀.owner)
    (hn₀ : target.name ∉ types₀.map TypeExpr.name)
    (hkeys : ∀ e ∈ d.methods.entries, e.1 = e.2.signature) (hi : base.NamesInterface target.name)
    (hc : c ∈ conversions) (hvia : via.name ∈ types.map TypeExpr.name) {s : Substitution}
    (hs : c.typeParams.infer c.source via = .ok s) (htarget : c.target.replace s = .ok target) :
    ∀ m ∈ methods, m.reown d.owner = m ∧ m.state = .implemented ∧
      m.Forwards base d₀ utility conversions types := by
  intro m hm
  obtain ⟨b, hb, _, hnew, himplement⟩ := exists_of_mem_convertedMethods g.converted hm
  obtain ⟨hstate, hname, _⟩ := Method.implement_spec himplement
  obtain ⟨e, inherited, source, he, hinherited, hsource, hsourceOwner, hstub⟩ :=
    g.exists_source hheld hkeys hb hnew
  obtain ⟨e', he', hinterface⟩ := hi
  cases he.symm.trans he'
  have hkind : d.owner.kind = .namedClass := of_decide_eq_true g.start.named
  refine ⟨Method.reown_of_implement hkind hstub himplement, hstate, c, hc, via, s, target, e,
    inherited, source, b, hvia, hs, htarget, he, hinterface, hinherited, hsource, ?_, ?_,
    hname ▸ himplement⟩
  · rw [hname, (Method.stub_eq_ok hstub).1.name]
  · obtain ⟨us, hus⟩ := g.exists_taken h₀ hn₀
    rw [h₀.name_eq, h₀.overrideFor_addInterface hn₀ g.other hus hsourceOwner, ← howner, hstub]

/-- What an interface supplies that stays was there before the redundant interfaces were dropped, as
an open stub of the same signature. -/
theorem exists_open_of_kept (hb : base.Unshadowed)
    (hi : ∀ i ∈ (d.addInterface target).interfaces, base.NamesInterface i.name)
    {beside₁ beside' : List (List Method)}
    (hbeside₁ : List.Forall₂ (base.Supplies d.owner types₁) (d.addInterface target).interfaces
      beside₁)
    (hbeside' : List.Forall₂ (base.Supplies d.owner types') d'.interfaces beside')
    {key : String} {m : Method} (hm : beside'.flatten.find? (·.signature = key) = some m) :
    ∃ m₁, beside₁.flatten.find? (·.signature = key) = some m₁ ∧ m₁.isOpen = true := by
  obtain ⟨redundant, paths, hred, hshape⟩ := g.dropped
  obtain ⟨hinterfaces, _⟩ := Definition.interfaces_of_dropped g.taken.named hshape
  obtain ⟨stubs, hstubs, hmem⟩ := List.mem_flatten.mp (List.mem_of_find?_eq_some hm)
  obtain ⟨i, him, via, hvia, hof⟩ := exists_left_of_forall₂ hbeside' stubs hstubs
  rw [hinterfaces, List.mem_filter, decide_eq_true_eq] at him
  have hfind := g.taken.find?_removeRedundant hb hred g.stop hshape him.1 him.2
  obtain ⟨stubs₁, hstubs₁, hs₁⟩ := exists_right_of_forall₂ hbeside₁ i him.1
  obtain rfl := base.supplies_unique d.owner types₁ hs₁ ⟨via, hfind ▸ hvia, hof⟩
  have hsig : m.signature = key := by simpa using List.find?_some hm
  have hsome : (beside₁.flatten.find? (·.signature = key)).isSome = true :=
    List.find?_isSome.mpr ⟨m, List.mem_flatten.mpr ⟨_, hstubs₁, hmem⟩, decide_eq_true hsig⟩
  obtain ⟨m₁, hm₁⟩ := Option.isSome_iff_exists.mp hsome
  refine ⟨m₁, hm₁, ?_⟩
  obtain ⟨stubs₂, hstubs₂, hmem₂⟩ := List.mem_flatten.mp (List.mem_of_find?_eq_some hm₁)
  obtain ⟨i₂, hi₂, via₂, hvia₂, hof₂⟩ := exists_left_of_forall₂ hbeside₁ stubs₂ hstubs₂
  have hname : via₂.name = i₂.name := by simpa using List.find?_some hvia₂
  exact hof₂.isOpen (hname ▸ hi i₂ hi₂) hheld (of_decide_eq_true g.start.named) m₁ hmem₂

/-- What is open with the interface was open before, unless the class has got it implemented. -/
theorem exists_open_of_extended (hstored : methods.map (·.reown d.owner) = methods) {key : String}
    {m₁ : Method} (hm₁ : table₁.get? key = some m₁) (hsig : m₁.signature = key)
    (ho₁ : m₁.isOpen = true) (hown : d'.methods.get? key = none) :
    ∃ m₀, table.get? key = some m₀ ∧ m₀.isOpen = true := by
  obtain ⟨stubs, _, hadd⟩ := g.start.get?_addInterface hheld g.taken g.fresh g.known g.extended
  cases hknown : table.get? key with
  | some m₀ =>
    rw [hadd, hknown, Option.some_or, Option.some_inj] at hm₁
    exact ⟨m₀, rfl, hm₁ ▸ ho₁⟩
  | none =>
    obtain ⟨m₂, hm₂, hsig₂⟩ := mem_convertedMethods_of_isOpen g.converted
      (Registry.mem_values_of_get? hm₁) ho₁ (hsig ▸ Table.get?_eq_none_iff.mp hknown)
    have hkey := g.enlarged.mem_keys (hstored.symm ▸ hm₂)
    rw [hsig₂, hsig] at hkey
    exact absurd hkey (Table.get?_eq_none_iff.mp hown)

/-- **One interface adds no obligation.** -/
theorem obligations_subset (hb : base.Unshadowed)
    (hi : ∀ i ∈ (d.addInterface target).interfaces, base.NamesInterface i.name)
    (hclosed : ∀ m ∈ methods, m.reown d.owner = m ∧ m.state = .implemented) {table' : Table Method}
    (ht' : r'.allMethods d' = .ok table') : obligations table' ⊆ obligations table := by
  intro key hkey
  obtain ⟨m, hm, ho⟩ := mem_obligations_iff.mp hkey
  refine mem_obligations_iff.mpr ?_
  have henlarged := d.enlarged_addInterface target
  have howner₁ := henlarged.owner g.start.named
  have howner' := g.enlarged.owner g.start.named
  obtain ⟨redundant, paths, _, hshape⟩ := g.dropped
  obtain ⟨_, hsuper⟩ := Definition.interfaces_of_dropped g.taken.named hshape
  have hstored := Method.map_reown_eq_self fun m hm => (hclosed m hm).1
  obtain ⟨above, beside, habove, _, hget⟩ := g.start.exists_stubs_of_superclass hheld g.known
  obtain ⟨above₁, beside₁, habove₁, hbeside₁, hget₁⟩ :=
    g.taken.exists_stubs_of_superclass hheld g.extended
  obtain ⟨above', beside', habove', hbeside', hget'⟩ :=
    g.stop.exists_stubs_of_superclass hheld ht'
  -- The superclass supplies the same stubs all the time.
  rw [howner₁, henlarged.superclass] at habove₁
  rw [howner', hsuper, henlarged.superclass] at habove'
  obtain rfl : above₁ = above := (base.stubsOf_unique d.owner).forall₂ habove₁ habove
  obtain rfl : above' = above₁ := (base.stubsOf_unique d.owner).forall₂ habove' habove
  rw [howner₁] at hbeside₁
  rw [howner'] at hbeside'
  cases hown : d'.methods.get? key with
  | some x =>
    rw [hget', hown, Option.some_or, Option.some_or, Option.some_inj] at hm
    subst hm
    refine ⟨x, ?_, ho⟩
    rcases g.enlarged.get?_cases hown with hold | hnew
    · exact Registry.get?_allMethods_of_own g.known hold
    · rw [hstored] at hnew
      exact absurd ho (by simp [Method.isOpen, (hclosed x hnew).2])
  | none =>
    have hold : d.methods.get? key = none :=
      Option.eq_none_iff_forall_ne_some.mpr fun x hx => by
        simp [g.enlarged.get?_of_get? hx] at hown
    rw [hget', hown, Option.none_or] at hm
    cases hfirst : above'.flatten.find? (·.signature = key) with
    | some x =>
      rw [hfirst, Option.some_or, Option.some_inj] at hm
      exact ⟨x, by rw [hget, hold, Option.none_or, hfirst, Option.some_or], hm ▸ ho⟩
    | none =>
      rw [hfirst, Option.none_or] at hm
      obtain ⟨m₁, hm₁, ho₁⟩ := g.exists_open_of_kept hheld hb hi hbeside₁ hbeside' hm
      have htable₁ : table₁.get? key = some m₁ := by
        rw [hget₁, Definition.methods_addInterface, hold, Option.none_or, hfirst, Option.none_or,
          hm₁]
      exact g.exists_open_of_extended hheld hstored htable₁ (by simpa using List.find?_some hm₁) ho₁
        hown

end Gain

end Step

/-! ## The whole closure -/

/-- Wherever the conversion is applied, it leads to an interface. -/
def Conversion.LeadsToInterfaces (r : Registry) (c : Conversion) : Prop :=
  ∀ via s target, c.typeParams.infer c.source via = .ok s → c.target.replace s = .ok target →
    r.NamesInterface target.name

theorem Conversion.leadsToInterfaces {r : Registry} {c : Conversion} (hs : c.source.Written)
    (hc : isCapture c.target.name = false) (hn : c.target.name ∉ c.typeParams.names)
    (hi : r.NamesInterface c.target.name) : c.LeadsToInterfaces r := by
  intro via s target hinfer htarget
  exact TypeExpr.name_of_replace (get?_eq_none_of_infer hs hc hn hinfer) htarget ▸ hi

section Run

variable {base r r' : Registry} {name utility : String} {d₀ d d' : Definition}
  {types₀ types gained : List TypeExpr} {before after : Table Method} {added : List Method}
  {via : TypeExpr} {c : Conversion} {conversions : List Conversion}

/-- The class `d` has gained interfaces since it was `d₀`: it has no other obligations than those in
`before`, and its new methods forward their calls. -/
structure Discharged (base : Registry) (name utility : String) (conversions : List Conversion)
    (d₀ : Definition) (types₀ : List TypeExpr) (before : Table Method) (r : Registry)
    (d : Definition) (types : List TypeExpr) (added : List Method) : Prop where
  classAt : ClassAt base name r d types
  enlarged : d₀.Enlarged added d
  names : ∀ n ∈ types₀.map TypeExpr.name, n ∈ types.map TypeExpr.name
  interfaces : ∀ i ∈ d.interfaces, base.NamesInterface i.name
  forwards : ∀ m ∈ added, m.state = .implemented ∧ m.Forwards base d₀ utility conversions types
  obligations : ∀ table, r.allMethods d = .ok table →
    FluentGrammar.obligations table ⊆ FluentGrammar.obligations before

theorem Discharged.applyConversion (hb : base.Unshadowed)
    (hheld : ∀ n e, base.get? n = some e → e.HoldsMethods)
    (h₀ : ClassAt base name base d₀ types₀) (hconv : c.LeadsToInterfaces base)
    (hc : c ∈ conversions)
    (h : Discharged base name utility conversions d₀ types₀ before r d types added)
    (hvia : via.name ∈ types.map TypeExpr.name)
    (hrun : applyConversion name utility via c r = .ok gained r') :
    ∃ d' types' added',
      Discharged base name utility conversions d₀ types₀ before r' d' types' added' ∧
      (∀ n ∈ types.map TypeExpr.name, n ∈ types'.map TypeExpr.name) ∧
      ∀ t ∈ gained, t.name ∈ types'.map TypeExpr.name := by
  rcases applyConversion_cases h.classAt hrun with
    ⟨rfl, rfl, _⟩ | ⟨s, target, hs, htarget, hself, hnew, hgain⟩
  · exact ⟨d, types, added, h, fun _ => id, by simp⟩
  obtain ⟨table, types₁, table₁, methods, d', types', g, _⟩ :=
    gain_of_gainInterface h.classAt hnew hself hgain
  -- Names of ancestors only grow, so the target was new to the class from the start.
  obtain ⟨e, us, he, hnames, hgained, _⟩ := gainInterface_spec hb h.classAt hnew hgain
  cases g.stop.found.symm.trans he.found
  cases g.stop.ancestors.symm.trans he.ancestors
  have hgrow : ∀ n ∈ types.map TypeExpr.name, n ∈ types'.map TypeExpr.name :=
    fun n hn => (hnames n).mpr (.inl hn)
  have hinterface := hconv via s target hs htarget
  have hkeys : ∀ e ∈ d.methods.entries, e.1 = e.2.signature := by
    intro e hm
    rw [h.enlarged.methods] at hm
    rcases List.mem_append.mp hm with hm | hm
    · exact (hheld name d₀ h₀.found e hm).1
    · obtain ⟨m, _, rfl⟩ := List.mem_map.mp hm
      rfl
  have hforwards := g.forwards hheld h₀ (h.enlarged.owner h₀.named)
    (fun hn => hnew (h.names _ hn)) hkeys hinterface hc hvia hs htarget
  have hstored := Method.map_reown_eq_self fun m hm => (hforwards m hm).1
  have htaken : ∀ i ∈ (d.addInterface target).interfaces, base.NamesInterface i.name := by
    intro i hi
    rcases List.mem_append.mp (d.interfaces_addInterface_subset target h.classAt.named hi) with
      hi | hi
    · exact h.interfaces i hi
    · exact List.mem_singleton.mp hi ▸ hinterface
  obtain ⟨redundant, paths, _, hshape⟩ := g.dropped
  have hkept := (Definition.interfaces_of_dropped g.taken.named hshape).1
  refine ⟨d', types', added ++ methods, ⟨g.stop, ?_, fun n hn => hgrow n (h.names n hn), ?_, ?_,
    fun table' ht' => ?_⟩, hgrow, ?_⟩
  · exact h.enlarged.trans (hstored ▸ g.enlarged)
  · intro i hi
    rw [hkept] at hi
    exact htaken i (List.mem_of_mem_filter hi)
  · intro m hm
    rcases List.mem_append.mp hm with hm | hm
    · exact ⟨(h.forwards m hm).1, (h.forwards m hm).2.mono hgrow⟩
    · exact ⟨(hforwards m hm).2.1, (hforwards m hm).2.2.mono hgrow⟩
  · have hclosed := fun m hm => And.intro (hforwards m hm).1 (hforwards m hm).2.1
    exact List.Subset.trans (g.obligations_subset hheld hb htaken hclosed ht')
      (h.obligations table g.known)
  · exact fun t ht => ((hgained t.name).mp (List.mem_map_of_mem ht)).1

/-- **The closure of a class adds no obligation.** What is open afterwards was open before, and the
new methods are implemented: they convert the receiver and forward the call to a method of the
interface that the conversion leads to. -/
theorem closeClass_adds_no_obligation (hr : r.Unshadowed)
    (hheld : ∀ n e, r.get? n = some e → e.HoldsMethods) (hd : r.get? name = some d)
    (hc : d.isNamedClass = true) (hi : ∀ i ∈ d.interfaces, r.NamesInterface i.name)
    (hconv : ∀ c ∈ conversions, c.LeadsToInterfaces r)
    (h : closeClass name utility conversions r = .ok () r')
    (hbefore : r.allMethods d = .ok before) (hd' : r'.get? name = some d')
    (hafter : r'.allMethods d' = .ok after) :
    obligations after ⊆ obligations before ∧ ∃ ancestors, ∃ added : List Method,
      r'.ancestors d' = .ok ancestors ∧
      d'.methods.entries = d.methods.entries ++ added.map (fun m => (m.signature, m)) ∧
      ∀ m ∈ added, m.state = .implemented ∧ m.Forwards r d utility conversions ancestors := by
  obtain ⟨e, types, he, htypes, _⟩ := closeClass_eq_ok_iff.mp h
  cases hd.symm.trans he
  have hstart : ClassAt r name r d types := ⟨.refl name r, hd, hc, htypes⟩
  have hrun : ∃ e types' added,
      Discharged r name utility conversions d types before r' e types' added := by
    refine closeClass_induction
      (P := fun s => ∃ e types' added,
        Discharged r name utility conversions d types before s e types' added)
      (Q := fun s t => s.HasAncestor name t.name) hd htypes ?_ ?_ ?_ h
    · refine ⟨d, types, [], hstart, .refl d, fun _ => id, hi, by simp, fun table ht => ?_⟩
      cases hbefore.symm.trans ht
      exact List.Subset.refl _
    · exact fun t ht => ⟨d, types, hd, htypes, List.mem_map_of_mem ht⟩
    · rintro via c hmem s s' gained ⟨e, us, added, hs⟩ ⟨e₁, us₁, he₁, hus₁, hvia⟩ hstep
      cases hs.classAt.found.symm.trans he₁
      cases hs.classAt.ancestors.symm.trans hus₁
      obtain ⟨e', us', added', hs', hgrow, hgained⟩ :=
        hs.applyConversion hr hheld hstart (hconv c hmem) hmem hvia hstep
      refine ⟨⟨e', us', added', hs'⟩, ?_, fun t ht =>
        ⟨e', us', hs'.classAt.found, hs'.classAt.ancestors, hgained t ht⟩⟩
      rintro t ⟨e₂, us₂, he₂, hus₂, ht⟩
      cases hs.classAt.found.symm.trans he₂
      cases hs.classAt.ancestors.symm.trans hus₂
      exact ⟨e', us', hs'.classAt.found, hs'.classAt.ancestors, hgrow _ ht⟩
  obtain ⟨e, ancestors, added, hdone⟩ := hrun
  cases hd'.symm.trans hdone.classAt.found
  exact ⟨hdone.obligations after hafter, ancestors, added, hdone.classAt.ancestors,
    hdone.enlarged.methods, hdone.forwards⟩

end Run

/-- The class implements `A<Foo>`, and a conversion leads from `A<T>` to `B<T>`. Each of the
interfaces has a method, as has `Base`, from which `B` inherits. -/
def forwardingModel : Registry :=
  let method := fun (owner : Owner) (name : String) (params : List TypeExpr) =>
    Method.make owner name (.named "void") (params.map fun t => ⟨t, "x", ∅, false⟩)
  let r := closureModel [("A", ["T"], []), ("Base", [], []), ("B", ["T"], [.named "Base"])]
    [.generic "A" [.plain (.named "Foo")]]
  let r := r.modify "A" fun e => e.withMethod (method e.owner "size" [])
  let r := r.modify "Base" fun e => e.withMethod (method e.owner "run" [])
  r.modify "B" fun e => e.withMethod (method e.owner "accept" [.named "T"])

@[inherit_doc forwardingModel]
def forwardingConversion : Conversion :=
  conversionOf ["T"] (.generic "A" [.plain (.named "T")]) (.generic "B" [.plain (.named "T")])

/-- The class still has to have `size`, and gets `accept` and `run` implemented. -/
theorem closeClass_adds_no_obligation_forwarding :
    forwardingModel.Unshadowed ∧
    (∀ n e, forwardingModel.get? n = some e → e.HoldsMethods) ∧
    forwardingConversion.LeadsToInterfaces forwardingModel ∧
    ∃ r' d d' before after, forwardingModel.get? "C" = some d ∧ d.isNamedClass = true ∧
      (∀ i ∈ d.interfaces, forwardingModel.NamesInterface i.name) ∧
      closeClass "C" "Forms" [forwardingConversion] forwardingModel = .ok () r' ∧
      forwardingModel.allMethods d = .ok before ∧ r'.get? "C" = some d' ∧
      r'.allMethods d' = .ok after ∧ obligations before = ["size()"] ∧
      obligations after ⊆ obligations before ∧ d'.methods.keys = ["accept(Foo)", "run()"] ∧
      ∃ ancestors, ∃ added : List Method, r'.ancestors d' = .ok ancestors ∧
        d'.methods.entries = d.methods.entries ++ added.map (fun m => (m.signature, m)) ∧
        ∀ m ∈ added, m.state = .implemented ∧
          m.Forwards forwardingModel d "Forms" [forwardingConversion] ancestors := by
  have hr : forwardingModel.Unshadowed := by decide +kernel
  have hheld : ∀ n e, forwardingModel.get? n = some e → e.HoldsMethods := by
    have hall : ∀ e ∈ forwardingModel.definitions ++ forwardingModel.anonymous, e.HoldsMethods := by
      decide +kernel
    exact fun n e he => hall e (List.mem_of_find?_eq_some he)
  have hconv : forwardingConversion.LeadsToInterfaces forwardingModel :=
    Conversion.leadsToInterfaces (by decide +kernel) (by decide +kernel) (by decide +kernel)
      (by decide +kernel)
  obtain ⟨d, before, hd, hbefore, hkeys⟩ := Registry.obligationsOf_eq_ok_iff.mp
    (show forwardingModel.obligationsOf "C" = .ok ["size()"] by decide +kernel)
  have hdp : (forwardingModel.get? "C").all fun d => decide (d.isNamedClass = true ∧
      ∀ i ∈ d.interfaces, forwardingModel.NamesInterface i.name) := by decide +kernel
  simp only [hd, Option.all_some, decide_eq_true_eq] at hdp
  obtain ⟨_, r', hrun, hp⟩ := Resolution.exists_of_succeeds
    (x := closeClass "C" "Forms" [forwardingConversion])
    (p := fun r' => decide (r'.obligationsOf "C" = .ok ["size()"]) &&
      (r'.get? "C").all fun (e : Definition) => decide (e.methods.keys = ["accept(Foo)", "run()"]))
    (show Resolution.succeeds _ forwardingModel _ = true by decide +kernel)
  rw [Bool.and_eq_true, decide_eq_true_eq] at hp
  obtain ⟨d', after, hd', hafter, _⟩ := Registry.obligationsOf_eq_ok_iff.mp hp.1
  have hmethods := hp.2
  simp only [hd', Option.all_some, decide_eq_true_eq] at hmethods
  obtain ⟨hsub, hadded⟩ := closeClass_adds_no_obligation hr hheld hd hdp.1 hdp.2
    (by simpa using hconv) hrun hbefore hd' hafter
  exact ⟨hr, hheld, hconv, r', d, d', before, after, hd, hdp.1, hdp.2, hrun, hbefore, hd', hafter,
    hkeys, hsub, hmethods, hadded⟩

/-- The class implements `A`, `J<P<String>>` and `P<Integer>`, where `J<T>` inherits from its own
parameter; `K`, to which a conversion leads from `A`, inherits from `J<Foo>`. -/
def shadowingModel : Registry :=
  let model := closureModel
    [("A", [], []), ("P", ["X"], []), ("T", [], []), ("J", ["T"], [.named "T"]),
      ("K", [], [.generic "J" [.plain (.named "Foo")]])]
    [.named "A", .generic "J" [.plain (.generic "P" [.plain (.named "String")])],
      .generic "P" [.plain (.named "Integer")]]
  model.modify "P" fun e =>
    e.withMethod (.make e.owner "f" (.named "void") [⟨.named "X", "x", ∅, false⟩])

/-- The class implements `A<D>` and `B<E>`, where `E` is a subclass of `D`, and conversions lead
from `A<T>` to `T`, from `A<D>` to `P` and from `B<T>` to `T`. Both `P` and `D` have a method `f`.
-/
def classTargetModel : Registry :=
  let method := fun (owner : Owner) => Method.make owner "f" (.named "void") []
  let model := closureModel [("A", ["X"], []), ("B", ["X"], []), ("P", [], [])]
    [.generic "A" [.plain (.named "D")], .generic "B" [.plain (.named "E")]]
  let classes := [Definition.make "D" (.namedClass none [] ∅),
    Definition.make "E" (.namedClass (some (.named "D")) [] ∅)]
  let model := { model with definitions := model.definitions ++ classes }
  let model := model.modify "P" fun e => e.withMethod (method e.owner)
  model.modify "D" fun e => e.withMethod ((method e.owner).withWords ["public"])

@[inherit_doc classTargetModel]
def classTargetConversions : List Conversion :=
  [conversionOf ["T"] (.generic "A" [.plain (.named "T")]) (.named "T"),
    conversionOf [] (.generic "A" [.plain (.named "D")]) (.named "P"),
    conversionOf ["T"] (.generic "B" [.plain (.named "T")]) (.named "T")]

/-- **Obligations come to light.** With `K` the class drops `J<P<String>>` as redundant, although it
inherited from `P<String>` through it, so it has to have the method of `P<Integer>`. With `E` the
class drops `D`, and the method of `P` has no implementation any more. -/
theorem closeClass_adds_obligation :
    (∃ r', closeClass "C" "Forms" [conversionOf [] (.named "A") (.named "K")] shadowingModel =
        .ok () r' ∧
      shadowingModel.obligationsOf "C" = .ok ["f(String)"] ∧
      r'.obligationsOf "C" = .ok ["f(Integer)"]) ∧
    ∃ r', closeClass "C" "Forms" classTargetConversions classTargetModel = .ok () r' ∧
      classTargetModel.obligationsOf "C" = .ok [] ∧ r'.obligationsOf "C" = .ok ["f()"] := by
  constructor
  · obtain ⟨_, r', hrun, hkeys⟩ := Resolution.exists_of_succeeds
      (x := closeClass "C" "Forms" [conversionOf [] (.named "A") (.named "K")])
      (p := fun r' => r'.obligationsOf "C" = .ok ["f(Integer)"])
      (show Resolution.succeeds _ shadowingModel _ = true by decide +kernel)
    exact ⟨r', hrun, by decide +kernel, of_decide_eq_true hkeys⟩
  · obtain ⟨_, r', hrun, hkeys⟩ := Resolution.exists_of_succeeds
      (x := closeClass "C" "Forms" classTargetConversions)
      (p := fun r' => r'.obligationsOf "C" = .ok ["f()"])
      (show Resolution.succeeds _ classTargetModel _ = true by decide +kernel)
    exact ⟨r', hrun, by decide +kernel, of_decide_eq_true hkeys⟩

end FluentGrammar
