import FluentGrammar.Proofs.Ancestry
import FluentGrammar.Proofs.ConversionRun
import FluentGrammar.Proofs.Foundation

/-!
# What a class inherits while its parents change

The table of a class is made of its own methods and of stubs, and the stubs that come from a parent
are determined by the type under which the class inherits from the definition of that name: the
first ancestor of the name. Parents that are added at the end leave these types alone, and so does
dropping interfaces that other parents bring along; the definitions above the class are not changed
at all.

* `Registry.SameOn`: two registries with the same definitions above some names.
* `Registry.find?_ancestorsVia_append`, `Registry.find?_ancestorsVia_of_maximal`: the first ancestor
  of a name.
* `Registry.StubsOf`: the stubs that come from a type.
* **`ClassAt.exists_stubs`**: the table of a class, with the stubs that come from each parent.
-/

namespace FluentGrammar

open Relation

theorem forall₂_append_left {α β : Type} {R : α → β → Prop} {as as' : List α} {bs : List β}
    (h : List.Forall₂ R (as ++ as') bs) :
    ∃ cs cs', bs = cs ++ cs' ∧ List.Forall₂ R as cs ∧ List.Forall₂ R as' cs' := by
  refine ⟨bs.take as.length, bs.drop as.length, (List.take_append_drop _ _).symm, ?_, ?_⟩
  · exact (List.forall₂_take_append _ _ _ h.flip).flip
  · exact (List.forall₂_drop_append _ _ _ h.flip).flip

namespace Registry

variable {r r' : Registry} {name context : String} {trail : List String}

/-! ## Registries with the same definitions above some names -/

/-- The names in `known` belong to the same definitions in both registries, which inherit from names
in `known` only. -/
structure SameOn (known : String → Prop) (r r' : Registry) : Prop where
  same : ∀ n, known n → r'.get? n = r.get? n
  parents : ∀ n d, known n → r.get? n = some d → ∀ parent ∈ d.supertypes, known parent.name

namespace SameOn

variable {known : String → Prop} {d : Definition}

theorem ancestorsVia_eq (h : SameOn known r r') {parents : List TypeExpr}
    (hp : ∀ parent ∈ parents, known parent.name) :
    r'.ancestorsVia context trail parents = r.ancestorsVia context trail parents := by
  fun_induction ancestorsVia r context trail parents with
  | case1 => rw [ancestorsVia]
  | case2 context trail parent rest hd =>
    have hd' : r'.get? parent.name = none := (h.same _ (hp parent List.mem_cons_self)).trans hd
    rw [ancestorsVia]
    split <;> simp_all
  | case3 context trail parent rest d hd hn =>
    have hd' : r'.get? parent.name = some d := (h.same _ (hp parent List.mem_cons_self)).trans hd
    rw [ancestorsVia]
    split
    · simp_all
    · rename_i e he
      cases hd'.symm.trans he
      rw [dif_pos hn]
  | case4 context trail parent rest d hd hn ih₁ ih₂ =>
    obtain ⟨hparent, hrest⟩ := List.forall_mem_cons.mp hp
    have hd' : r'.get? parent.name = some d := (h.same _ hparent).trans hd
    rw [ancestorsVia]
    split
    · simp_all
    · rename_i e he
      cases hd'.symm.trans he
      rw [dif_neg hn, ih₁ (h.parents _ d hparent hd), ih₂ hrest]

theorem lazyAncestors_eq (h : SameOn known r r') (hp : ∀ parent ∈ d.supertypes, known parent.name) :
    r'.lazyAncestors d = r.lazyAncestors d := by
  rw [lazyAncestors, ancestors, h.ancestorsVia_eq hp, lazyAncestors, ancestors]

theorem inheritVia_eq (h : SameOn known r r') {ancestors : LazyAncestors} {table : Table Method}
    {parents : List TypeExpr} (hp : ∀ parent ∈ parents, known parent.name) :
    r'.inheritVia trail d ancestors table parents =
      r.inheritVia trail d ancestors table parents := by
  fun_induction inheritVia r trail d ancestors table parents with
  | case1 => rw [inheritVia]
  | case2 trail d ancestors table parent rest hget =>
    have hget' : r'.get? parent.name = none := (h.same _ (hp parent List.mem_cons_self)).trans hget
    rw [inheritVia]
    split <;> simp_all
  | case3 trail d ancestors table parent rest p hget hn =>
    have hget' : r'.get? parent.name = some p :=
      (h.same _ (hp parent List.mem_cons_self)).trans hget
    rw [inheritVia]
    split
    · simp_all
    · rename_i e he
      cases hget'.symm.trans he
      rw [dif_pos hn]
  | case4 trail d ancestors table parent rest p hget hn ih₁ ih₂ =>
    obtain ⟨hparent, hrest⟩ := List.forall_mem_cons.mp hp
    have hget' : r'.get? parent.name = some p := (h.same _ hparent).trans hget
    have habove := h.parents _ p hparent hget
    rw [inheritVia]
    split
    · simp_all
    · rename_i e he
      cases hget'.symm.trans he
      rw [dif_neg hn, h.lazyAncestors_eq habove, ih₁ habove]
      simp only [ih₂ _ hrest]

/-- **Tables depend on what stands above.** -/
theorem allMethods_eq (h : SameOn known r r') (hp : ∀ parent ∈ d.supertypes, known parent.name) :
    r'.allMethods d = r.allMethods d := by
  rw [allMethods, h.lazyAncestors_eq hp, h.inheritVia_eq hp, allMethods]

end SameOn

theorem AgreesOff.sameOn (h : AgreesOff name r r') :
    SameOn (fun n => ¬ ReflTransGen r.Extends n name) r r' where
  same n hn := h.off n fun he => hn (he ▸ .refl)
  parents _ _ hn hd _ hp hm := hn (.head (extends_of_mem hd hp) hm)

/-! ## The first ancestor of a name -/

theorem ancestorsVia_append_eq_ok_iff {ps qs types : List TypeExpr} :
    r.ancestorsVia context trail (ps ++ qs) = .ok types ↔ ∃ ts us,
      r.ancestorsVia context trail ps = .ok ts ∧ r.ancestorsVia context trail qs = .ok us ∧
      types = ts ++ us.filter (· ∉ ts) := by
  induction ps generalizing types with
  | nil => simp [ancestorsVia_nil, eq_comm]
  | cons p ps ih =>
    rw [List.cons_append, ancestorsVia_cons_eq_ok_iff]
    have hfilter : ∀ ts others us : List TypeExpr,
        ts ++ (others ++ us.filter (· ∉ others)).filter (· ∉ ts) =
          (ts ++ others.filter (· ∉ ts)) ++ us.filter (· ∉ ts ++ others.filter (· ∉ ts)) := by
      intro ts others us
      rw [List.filter_append, List.append_assoc, List.filter_filter]
      congr 2
      refine List.filter_congr fun t _ => ?_
      by_cases h₁ : t ∈ ts <;> simp [h₁]
    constructor
    · rintro ⟨d, inherited, ts, _, hd, hn, hi, hts, hrest, rfl⟩
      obtain ⟨others, us, ho, hu, rfl⟩ := ih.mp hrest
      exact ⟨_, us, ancestorsVia_cons_eq_ok_iff.mpr ⟨d, inherited, ts, others, hd, hn, hi, hts, ho,
        rfl⟩, hu, hfilter ts others us⟩
    · rintro ⟨_, us, hps, hu, rfl⟩
      obtain ⟨d, inherited, ts, others, hd, hn, hi, hts, ho, rfl⟩ :=
        ancestorsVia_cons_eq_ok_iff.mp hps
      exact ⟨d, inherited, ts, _, hd, hn, hi, hts, ih.mpr ⟨others, us, ho, hu, rfl⟩,
        (hfilter ts others us).symm⟩

/-- Of two parts of which the second gives what is new, the first type of a name is the first one in
either part. -/
theorem find?_append_filter {ts us : List TypeExpr} {n : String} :
    (ts ++ us.filter (· ∉ ts)).find? (·.name = n) =
      (ts.find? (·.name = n)).or (us.find? (·.name = n)) := by
  rw [List.find?_append]
  cases hts : ts.find? (·.name = n) with
  | some t => rfl
  | none =>
    have hnot : ∀ t : TypeExpr, t.name = n → t ∉ ts := fun t ht hm =>
      List.find?_eq_none.mp hts t hm (decide_eq_true ht)
    rw [Option.none_or, Option.none_or, List.find?_filter]
    congr 1
    funext t
    by_cases ht : t.name = n
    · simp [ht, hnot t ht]
    · simp [ht]

theorem find?_ancestorsVia_append {ps qs types : List TypeExpr}
    (h : r.ancestorsVia context trail (ps ++ qs) = .ok types) {n : String} :
    ∃ ts us, r.ancestorsVia context trail ps = .ok ts ∧ r.ancestorsVia context trail qs = .ok us ∧
      types.find? (·.name = n) = (ts.find? (·.name = n)).or (us.find? (·.name = n)) := by
  obtain ⟨ts, us, hts, hus, rfl⟩ := ancestorsVia_append_eq_ok_iff.mp h
  exact ⟨ts, us, hts, hus, find?_append_filter⟩

theorem find?_ancestorsVia_head {parent : TypeExpr} {rest types : List TypeExpr}
    (h : r.ancestorsVia context trail (parent :: rest) = .ok types) :
    types.find? (·.name = parent.name) = some parent := by
  obtain ⟨_, _, ts, _, _, _, _, hts, _, rfl⟩ := ancestorsVia_cons_eq_ok_iff.mp h
  obtain ⟨_, _, _, _, rfl⟩ := throughParent_eq_ok_iff.mp hts
  simp

/-- Where no parent has an ancestor of the name, the first ancestor of the name is a parent. -/
theorem find?_ancestorsVia_of_maximal (hr : r.Unshadowed) {parents types : List TypeExpr}
    (h : r.ancestorsVia context trail parents = .ok types) {n : String}
    (hmax : ∀ parent ∈ parents, ¬ r.HasAncestor parent.name n) :
    types.find? (·.name = n) = parents.find? (·.name = n) := by
  revert hmax
  refine ancestorsVia_induction (motive := fun _ parents types =>
    (∀ parent ∈ parents, ¬ r.HasAncestor parent.name n) →
      types.find? (·.name = n) = parents.find? (·.name = n)) (fun _ _ => rfl) ?_ h
  intro trail parent rest d inherited ts others hd _ hi hts _ ih hmax
  obtain ⟨hparent, hrest⟩ := List.forall_mem_cons.mp hmax
  have hhead : ts.find? (·.name = n) = if parent.name = n then some parent else none := by
    have hmem : n ∈ ts.map TypeExpr.name ↔ n = parent.name ∨ n ∈ inherited.map TypeExpr.name :=
      mem_names_throughParent (hr _ d _ hd hi) hts
    obtain ⟨_, us, _, _, rfl⟩ := throughParent_eq_ok_iff.mp hts
    by_cases hn : parent.name = n
    · simp [hn]
    · rw [if_neg hn, List.find?_eq_none]
      intro t ht he
      have hname : t.name = n := of_decide_eq_true he
      rcases hmem.mp (List.mem_map.mpr ⟨t, ht, hname⟩) with he | hinherited
      · exact hn he.symm
      · exact hparent ⟨d, inherited, hd, hi, hinherited⟩
  rw [find?_append_filter, hhead, ih hrest, List.find?_cons]
  by_cases hn : parent.name = n <;> simp [hn]

theorem not_hasAncestor_of_kept {d : Definition} {redundant : List TypeExpr}
    (hc : d.isNamedClass = true) (h : r.redundantInterfaces d = .ok redundant) {i : TypeExpr}
    (hi : i ∈ d.interfaces) (hkept : i.name ∉ redundant.map TypeExpr.name)
    (hself : ¬ r.HasAncestor i.name i.name) :
    ∀ parent ∈ d.supertypes, ¬ r.HasAncestor parent.name i.name := by
  rintro parent hp ⟨p, types, hget, ht, hm⟩
  have hsupertypes := Definition.supertypes_of_isNamedClass hc
  unfold redundantInterfaces at h
  rw [hc, Bool.not_true, if_neg Bool.false_ne_true] at h
  obtain ⟨reachable, hreach, h⟩ := Except.bind_eq_ok_iff.mp h
  cases Except.pure_eq_ok_iff.mp h
  have hforall := Except.mapM_eq_ok_iff.mp hreach
  obtain ⟨j, hj, rfl⟩ := List.mem_iff_getElem.mp hp
  obtain ⟨k, hk, rfl⟩ := List.mem_iff_getElem.mp hi
  have hj' : j < reachable.length := hforall.length_eq ▸ hj
  by_cases hpos : j = k + d.superclass?.toList.length
  · have hsame : d.supertypes[j]? = d.interfaces[k]? := by
      rw [hsupertypes, hpos, List.getElem?_append_right (Nat.le_add_left _ _), Nat.add_sub_cancel]
    rw [List.getElem?_eq_getElem hj, List.getElem?_eq_getElem hk, Option.some_inj] at hsame
    exact hself ⟨p, types, hsame ▸ hget, ht, hm⟩
  · obtain ⟨p', types', hget', ht', hnames⟩ := ancestorNames_eq_ok_iff.mp (hforall.get hj hj')
    cases hget.symm.trans hget'
    cases ht.symm.trans ht'
    refine hkept (List.mem_map.mpr ⟨_, List.mem_map.mpr ⟨(_, k), List.mem_filter.mpr ⟨?_, ?_⟩, rfl⟩,
      rfl⟩)
    · exact List.mk_mem_zipIdx_iff_getElem?.mpr (List.getElem?_eq_getElem hk)
    · refine List.any_eq_true.mpr ⟨(_, j), List.mk_mem_zipIdx_iff_getElem?.mpr
        (List.getElem?_eq_getElem hj'), ?_⟩
      simpa [hpos, hnames] using hm

/-! ## Stubs that come from a type -/

section Stubs

variable {owner : Owner} {d : Definition}

/-- The stubs, for the given owner, of what is visible on the definition of the type `via`. -/
def StubsOf (r : Registry) (owner : Owner) (via : TypeExpr) (stubs : List Method) : Prop :=
  ∃ e inherited, r.get? via.name = some e ∧ r.allMethods e = .ok inherited ∧
    (visible inherited).mapM (·.stub owner via) = .ok stubs

/-- The stubs that come from `parent`, if the first of the ancestors `types` of its name counts. -/
def Supplies (r : Registry) (owner : Owner) (types : List TypeExpr) (parent : TypeExpr)
    (stubs : List Method) : Prop :=
  ∃ via, types.find? (·.name = parent.name) = some via ∧ r.StubsOf owner via stubs

theorem stubsOf_unique (r : Registry) (owner : Owner) : Relator.RightUnique (r.StubsOf owner) := by
  rintro via stubs stubs' ⟨e, inherited, he, hi, hs⟩ ⟨e', inherited', he', hi', hs'⟩
  cases he.symm.trans he'
  cases hi.symm.trans hi'
  exact Except.ok.inj (hs.symm.trans hs')

theorem supplies_unique (r : Registry) (owner : Owner) (types : List TypeExpr) :
    Relator.RightUnique (r.Supplies owner types) := by
  rintro parent stubs stubs' ⟨via, hvia, hs⟩ ⟨via', hvia', hs'⟩
  cases hvia.symm.trans hvia'
  exact r.stubsOf_unique owner hs hs'

theorem Supplies.congr {types types' : List TypeExpr} {parent : TypeExpr} {stubs : List Method}
    (h : types'.find? (·.name = parent.name) = types.find? (·.name = parent.name))
    (hs : r.Supplies owner types parent stubs) : r.Supplies owner types' parent stubs := by
  obtain ⟨via, hvia, hstubs⟩ := hs
  exact ⟨via, h.trans hvia, hstubs⟩

theorem stubFor_of_find? {types : List TypeExpr} {m : Method} {via : TypeExpr}
    (hne : d.name ≠ m.owner.name) (hvia : types.find? (·.name = m.owner.name) = some via) :
    stubFor d (.ok types) m = m.stub d.owner via := by
  unfold stubFor ancestorFor
  rw [if_neg hne]
  simp only [bind, Except.bind, pure, Except.pure, hvia]

end Stubs

end Registry

/-! ## The table of a class -/

namespace ClassAt

variable {base r : Registry} {name : String} {d : Definition} {types : List TypeExpr}

theorem parent_ne (hr : ClassAt base name r d types) {parent : TypeExpr}
    (hp : parent ∈ d.supertypes) : parent.name ≠ name := fun he =>
  (Registry.reachable_of_ancestorsVia hr.ancestorsVia parent hp _ .refl).2 (by simp [he])

theorem parent_eq (hr : ClassAt base name r d types) {parent : TypeExpr}
    (hp : parent ∈ d.supertypes) {e : Definition} (he : r.get? parent.name = some e) :
    base.get? parent.name = some e ∧ r.allMethods e = base.allMethods e := by
  have hget := (hr.agrees.off _ (hr.parent_ne hp)).symm.trans he
  have habove : ¬ Relation.ReflTransGen base.Extends parent.name name := fun hreach =>
    (Registry.reachable_of_ancestorsVia hr.ancestorsVia parent hp _ hreach).2 (by simp)
  exact ⟨hget, hr.agrees.sameOn.allMethods_eq (hr.agrees.sameOn.parents _ e habove hget)⟩

theorem supplies (hr : ClassAt base name r d types)
    (hheld : ∀ n e, base.get? n = some e → e.HoldsMethods) {parent : TypeExpr}
    (hp : parent ∈ d.supertypes) {stubs : List Method} (h : r.InheritsFrom d parent stubs) :
    base.Supplies d.owner types parent stubs := by
  obtain ⟨e, inherited, he, hi, hstubs⟩ := h
  obtain ⟨he', htable⟩ := hr.parent_eq hp he
  have hsome : (types.find? (·.name = parent.name)).isSome = true := by
    rw [List.find?_isSome]
    exact ⟨parent, Registry.subset_ancestorsVia hr.ancestorsVia parent hp, by simp⟩
  obtain ⟨via, hvia⟩ := Option.isSome_iff_exists.mp hsome
  have hname : via.name = parent.name := by simpa using List.find?_some hvia
  refine ⟨via, hvia, e, inherited, hname ▸ he', htable ▸ hi, ?_⟩
  rw [← hstubs]
  refine Except.mapM_congr fun m hm => ?_
  have howner : m.owner.name = parent.name := by
    rw [(Registry.owner_of_mem_allMethods (hheld _ e he') hi (Registry.mem_visible.mp hm).1).1]
    exact Registry.name_of_get? he
  rw [Registry.overrideFor, hr.ancestors, Registry.stubFor_of_find? _ (howner ▸ hvia)]
  rw [hr.name_eq, howner]
  exact (hr.parent_ne hp).symm

/-- **The table of a class** has its own methods and, after them, the stubs that its parents
supply. -/
theorem exists_stubs (hr : ClassAt base name r d types)
    (hheld : ∀ n e, base.get? n = some e → e.HoldsMethods) {table : Table Method}
    (h : r.allMethods d = .ok table) :
    ∃ lists, List.Forall₂ (base.Supplies d.owner types) d.supertypes lists ∧
      ∀ key, table.get? key = (d.methods.get? key).or (lists.flatten.find? (·.signature = key)) := by
  obtain ⟨lists, hlists, hmerge⟩ := Registry.exists_stubs_of_allMethods h
  refine ⟨lists, ?_, Registry.get?_of_foldlM_merge hmerge⟩
  have hmem := (List.forall₂_and_left d.supertypes lists).mpr ⟨fun _ => id, hlists⟩
  refine hmem.imp ?_
  rintro parent stubs ⟨hp, h⟩
  exact hr.supplies hheld hp h

theorem find?_superclass (hr : ClassAt base name r d types) {t : TypeExpr}
    (ht : t ∈ d.superclass?.toList) : types.find? (·.name = t.name) = some t := by
  have hvia := hr.ancestorsVia
  rw [Definition.supertypes_of_isNamedClass hr.named, Option.mem_toList.mp ht] at hvia
  exact Registry.find?_ancestorsVia_head hvia

theorem exists_stubs_of_superclass (hr : ClassAt base name r d types)
    (hheld : ∀ n e, base.get? n = some e → e.HoldsMethods) {table : Table Method}
    (h : r.allMethods d = .ok table) :
    ∃ above beside, List.Forall₂ (base.StubsOf d.owner) d.superclass?.toList above ∧
      List.Forall₂ (base.Supplies d.owner types) d.interfaces beside ∧
      ∀ key, table.get? key = ((d.methods.get? key).or
        (above.flatten.find? (·.signature = key))).or
          (beside.flatten.find? (·.signature = key)) := by
  obtain ⟨lists, hlists, hget⟩ := hr.exists_stubs hheld h
  rw [Definition.supertypes_of_isNamedClass hr.named] at hlists
  obtain ⟨above, beside, rfl, habove, hbeside⟩ := forall₂_append_left hlists
  have hmem := (List.forall₂_and_left _ _).mpr ⟨fun _ => id, habove⟩
  refine ⟨above, beside, hmem.imp ?_, hbeside, fun key => ?_⟩
  · rintro t stubs ⟨ht, via, hvia, hstubs⟩
    cases (hr.find?_superclass ht).symm.trans hvia
    exact hstubs
  · rw [hget, List.flatten_append, List.find?_append, Option.or_assoc]

variable {target : TypeExpr} {r₁ : Registry} {types₁ : List TypeExpr}

theorem supertypes_addInterface (hr : ClassAt base name r d types)
    (hn : target.name ∉ types.map TypeExpr.name) :
    (d.addInterface target).supertypes = d.supertypes ++ [target] := by
  have hold := Definition.supertypes_of_isNamedClass hr.named
  have hadd : d.addInterface target = d.mapInterfaces (· ++ [target]) := by
    refine Definition.addInterface_eq hr.named fun i hi he => hn (he ▸ List.mem_map_of_mem ?_)
    refine Registry.subset_ancestorsVia hr.ancestorsVia i ?_
    rw [hold]
    exact List.mem_append_right _ hi
  rw [hadd, Definition.supertypes_mapInterfaces _ hr.named, hold, List.append_assoc]

/-- The types under which the class inherits from its parents are not changed by an interface of a
new name, and from that interface it inherits as it is written. -/
theorem find?_addInterface (hr : ClassAt base name r d types)
    (hr₁ : ClassAt base name r₁ (d.addInterface target) types₁)
    (hn : target.name ∉ types.map TypeExpr.name) :
    (∀ n ∈ types.map TypeExpr.name,
      types₁.find? (·.name = n) = types.find? (·.name = n)) ∧
    types₁.find? (·.name = target.name) = some target := by
  have hvia := hr₁.ancestorsVia
  rw [hr.supertypes_addInterface hn] at hvia
  have hfind : ∀ n, ∃ us, base.ancestorsVia name [name] [target] = .ok us ∧
      types₁.find? (·.name = n) = (types.find? (·.name = n)).or (us.find? (·.name = n)) := by
    intro n
    obtain ⟨ts, us, hts, hus, he⟩ := Registry.find?_ancestorsVia_append (n := n) hvia
    cases hr.ancestorsVia.symm.trans hts
    exact ⟨us, hus, he⟩
  constructor
  · intro n hm
    obtain ⟨t, ht, rfl⟩ := List.mem_map.mp hm
    have hsome : (types.find? (·.name = t.name)).isSome = true :=
      List.find?_isSome.mpr ⟨t, ht, by simp⟩
    obtain ⟨u, hu⟩ := Option.isSome_iff_exists.mp hsome
    obtain ⟨_, _, he⟩ := hfind t.name
    rw [he, hu, Option.some_or]
  · obtain ⟨us, hus, he⟩ := hfind target.name
    have hnone : types.find? (·.name = target.name) = none :=
      List.find?_eq_none.mpr fun t ht htn =>
        hn (List.mem_map.mpr ⟨t, ht, of_decide_eq_true htn⟩)
    rw [he, hnone, Option.none_or, Registry.find?_ancestorsVia_head hus]

/-- **A new interface adds its stubs at the end.** -/
theorem get?_addInterface (hr : ClassAt base name r d types)
    (hheld : ∀ n e, base.get? n = some e → e.HoldsMethods)
    (hr₁ : ClassAt base name r₁ (d.addInterface target) types₁)
    (hn : target.name ∉ types.map TypeExpr.name) {table table₁ : Table Method}
    (ht : r.allMethods d = .ok table) (ht₁ : r₁.allMethods (d.addInterface target) = .ok table₁) :
    ∃ stubs, base.StubsOf d.owner target stubs ∧ ∀ key,
      table₁.get? key = (table.get? key).or (stubs.find? (·.signature = key)) := by
  obtain ⟨hold, hnew⟩ := hr.find?_addInterface hr₁ hn
  obtain ⟨lists, hlists, hget⟩ := hr.exists_stubs hheld ht
  obtain ⟨lists₁, hlists₁, hget₁⟩ := hr₁.exists_stubs hheld ht₁
  have henlarged := d.enlarged_addInterface target
  rw [hr.supertypes_addInterface hn, henlarged.owner hr.named] at hlists₁
  obtain ⟨before, rest, rfl, hbefore, hrest⟩ := forall₂_append_left hlists₁
  obtain ⟨stubs, _, ⟨via, hvia, hstubs⟩, hnil, rfl⟩ := List.forall₂_cons_left_iff.mp hrest
  cases hnil
  cases hnew.symm.trans hvia
  have hsame : before = lists := by
    refine (base.supplies_unique d.owner types).forall₂ ?_ hlists
    have hmem := (List.forall₂_and_left d.supertypes before).mpr ⟨fun _ => id, hbefore⟩
    refine hmem.imp fun parent stubs ⟨hp, hs⟩ => hs.congr (hold _ ?_).symm
    exact List.mem_map_of_mem (Registry.subset_ancestorsVia hr.ancestorsVia parent hp)
  refine ⟨stubs, hstubs, fun key => ?_⟩
  rw [hget₁, hget, hsame, Definition.methods_addInterface, List.flatten_append, List.find?_append,
    Option.or_assoc]
  simp

theorem hasAncestor_of_base (hr : ClassAt base name r d types) {parent : TypeExpr}
    (hp : parent ∈ d.supertypes) {n : String} (h : base.HasAncestor parent.name n) :
    r.HasAncestor parent.name n := by
  obtain ⟨p, us, hget, hus, hm⟩ := h
  have hget' := (hr.agrees.off _ (hr.parent_ne hp)).trans hget
  obtain ⟨_, he⟩ := hr.agrees.ancestors_parent_eq hr.name_eq hr.ancestors hp hget'
  exact ⟨p, us, hget', he.trans hus, hm⟩

/-- The class inherits from an interface under the same type after the redundant interfaces were
dropped, if that interface stays. -/
theorem find?_removeRedundant (hb : base.Unshadowed) (hr : ClassAt base name r d types)
    {redundant : List TypeExpr} (h : r.redundantInterfaces d = .ok redundant)
    {paths : List ConversionPath} {r' : Registry} {d' : Definition} {types' : List TypeExpr}
    (hr' : ClassAt base name r' d' types')
    (hshape : d'.shape = ((d.addPaths paths).removeInterfaces (redundant.map TypeExpr.name)).shape)
    {i : TypeExpr} (hi : i ∈ d.interfaces) (hkept : i.name ∉ redundant.map TypeExpr.name) :
    types'.find? (·.name = i.name) = types.find? (·.name = i.name) := by
  have hold := Definition.supertypes_of_isNamedClass hr.named
  have hparents := Definition.supertypes_of_dropped hr.named hshape
  have himem : i ∈ d.supertypes := by
    rw [hold]
    exact List.mem_append_right _ hi
  have hmax : ∀ parent ∈ d.supertypes, ¬ base.HasAncestor parent.name i.name := by
    intro parent hp ha
    refine Registry.not_hasAncestor_of_kept hr.named h hi hkept (fun hself => ?_) parent hp
      (hr.hasAncestor_of_base hp ha)
    exact Registry.not_hasAncestor_self hb i.name
      (hr.agrees.hasAncestor_parent hr.name_eq hr.ancestors himem hself)
  have hmax' : ∀ parent ∈ d'.supertypes, ¬ base.HasAncestor parent.name i.name := by
    intro parent hp
    refine hmax parent ?_
    rw [hparents] at hp
    rw [hold]
    exact (List.mem_append.mp hp).elim (List.mem_append_left _)
      fun hp => List.mem_append_right _ (List.mem_of_mem_filter hp)
  rw [Registry.find?_ancestorsVia_of_maximal hb hr.ancestorsVia hmax,
    Registry.find?_ancestorsVia_of_maximal hb hr'.ancestorsVia hmax', hold, hparents,
    List.find?_append, List.find?_append, List.find?_filter]
  congr 2
  funext t
  by_cases ht : t.name = i.name
  · simp only [ht, decide_true, decide_eq_true_eq]
    exact ⟨hkept, trivial⟩
  · simp [ht]

end ClassAt

end FluentGrammar
