import FluentGrammar.Proofs.Ancestry
import FluentGrammar.Proofs.Hygiene
import FluentGrammar.Proofs.MethodCopy

/-!
# Methods that are handed down

When a method is handed down from an ancestor to a definition, directly or through definitions in
between, a copy of it arrives whose arguments are those of the ancestor type. So it does not matter
on which way the method comes, if there is one ancestor type of each name. This needs *hygiene*:
names of type parameters mean nothing else, and numbers that are appended to them make no names that
are in use.

* `Registry.ParamHygiene`, `Registry.Uncaptured`, `Registry.Keyed`, `Registry.UniqueAncestors`: the
  conditions, all of which can be decided.
* `Registry.Orderly.overrideFor_eq`: a method is inherited through the one ancestor type there is.
* `Registry.HandedDown`: what arrives of a method.
* **`Registry.HandedDown.trans`**: methods are handed down step by step.
* **`Registry.HandedDown.matchesContract`**: whatever arrives of one method has one contract.
-/

namespace FluentGrammar

/-- The types that the definition mentions as parents and in its methods, each with the names of the
type parameters in scope. -/
def Definition.uses (d : Definition) : List (List String × TypeExpr) :=
  d.supertypes.map (d.typeParams.names, ·) ++
    d.methods.values.flatMap fun m => m.types.map (m.scope, ·)

namespace Registry

variable {r : Registry} {a d p : Definition} {m b c e : Method} {t : TypeExpr}
  {types : List TypeExpr} {name : String}

/-! ## Hygiene -/

/-- The names of all type parameters, of definitions and of methods. -/
def typeParamNames (r : Registry) : List String :=
  (r.definitions ++ r.anonymous).flatMap fun d =>
    d.typeParams.names ++ d.methods.values.flatMap (·.typeParams.names)

/-- All names that are in use. -/
def usedNames (r : Registry) : List String :=
  r.typeParamNames ++ r.names ++
    (r.definitions ++ r.anonymous).flatMap fun d => d.uses.flatMap fun use => use.2.allNames

/-- The name of a type parameter, possibly followed by digits. -/
def ParamLike (r : Registry) (name : String) : Prop :=
  ∃ base ∈ r.typeParamNames, IsNumbered base name

/-- Type parameters of one list have different names. Wherever such a name is mentioned, it is in
scope and not applied to arguments; it is neither the name of a definition nor reserved, and no name
in use is such a name followed by digits. Parents of generic definitions have arguments. -/
structure ParamHygiene (r : Registry) : Prop where
  nodup : ∀ d ∈ r.definitions ++ r.anonymous, d.typeParams.names.Nodup
  nodupMethods : ∀ d ∈ r.definitions ++ r.anonymous, ∀ m ∈ d.methods.values,
    m.typeParams.names.Nodup
  inScope : ∀ d ∈ r.definitions ++ r.anonymous, ∀ use ∈ d.uses, ∀ name ∈ use.2.allNames,
    name ∈ r.typeParamNames → name ∈ use.1
  unapplied : ∀ d ∈ r.definitions ++ r.anonymous, ∀ use ∈ d.uses, ∀ name ∈ use.2.applied,
    name ∉ r.typeParamNames
  concrete : ∀ name ∈ r.names, name ∉ r.typeParamNames
  reserved : ∀ name ∈ r.typeParamNames, name ≠ TypeExpr.topName ∧ isCapture name = false
  unnumbered : ∀ name ∈ r.usedNames, ∀ base ∈ r.typeParamNames, IsNumbered base name → name = base
  applied : ∀ d ∈ r.definitions ++ r.anonymous, ∀ t ∈ d.supertypes, ∀ e ∈ r.get? t.name,
    e.typeParams ≠ [] → t.args ≠ []

instance : DecidablePred ParamHygiene := fun r =>
  decidable_of_iff (
    (∀ d ∈ r.definitions ++ r.anonymous, d.typeParams.names.Nodup) ∧
    (∀ d ∈ r.definitions ++ r.anonymous, ∀ m ∈ d.methods.values, m.typeParams.names.Nodup) ∧
    (∀ d ∈ r.definitions ++ r.anonymous, ∀ use ∈ d.uses, ∀ name ∈ use.2.allNames,
      name ∈ r.typeParamNames → name ∈ use.1) ∧
    (∀ d ∈ r.definitions ++ r.anonymous, ∀ use ∈ d.uses, ∀ name ∈ use.2.applied,
      name ∉ r.typeParamNames) ∧
    (∀ name ∈ r.names, name ∉ r.typeParamNames) ∧
    (∀ name ∈ r.typeParamNames, name ≠ TypeExpr.topName ∧ isCapture name = false) ∧
    (∀ name ∈ r.usedNames, ∀ base ∈ r.typeParamNames, IsNumbered base name → name = base) ∧
    ∀ d ∈ r.definitions ++ r.anonymous, ∀ t ∈ d.supertypes, ∀ e ∈ r.get? t.name,
      e.typeParams ≠ [] → t.args ≠ [])
    ⟨fun ⟨h₁, h₂, h₃, h₄, h₅, h₆, h₇, h₈⟩ => ⟨h₁, h₂, h₃, h₄, h₅, h₆, h₇, h₈⟩,
      fun h => ⟨h.nodup, h.nodupMethods, h.inScope, h.unapplied, h.concrete, h.reserved,
        h.unnumbered, h.applied⟩⟩

/-- No type has the name of a captured wildcard. -/
def Uncaptured (r : Registry) : Prop :=
  ∀ d ∈ r.definitions ++ r.anonymous, ∀ use ∈ d.uses, use.2.Written

instance : DecidablePred Uncaptured := fun r =>
  inferInstanceAs (Decidable (∀ d ∈ r.definitions ++ r.anonymous, ∀ use ∈ d.uses, use.2.Written))

/-- Methods stand under their signatures on the definitions they belong to, and list every thrown
type once. -/
def Keyed (r : Registry) : Prop :=
  ∀ d ∈ r.definitions ++ r.anonymous, ∀ e ∈ d.methods.entries,
    e.1 = e.2.signature ∧ e.2.owner = d.owner ∧ e.2.throws.toList.Nodup

instance : DecidablePred Keyed := fun r =>
  inferInstanceAs (Decidable (∀ d ∈ r.definitions ++ r.anonymous, ∀ e ∈ d.methods.entries,
    e.1 = e.2.signature ∧ e.2.owner = d.owner ∧ e.2.throws.toList.Nodup))

/-- A definition has one ancestor type of a name at most. -/
def UniqueAncestors (r : Registry) : Prop :=
  ∀ d ∈ r.definitions ++ r.anonymous, ∀ types ∈ (r.ancestors d).toOption,
    (types.map TypeExpr.name).Nodup

instance : DecidablePred UniqueAncestors := fun r =>
  inferInstanceAs (Decidable (∀ d ∈ r.definitions ++ r.anonymous,
    ∀ types ∈ (r.ancestors d).toOption, (types.map TypeExpr.name).Nodup))

/-- All of these conditions. -/
structure Orderly (r : Registry) : Prop where
  hygiene : r.ParamHygiene
  written : r.Uncaptured
  keyed : r.Keyed
  unique : r.UniqueAncestors

theorem mem_typeParamNames_of_definition (hd : d ∈ r.definitions ++ r.anonymous)
    (hn : name ∈ d.typeParams.names) : name ∈ r.typeParamNames :=
  List.mem_flatMap.mpr ⟨d, hd, List.mem_append_left _ hn⟩

theorem mem_typeParamNames_of_method (hd : d ∈ r.definitions ++ r.anonymous)
    (hm : m ∈ d.methods.values) (hn : name ∈ m.typeParams.names) : name ∈ r.typeParamNames :=
  List.mem_flatMap.mpr ⟨d, hd, List.mem_append_right _ (List.mem_flatMap.mpr ⟨m, hm, hn⟩)⟩

theorem paramLike_of_mem (hn : name ∈ r.typeParamNames) : r.ParamLike name :=
  ⟨name, hn, .refl name⟩

theorem mem_usedNames_of_use (hd : d ∈ r.definitions ++ r.anonymous)
    {use : List String × TypeExpr} (hu : use ∈ d.uses) (hn : use.2.mentions name = true) :
    name ∈ r.usedNames :=
  List.mem_append_right _ (List.mem_flatMap.mpr ⟨d, hd, List.mem_flatMap.mpr
    ⟨use, hu, (use.2.mem_allNames name).mpr hn⟩⟩)

namespace ParamHygiene

variable (h : r.ParamHygiene)
include h

theorem freshNames : FreshNames r.ParamLike where
  numbered := by
    rintro name k ⟨base, hbase, hn⟩
    exact ⟨base, hbase, hn.append k⟩
  top := by
    rintro ⟨base, hbase, hn⟩
    exact (h.reserved base hbase).1 (hn.eq_of_last (by decide))
  uncaptured := by
    rintro name ⟨base, hbase, hn⟩
    exact hn.isCapture_eq_false (h.reserved base hbase).2

theorem mem_of_paramLike (hn : name ∈ r.usedNames) (hl : r.ParamLike name) :
    name ∈ r.typeParamNames := by
  obtain ⟨base, hbase, hnumbered⟩ := hl
  exact h.unnumbered name hn base hbase hnumbered ▸ hbase

theorem cleanIn_of_use (hw : r.Uncaptured) (hd : d ∈ r.definitions ++ r.anonymous)
    {use : List String × TypeExpr} (hu : use ∈ d.uses) : use.2.CleanIn r.ParamLike use.1 := by
  have hmem : ∀ name, use.2.mentions name = true → r.ParamLike name → name ∈ r.typeParamNames :=
    fun name hn => h.mem_of_paramLike (mem_usedNames_of_use hd hu hn)
  refine ⟨hw d hd use hu, fun name hn hl => ?_, fun name hn hl => ?_⟩
  · exact h.inScope d hd use hu name ((use.2.mem_allNames name).mpr hn) (hmem name hn hl)
  · exact h.unapplied d hd use hu name hn (hmem name (TypeExpr.mentions_of_applied hn) hl)

theorem cleanIn_supertype (hw : r.Uncaptured) (hd : d ∈ r.definitions ++ r.anonymous)
    (ht : t ∈ d.supertypes) : t.CleanIn r.ParamLike d.typeParams.names :=
  have hu : (d.typeParams.names, t) ∈ d.uses :=
    List.mem_append_left _ (List.mem_map.mpr ⟨t, ht, rfl⟩)
  h.cleanIn_of_use hw hd hu

theorem applied_parents : r.Applied :=
  fun d hd t ht e he => h.applied d hd t ht e he

theorem concrete_of_mem (hd : d ∈ r.definitions ++ r.anonymous) : ¬ r.ParamLike d.name := by
  have hname : d.name ∈ r.names := List.mem_map.mpr ⟨d, hd, rfl⟩
  exact fun hl => h.concrete d.name hname (h.mem_of_paramLike
    (List.mem_append_left _ (List.mem_append_right _ hname)) hl)

theorem wellScoped (hw : r.Uncaptured) : r.Scoped r.ParamLike where
  params _ hd _ hn := paramLike_of_mem (mem_typeParamNames_of_definition hd hn)
  supertypes _ hd _ ht := (h.cleanIn_supertype hw hd ht).inScope
  concrete _ hd := h.concrete_of_mem hd
  top := h.freshNames.top
  uncaptured := h.freshNames.uncaptured

theorem numbersApart (hd : d ∈ r.definitions ++ r.anonymous) :
    NumbersApart d.typeParams.names := by
  have key : ∀ x ∈ d.typeParams.names, ∀ y ∈ d.typeParams.names, ∀ i j : Nat,
      x ++ toString i = y ++ toString j → x.toList.length ≤ y.toList.length → x = y := by
    intro x hx y hy i j he hle
    have hx := mem_typeParamNames_of_definition hd hx
    have hy := mem_typeParamNames_of_definition hd hy
    have hlist := congrArg String.toList he
    rw [String.toList_append, String.toList_append] at hlist
    obtain ⟨hstart, hdigits⟩ := (IsNumbered.refl x).append i
    have hpre : x.toList <+: y.toList :=
      List.prefix_of_prefix_length_le ⟨_, rfl⟩ ⟨_, hlist.symm⟩ hle
    refine (h.unnumbered y (List.mem_append_left _ (List.mem_append_left _ hy)) x hx
      ⟨hpre, ?_⟩).symm
    rw [String.toList_append, hlist, List.drop_append_of_le_length hle, List.all_append,
      Bool.and_eq_true] at hdigits
    exact hdigits.1
  intro x hx y hy i j he
  rcases Nat.le_total x.toList.length y.toList.length with hle | hle
  · exact key x hx y hy i j he hle
  · exact (key y hy x hx j i he.symm hle).symm

theorem cleanIn_of_ancestorsVia (hw : r.Uncaptured) {context : String} {trail : List String}
    {parents : List TypeExpr} {names : List String}
    (hvia : r.ancestorsVia context trail parents = .ok types)
    (hparents : ∀ t ∈ parents, r.NotRaw t ∧ t.CleanIn r.ParamLike names) :
    ∀ t ∈ types, t.CleanIn r.ParamLike names := by
  revert hparents names
  refine ancestorsVia_induction (motive := fun _ parents types => ∀ {names : List String},
    (∀ t ∈ parents, r.NotRaw t ∧ t.CleanIn r.ParamLike names) →
      ∀ t ∈ types, t.CleanIn r.ParamLike names) (by simp) ?_ hvia
  intro trail parent rest d inherited ts others hd _ hi ht ih₁ ih₂ names hparents t htypes
  obtain ⟨⟨hraw, hclean⟩, hrest⟩ := List.forall_mem_cons.mp hparents
  have hmem : d ∈ r.definitions ++ r.anonymous := List.mem_of_find?_eq_some hd
  rcases mem_append_filter.mp htypes with hm | hm
  · obtain ⟨hlen, _, _, hts⟩ := (h.wellScoped hw).mem_throughParent hd hraw hi ht
    rcases (hts t).mp hm with rfl | ⟨u, hu, rfl⟩
    · exact hclean
    · have hu := ih₁ (fun q hq =>
        ⟨h.applied_parents d hmem q hq, h.cleanIn_supertype hw hmem hq⟩) u hu
      refine TypeExpr.cleanIn_subst h.freshNames hu (fun name hn hnone => ?_) fun name arg harg =>
        TypeArg.cleanIn_of_mem_args hclean (mem_of_bound harg).2
      obtain ⟨arg, harg⟩ := exists_bound hlen hn
      rw [hnone] at harg
      cases harg
  · exact ih₂ hrest t hm

end ParamHygiene

/-! ## Ancestor types -/

namespace Orderly

variable (hr : r.Orderly)
include hr

theorem wellScoped : r.Scoped r.ParamLike :=
  hr.hygiene.wellScoped hr.written

theorem freshNames : FreshNames r.ParamLike :=
  hr.hygiene.freshNames

theorem registered (hd : r.get? name = some d) (h : r.ancestors d = .ok types) (ht : t ∈ types) :
    ∃ p, r.get? t.name = some p ∧ t.args.length = p.typeParams.names.length :=
  registered_of_ancestorsVia hr.wellScoped hr.hygiene.applied_parents h
    (hr.hygiene.applied_parents d (mem_of_get? hd)) t ht

theorem unshadowed : r.Unshadowed := by
  intro n e us he hus u hu hn
  obtain ⟨p, hp, _⟩ := hr.registered he hus hu
  exact hr.wellScoped.not_isParam_of_get? hp (hr.wellScoped.params e (mem_of_get? he) _ hn)

/-- An ancestor is registered under another name, and its arguments are as many as the parameters
of its definition, and clean. -/
theorem ancestor_spec (hd : r.get? d.name = some d) (h : r.ancestors d = .ok types)
    (ht : t ∈ types) :
    t.name ≠ d.name ∧ (∃ p, r.get? t.name = some p ∧ t.args.length = p.typeParams.names.length) ∧
      ∀ a ∈ t.args, a.CleanIn r.ParamLike d.typeParams.names := by
  have hmem := mem_of_get? hd
  refine ⟨?_, hr.registered hd h ht, fun a ha => ?_⟩
  · have := not_mem_trail_of_ancestorsVia hr.unshadowed h t.name (List.mem_map.mpr ⟨t, ht, rfl⟩)
    simpa using this
  · refine TypeArg.cleanIn_of_mem_args (hr.hygiene.cleanIn_of_ancestorsVia hr.written h
      (fun q hq => ⟨?_, hr.hygiene.cleanIn_supertype hr.written hmem hq⟩) t ht) ha
    exact hr.hygiene.applied_parents d hmem q hq

theorem eq_of_name_eq (hd : r.get? d.name = some d) (h : r.ancestors d = .ok types) {u : TypeExpr}
    (ht : t ∈ types) (hu : u ∈ types) (hn : t.name = u.name) : t = u := by
  have hnodup := hr.unique d (mem_of_get? hd) types (by rw [h]; rfl)
  exact List.inj_on_of_nodup_map hnodup ht hu hn

/-- **A method is inherited through the one ancestor type of its owner.** -/
theorem overrideFor_eq (hd : r.get? d.name = some d) (h : r.ancestors d = .ok types)
    (ht : t ∈ types) (hm : m.owner.name = t.name) : r.overrideFor d m = m.stub d.owner t := by
  have hne : d.name ≠ t.name := (hr.ancestor_spec hd h ht).1.symm
  have hfind : types.find? (·.name = t.name) = some t := by
    cases hf : types.find? (·.name = t.name) with
    | none =>
      have := List.find?_eq_none.mp hf t ht
      simp at this
    | some u =>
      have hu : u.name = t.name := by simpa using List.find?_some hf
      rw [hr.eq_of_name_eq hd h (List.mem_of_find?_eq_some hf) ht hu]
  rw [overrideFor, stubFor, ancestorFor, hm, if_neg hne, h]
  simp only [bind, Except.bind, hfind]
  rfl

/-- The ancestors of an ancestor are ancestors, written with its arguments. -/
theorem subst_mem_ancestors (hd : r.get? d.name = some d) (h : r.ancestors d = .ok types)
    (ht : t ∈ types) (hp : r.get? t.name = some p) {inherited : List TypeExpr}
    (hi : r.ancestors p = .ok inherited) {u : TypeExpr} (hu : u ∈ inherited) :
    u.subst (bound p.typeParams.names t.args) ∈ types := by
  have hs := hr.wellScoped
  have happlied := hr.hygiene.applied_parents
  have hclosed := closed_of_ancestorsVia hs happlied h (happlied d (mem_of_get? hd))
  obtain ⟨p', hp', hlen⟩ := hr.registered hd h ht
  cases hp.symm.trans hp'
  refine mem_of_ancestorsVia (S := {u | u.subst (bound p.typeParams.names t.args) ∈ types}) hs
    happlied hi (happlied p (mem_of_get? hp)) (fun q hq => ?_) ?_ u hu
  · obtain ⟨v, hv, hqv⟩ := hclosed t ht p hp q hq
    rwa [Set.mem_ofPred_eq, ((hs.parentAt_eq_ok_iff hp hlen).mp hqv).2]
  · intro v hv e he q hq w hw
    -- Replacement keeps the name of a registered type and the number of its arguments.
    have hsubst := TypeExpr.subst_of_none (t := v)
      (hs.bound_eq_none hp t.args (hs.not_isParam_of_get? he))
    obtain ⟨e', he', hlen'⟩ := hr.registered hd h hv
    rw [hsubst] at he' hlen'
    cases he.symm.trans he'
    rw [List.length_map] at hlen'
    obtain ⟨x, hx, hqx⟩ := hclosed _ hv e (by rwa [hsubst]) q hq
    rw [hs.parentAt_subst hp he hlen' hq hw] at hqx
    rwa [Set.mem_ofPred_eq, Except.ok.inj hqx]

end Orderly

/-! ## Handing down -/

/-- The method belongs to the definition, which is registered, and is neat. -/
structure Held (r : Registry) (d : Definition) (m : Method) : Prop where
  get? : r.get? d.name = some d
  owner : m.owner = d.owner
  neat : m.Neat r.ParamLike

theorem Held.owner_name (h : r.Held d m) : m.owner.name = d.name := by
  rw [h.owner]
  rfl

theorem Held.owner_typeParams (h : r.Held d m) : m.owner.typeParams = d.typeParams.names := by
  rw [h.owner]
  rfl

/-- `b` is what arrives on `d` of the method `m` of its ancestor `a`: a copy with the arguments of
the ancestor type. -/
structure HandedDown (r : Registry) (a : Definition) (m : Method) (d : Definition) (b : Method) :
    Prop where
  source : r.Held a m
  target : r.Held d b
  copy : ∃ types t f, r.ancestors d = .ok types ∧ t ∈ types ∧ t.name = a.name ∧ t.dims = 0 ∧
    m.Copy r.ParamLike t.args f b

section HandingDown

variable (hr : r.Orderly)
include hr

theorem Orderly.held (hd : r.get? d.name = some d) (hm : m ∈ d.methods.values) : r.Held d m := by
  have hmem := mem_of_get? hd
  obtain ⟨entry, hentry, rfl⟩ := List.mem_map.mp hm
  have howner := (hr.keyed d hmem entry hentry).2.1
  refine ⟨hd, howner, hr.hygiene.nodupMethods d hmem _ hm, fun name hn => ?_, fun t ht => ?_⟩
  · rcases List.mem_append.mp hn with hn | hn
    · exact paramLike_of_mem (mem_typeParamNames_of_method hmem hm hn)
    · rw [howner] at hn
      exact paramLike_of_mem (mem_typeParamNames_of_definition hmem hn)
  · have hu : (entry.2.scope, t) ∈ d.uses := List.mem_append_right _ (List.mem_flatMap.mpr
      ⟨_, hm, List.mem_map.mpr ⟨t, ht, rfl⟩⟩)
    exact hr.hygiene.cleanIn_of_use hr.written hmem hu

theorem Orderly.handedDown_of_overrideFor (hm : r.Held p m) (hd : r.get? d.name = some d)
    (hne : p.name ≠ d.name) (h : r.overrideFor d m = .ok b) : r.HandedDown p m d b := by
  have hstub := h
  obtain ⟨t, hancestor, _⟩ := Except.bind_eq_ok_iff.mp h
  rw [ancestorFor, hm.owner_name, if_neg hne.symm] at hancestor
  obtain ⟨types, htypes, hfind⟩ := Except.bind_eq_ok_iff.mp hancestor
  split at hfind
  · rename_i u hu
    have hut : u = t := Except.pure_eq_ok_iff.mp hfind
    subst hut
    have ht := List.mem_of_find?_eq_some hu
    have htname : u.name = p.name := by simpa using List.find?_some hu
    obtain ⟨_, ⟨p', hp', hlen⟩, hclean⟩ := hr.ancestor_spec hd htypes ht
    rw [htname] at hp'
    cases hm.get?.symm.trans hp'
    rw [hr.overrideFor_eq hd htypes ht (hm.owner_name.trans htname.symm)] at hstub
    obtain ⟨hdims, hneat, hcopy⟩ := Method.copy_of_stub hr.freshNames hm.neat
      (hr.hygiene.numbersApart (mem_of_get? hd)) (hr.wellScoped.params d (mem_of_get? hd)) hclean
      (fun hne hargs => hne (by
        rw [hargs, List.length_nil] at hlen
        rw [hm.owner_typeParams, List.length_eq_zero_iff.mp hlen.symm])) hstub
    exact ⟨hm, ⟨hd, (Method.stub_eq_ok hstub).1.owner, hneat⟩, types, u, _, htypes, ht, htname,
      hdims, hcopy⟩
  · cases hfind

theorem Orderly.exists_overrideFor (hm : r.Held p m) (hd : r.get? d.name = some d)
    (h : r.ancestors d = .ok types) (ht : t ∈ types) (hname : t.name = p.name)
    (hdims : t.dims = 0) : ∃ b, r.overrideFor d m = .ok b := by
  have howner : m.owner.name = t.name := hm.owner_name.trans hname.symm
  have hparams := hm.owner_typeParams
  obtain ⟨_, ⟨p', hp', hlen⟩, hclean⟩ := hr.ancestor_spec hd h ht
  rw [hname] at hp'
  cases hm.get?.symm.trans hp'
  rw [hr.overrideFor_eq hd h ht howner]
  refine Method.exists_stub hr.freshNames hm.neat (fun a ha => (hclean a ha).written) ?_ ?_
    howner.symm hdims (hparams ▸ hlen)
  · exact hparams ▸ hr.hygiene.nodup p (mem_of_get? hm.get?)
  · rw [hparams, hm.owner_name]
    exact fun hn => hr.wellScoped.not_isParam_of_get? hm.get?
      (hr.wellScoped.params p (mem_of_get? hm.get?) _ hn)

theorem HandedDown.name_ne (h : r.HandedDown a m d b) : a.name ≠ d.name := by
  obtain ⟨types, t, _, htypes, ht, hname, _⟩ := h.copy
  exact hname ▸ (hr.ancestor_spec h.target.get? htypes ht).1

/-- **Methods are handed down step by step.** -/
theorem HandedDown.trans (h₁ : r.HandedDown a m p b) (h₂ : r.HandedDown p b d c) :
    r.HandedDown a m d c := by
  obtain ⟨inherited, u, f, hinherited, hu, huname, hudims, hcopy₁⟩ := h₁.copy
  obtain ⟨types, t, g, htypes, ht, htname, _, hcopy₂⟩ := h₂.copy
  have hp := h₁.target.get?
  have hmem := hr.subst_mem_ancestors h₂.target.get? htypes ht (htname ▸ hp) hinherited hu
  have hsubst := TypeExpr.subst_of_none (t := u) (hr.wellScoped.bound_eq_none hp t.args
    (hr.wellScoped.not_isParam_of_get? (huname ▸ h₁.source.get?)))
  rw [hsubst] at hmem
  have hcopy := hcopy₁.trans hr.freshNames h₁.source.neat h₁.target.neat hcopy₂
  rw [h₁.target.owner] at hcopy
  exact ⟨h₁.source, h₂.target, types, _, _, htypes, hmem, huname, hudims, hcopy⟩

/-- What has the contract of a method that was handed down may stand for it. -/
theorem HandedDown.of_matchesContract (h : r.HandedDown a m d b) (he : r.Held d e)
    (hapart : e.Apart r.ParamLike) (hmatch : e.matchesContract b = true) :
    r.HandedDown a m d e := by
  obtain ⟨types, t, f, htypes, ht, hname, hdims, hcopy⟩ := h.copy
  obtain ⟨g, hcopy⟩ := hcopy.of_matchesContract hr.freshNames h.source.neat h.target.neat hapart
    (he.owner.trans h.target.owner.symm) hmatch
  exact ⟨h.source, he, types, t, g, htypes, ht, hname, hdims, hcopy⟩

/-- **Whatever arrives of one method has one contract.** -/
theorem HandedDown.matchesContract (h₁ : r.HandedDown a m d b) (h₂ : r.HandedDown a m d c) :
    b.matchesContract c = true := by
  obtain ⟨types, t, f, htypes, ht, htname, _, hcopy₁⟩ := h₁.copy
  obtain ⟨types', u, g, htypes', hu, huname, _, hcopy₂⟩ := h₂.copy
  cases htypes.symm.trans htypes'
  obtain rfl := hr.eq_of_name_eq h₁.target.get? htypes ht hu (htname.trans huname.symm)
  exact hcopy₁.matchesContract hr.freshNames h₁.source.neat hcopy₂
    (by rw [h₁.target.owner, h₂.target.owner])

/-- What arrives is also inherited directly. -/
theorem HandedDown.exists_overrideFor (h : r.HandedDown a m d b) :
    ∃ c, r.overrideFor d m = .ok c ∧ r.HandedDown a m d c := by
  obtain ⟨types, t, _, htypes, ht, hname, hdims, _⟩ := h.copy
  obtain ⟨c, hc⟩ := hr.exists_overrideFor h.source h.target.get? htypes ht hname hdims
  exact ⟨c, hc, hr.handedDown_of_overrideFor h.source h.target.get? (h.name_ne hr) hc⟩

end HandingDown

end Registry

end FluentGrammar
