import Mathlib.Algebra.Order.BigOperators.Group.List
import Mathlib.Algebra.Order.Group.Nat
import FluentGrammar.Proofs.AncestorSearch
import FluentGrammar.Proofs.Renaming

/-!
# Type parameters of other definitions

Ancestors should be written with the type parameters of their own definition. A parent without
arguments leaves the parameters of its definition as they are, so what that definition inherits with
them comes through as it is written there. This is the only way for a foreign parameter to get in.
Without it the ancestors of a definition do not depend on how the parameters of others are named,
and with it they do.

* `Registry.LeavesOpen`, `Registry.Leaks`: parents that let parameters of their definition through.
* `Registry.mention_of_ancestorsVia`: a type parameter in an ancestor is mentioned by a parent, or
  it has leaked.
* `Registry.Renamed`: the type parameters of all definitions under other names.
* `Registry.Renamed.ancestorsVia_rename`: where nothing leaks, ancestors are renamed with their
  definition.
* `Registry.Renamed.exists_mentions_of_leak`: a parameter that leaks shows up under a new name.
* **`Registry.ancestors_foreign_params`**: what ancestors mention, and when they depend on the names
  of foreign parameters.
-/

namespace FluentGrammar

open Relation

/-! ## Lists without repeats -/

section Lists

variable {α β : Type} {f : α → β} {seen as : List α}

theorem mem_map_iff_of_injOn {S : Set α} (hf : Set.InjOn f S) (has : ∀ x ∈ as, x ∈ S) {a : α}
    (ha : a ∈ S) : f a ∈ as.map f ↔ a ∈ as := by
  refine ⟨fun h => ?_, List.mem_map_of_mem⟩
  obtain ⟨b, hb, he⟩ := List.mem_map.mp h
  exact hf (has b hb) ha he ▸ hb

variable [DecidableEq α] [DecidableEq β]

theorem newOccurrences_map {S : Set α} (hf : Set.InjOn f S) (hseen : ∀ x ∈ seen, x ∈ S)
    (has : ∀ x ∈ as, x ∈ S) :
    newOccurrences (seen.map f) (as.map f) = (newOccurrences seen as).map f := by
  induction as generalizing seen with
  | nil => rfl
  | cons a as ih =>
    obtain ⟨ha, has⟩ := List.forall_mem_cons.mp has
    rw [List.map_cons, newOccurrences, newOccurrences]
    by_cases hm : a ∈ seen
    · rw [if_pos hm, if_pos (List.mem_map_of_mem hm), ih hseen has]
    · rw [if_neg hm, if_neg fun h => hm ((mem_map_iff_of_injOn hf hseen ha).mp h), List.map_cons,
        ← ih (List.forall_mem_cons.mpr ⟨ha, hseen⟩) has, List.map_cons]

theorem firstOccurrences_map {S : Set α} (hf : Set.InjOn f S) (has : ∀ x ∈ as, x ∈ S) :
    firstOccurrences (as.map f) = (firstOccurrences as).map f := by
  have hnil : ∀ x ∈ ([] : List α), x ∈ S := by simp
  exact newOccurrences_map hf hnil has

theorem map_append_filter {S : Set α} {bs : List α} (hf : Set.InjOn f S) (has : ∀ x ∈ as, x ∈ S)
    (hbs : ∀ x ∈ bs, x ∈ S) : (as ++ bs.filter (· ∉ as)).map f =
      as.map f ++ (bs.map f).filter (· ∉ as.map f) := by
  rw [List.map_append, List.filter_map]
  refine congrArg (as.map f ++ List.map f ·) (List.filter_congr fun b hb => decide_eq_decide.mpr ?_)
  exact (mem_map_iff_of_injOn hf has (hbs b hb)).not.symm

end Lists

/-! ## Definitions with renamed parameters -/

theorem exists_fresh_name (used : List String) : ∃ n, n ∉ used ∧ isCapture n = false := by
  refine ⟨String.ofList ('p' :: List.replicate (used.map String.length).sum 'p'), fun hm => ?_, ?_⟩
  · have hle := List.single_le_sum (by simp) _ (List.mem_map_of_mem (f := String.length) hm)
    rw [String.length_ofList, List.length_cons, List.length_replicate] at hle
    omega
  · rw [isCapture, String.toList_ofList]
    rfl

theorem map_rename_eq_self {ρ : String → String} (h : ∀ n, ρ n = n) (types : List TypeExpr) :
    types.map (TypeExpr.rename ρ) = types :=
  (List.map_congr_left fun _ _ => TypeExpr.rename_eq_self fun n _ => h n).trans (List.map_id _)

/-- The definition with the names in its type parameters and its parents changed. -/
def Definition.renameParams (ρ : String → String) (d : Definition) : Definition :=
  { d with
    typeParams := d.typeParams.map fun p => ⟨ρ p.name, p.bounds.map (TypeExpr.rename ρ)⟩
    shape := match d.shape with
      | .interface parents archetype => .interface (parents.map (TypeExpr.rename ρ)) archetype
      | .namedClass superclass interfaces paths =>
        .namedClass (superclass.map (TypeExpr.rename ρ)) (interfaces.map (TypeExpr.rename ρ)) paths
      | .anonymousClass parent => .anonymousClass (parent.rename ρ) }

theorem Definition.names_renameParams (ρ : String → String) (d : Definition) :
    (d.renameParams ρ).typeParams.names = d.typeParams.names.map ρ := by
  simp [renameParams, TypeParams.names]

theorem Definition.supertypes_renameParams (ρ : String → String) (d : Definition) :
    (d.renameParams ρ).supertypes = d.supertypes.map (TypeExpr.rename ρ) := by
  obtain ⟨_, _, _, _, _, _, _, _, _, shape⟩ := d
  cases shape with
  | interface parents archetype => rfl
  | namedClass superclass interfaces paths =>
    cases superclass <;> rfl
  | anonymousClass parent => rfl

namespace Registry

variable {r r' : Registry} {isParam : String → Prop} {name context start : String}
  {trail : List String} {parents types : List TypeExpr} {d e e' f : Definition}

/-! ## Leaks -/

/-- The parent has no arguments, and its definition passes the type parameter on to a parent of its
own. -/
def LeavesOpen (r : Registry) (parent : TypeExpr) (n : String) : Prop :=
  parent.args = [] ∧ ∃ e, r.get? parent.name = some e ∧ n ∈ e.typeParams.names ∧
    ∃ t ∈ e.supertypes, n ∈ t.allNames

/-- From `start` one gets along parents to a definition with a parent that leaves the type parameter
open. -/
def Leaks (r : Registry) (start n : String) : Prop :=
  ∃ name f, ReflTransGen r.Extends start name ∧ r.get? name = some f ∧
    ∃ parent ∈ f.supertypes, r.LeavesOpen parent n

/-- Only a use without arguments leaves a parameter unbound. -/
theorem args_eq_nil_of_bound {ps : TypeParams} {owner n : String} {args : List TypeArg}
    {s : Substitution} (h : ps.bind owner args = .ok s) (hn : n ∈ ps.names)
    (hnone : bound ps.names args n = none) : args = [] := by
  by_contra hargs
  have hlen : args.length = ps.names.length := by
    rw [TypeParams.length_of_bind h fun _ => hargs, TypeParams.names, List.length_map]
  obtain ⟨arg, harg⟩ := exists_bound hlen hn
  cases hnone.symm.trans harg

/-- **Where type parameters come from**: one that an ancestor mentions is mentioned by a parent, or
it has leaked. -/
theorem mention_of_ancestorsVia (hs : r.Scoped isParam)
    (h : r.ancestorsVia context trail parents = .ok types) (hf : r.get? name = some f)
    (hreach : ReflTransGen r.Extends start name) (hsub : parents ⊆ f.supertypes) {n : String}
    (hp : isParam n) : ∀ t ∈ types, t.mentions n = true →
      (∃ p ∈ parents, p.mentions n = true) ∨ r.Leaks start n := by
  revert name f
  refine ancestorsVia_induction (motive := fun _ parents types =>
    ∀ {name : String} {f : Definition}, r.get? name = some f →
      ReflTransGen r.Extends start name → parents ⊆ f.supertypes → ∀ t ∈ types,
        t.mentions n = true → (∃ p ∈ parents, p.mentions n = true) ∨ r.Leaks start n)
    (by simp) ?_ h
  intro trail parent rest e inherited ts others he _ hi ht above beside name f hf hreach hsub t
    htypes hn
  obtain ⟨hparent, hrest⟩ := List.cons_subset.mp hsub
  rcases mem_append_filter.mp htypes with hm | hm
  · obtain ⟨s, hbind, _, rfl⟩ := (throughParent_eq_ok_iff_subst (nodup_ancestorsVia hi)).mp ht
    rw [hs.value_of_bind he hbind] at hm
    rcases mem_cons_firstOccurrences.mp hm with rfl | hm
    · exact .inl ⟨t, List.mem_cons_self, hn⟩
    obtain ⟨u, hu, rfl⟩ := List.mem_map.mp hm
    rcases u.mentions_subst hn with ⟨hmentions, hnone⟩ | ⟨x, arg, _, harg, hmentions⟩ | htop
    · refine .inr ((above he (hreach.tail (extends_of_mem hf hparent)) (fun _ => id) u hu
        hmentions).elim ?_ id)
      rintro ⟨q, hq, hqn⟩
      -- The parameter is mentioned above but was not bound, so there are no arguments.
      have hin := hs.supertypes e (List.mem_of_find?_eq_some he) q hq n hqn hp
      exact ⟨name, f, hreach, hf, parent, hparent, args_eq_nil_of_bound hbind hin hnone, e, he, hin,
        q, hq, (q.mem_allNames n).mpr hqn⟩
    · exact .inl ⟨parent, List.mem_cons_self,
        TypeExpr.mentions_of_mem_args (mem_of_bound harg).2 hmentions⟩
    · exact absurd (htop ▸ hp) hs.top
  · obtain ⟨p, hpm, hpn⟩ | hleak := beside hf hreach hrest t hm hn
    · exact .inl ⟨p, List.mem_cons_of_mem _ hpm, hpn⟩
    · exact .inr hleak

theorem inFrame_of_not_leaks (hs : r.Scoped isParam)
    (h : r.ancestorsVia context trail parents = .ok types) (hf : r.get? name = some f)
    (hreach : ReflTransGen r.Extends start name) (hsub : parents ⊆ f.supertypes)
    (hleaks : ∀ n, ¬ r.Leaks start n) : ∀ t ∈ types, t.InFrame isParam f.typeParams.names := by
  intro t ht n hn hp
  obtain ⟨q, hq, hqn⟩ | hleak := mention_of_ancestorsVia hs h hf hreach hsub hp t ht hn
  · exact hs.supertypes f (List.mem_of_find?_eq_some hf) q (hsub hq) n hqn hp
  · exact absurd hleak (hleaks n)

/-- Where nothing leaks, a definition that is used without arguments has no ancestor that mentions
its parameters. -/
theorem not_mentions_of_not_leaks (hs : r.Scoped isParam) {parent : TypeExpr}
    (h : r.ancestorsVia context trail e.supertypes = .ok types) (hf : r.get? name = some f)
    (hreach : ReflTransGen r.Extends start name) (hparent : parent ∈ f.supertypes)
    (he : r.get? parent.name = some e) (hleaks : ∀ n, ¬ r.Leaks start n)
    (hargs : parent.args = []) : ∀ t ∈ types, ∀ n ∈ e.typeParams.names, t.mentions n ≠ true := by
  intro t ht n hn hmentions
  obtain ⟨q, hq, hqn⟩ | hleak := mention_of_ancestorsVia hs h he
    (hreach.tail (extends_of_mem hf hparent)) (fun _ => id)
    (hs.params e (List.mem_of_find?_eq_some he) n hn) t ht hmentions
  · exact hleaks n ⟨name, f, hreach, hf, parent, hparent, hargs, e, he, hn, q, hq,
      (q.mem_allNames n).mpr hqn⟩
  · exact hleaks n hleak

/-! ## Renamed registries -/

/-- A type parameter, or the new name of one. -/
def OldOrNew (ρ : String → String → String) (r : Registry) (n : String) : Prop :=
  n ∈ r.paramNames ∨ ∃ name d, r.get? name = some d ∧ n ∈ d.typeParams.names.map (ρ name)

/-- The second registry has the type parameters of each definition renamed, as far as parents are
concerned: different parameters of a definition stay different, and the new names stand for nothing
else. -/
structure Renamed (ρ : String → String → String) (r r' : Registry) : Prop where
  definition : ∀ name d, r.get? name = some d → ∃ d', r'.get? name = some d' ∧
    d'.typeParams.names = d.typeParams.names.map (ρ name) ∧
    d'.supertypes = d.supertypes.map (TypeExpr.rename (ρ name))
  others : ∀ name d, r.get? name = some d → ∀ n ∉ d.typeParams.names, ρ name n = n
  injOn : ∀ name d, r.get? name = some d → Set.InjOn (ρ name) {n | n ∈ d.typeParams.names}
  fresh : r.Scoped (r.OldOrNew ρ)

namespace Renamed

variable {ρ : String → String → String} (hr : Renamed ρ r r')
include hr

theorem injOn_frame (hf : r.get? name = some f) : Set.InjOn (TypeExpr.rename (ρ name))
    {t | t.InFrame (r.OldOrNew ρ) f.typeParams.names} := by
  have hnames : Set.InjOn (ρ name) {n | r.OldOrNew ρ n → n ∈ f.typeParams.names} := by
    have hnew : ∀ a ∈ f.typeParams.names, r.OldOrNew ρ (ρ name a) := fun a ha =>
      .inr ⟨name, f, hf, List.mem_map_of_mem ha⟩
    intro a ha b hb hab
    by_cases hma : a ∈ f.typeParams.names
    · by_cases hmb : b ∈ f.typeParams.names
      · exact hr.injOn name f hf hma hmb hab
      · rw [hr.others name f hf b hmb] at hab
        exact absurd (hb (hab ▸ hnew a hma)) hmb
    · rw [hr.others name f hf a hma] at hab
      by_cases hmb : b ∈ f.typeParams.names
      · exact absurd (ha (hab ▸ hnew b hmb)) hma
      · rw [hab, hr.others name f hf b hmb]
  exact (TypeExpr.rename_injOn hnames).mono fun t ht n hn => ht n hn

theorem rename_top (hf : r.get? name = some f) : ρ name TypeExpr.topName = TypeExpr.topName :=
  hr.others name f hf _ fun hm =>
    hr.fresh.top (hr.fresh.params f (List.mem_of_find?_eq_some hf) _ hm)

theorem rename_name (hf : r.get? name = some f) {n : String} (he : r.get? n = some e) :
    ρ name n = n :=
  hr.others name f hf n fun hm => hr.fresh.not_isParam_of_get? he
    (hr.fresh.params f (List.mem_of_find?_eq_some hf) n hm)

section Parent

variable {parent : TypeExpr} {s : Substitution} (hf : r.get? name = some f)
  (he : r.get? parent.name = some e)
include he

theorem exists_bind_rename
    (hparams : e'.typeParams.names = e.typeParams.names.map (ρ parent.name))
    (hbind : e.typeParams.bind e.name parent.args = .ok s) (σ : String → String) :
    ∃ s', e'.typeParams.bind e'.name (parent.rename σ).args = .ok s' ∧
      s'.value = bound (e.typeParams.names.map (ρ parent.name))
        (parent.args.map (TypeArg.rename σ)) := by
  obtain ⟨s', hbind'⟩ : ∃ s', e'.typeParams.bind e'.name (parent.rename σ).args = .ok s' := by
    rw [TypeExpr.args_rename]
    by_cases hargs : parent.args = []
    · exact ⟨.unresolved e'.typeParams.names, by rw [hargs]; rfl⟩
    · refine TypeParams.exists_bind e'.name ?_
      have hlen := congrArg List.length hparams
      simp only [TypeParams.names, List.length_map] at hlen
      rw [List.length_map, TypeParams.length_of_bind hbind fun _ => hargs, hlen]
  refine ⟨s', hbind', ?_⟩
  rw [Substitution.value_of_bind hbind' fun n hn => hr.fresh.uncaptured n
    (.inr ⟨parent.name, e, he, hparams ▸ hn⟩), hparams, TypeExpr.args_rename]

theorem bound_rename {u : TypeExpr} (hu : u.InFrame (r.OldOrNew ρ) e.typeParams.names) {n : String}
    (hn : u.mentions n = true) (σ : String → String) :
    bound (e.typeParams.names.map (ρ parent.name)) (parent.args.map (TypeArg.rename σ))
      (ρ parent.name n) = (bound e.typeParams.names parent.args n).map (TypeArg.rename σ) := by
  rw [bound_map, bound_map_names]
  intro m hm hmn
  by_cases hin : n ∈ e.typeParams.names
  · exact hr.injOn parent.name e he hm hin hmn
  · rw [hr.others parent.name e he n hin] at hmn
    exact absurd (hu n hn (.inr ⟨parent.name, e, he, hmn ▸ List.mem_map_of_mem hm⟩)) hin

include hf

/-- An inherited type may be renamed for the definition that inherits it or for the parent's. -/
theorem subst_bound_rename {u : TypeExpr}
    (hbind : e.typeParams.bind e.name parent.args = .ok s)
    (hu : u.InFrame (r.OldOrNew ρ) e.typeParams.names)
    (hopen : parent.args = [] → ∀ n ∈ e.typeParams.names, u.mentions n ≠ true) :
    (u.rename (ρ parent.name)).subst (bound (e.typeParams.names.map (ρ parent.name))
      (parent.args.map (TypeArg.rename (ρ name)))) =
        (u.subst (bound e.typeParams.names parent.args)).rename (ρ name) := by
  refine TypeExpr.subst_rename (hr.rename_top hf) u (fun n hn => hr.bound_rename he hu hn _)
    fun n hn hnone => ?_
  -- A name that is not bound is a parameter neither of the parent's definition nor of this one.
  have hne : n ∉ e.typeParams.names := fun hin =>
    hopen (args_eq_nil_of_bound hbind hin hnone) n hin hn
  have hne' : n ∉ f.typeParams.names := fun hin => hne (hu n hn
    (hr.fresh.params f (List.mem_of_find?_eq_some hf) n hin))
  rw [hr.others parent.name e he n hne, hr.others name f hf n hne']

/-- **One parent renamed**: what comes through it is renamed as well, if it leaves nothing open. -/
theorem throughParent_rename {inherited ts : List TypeExpr}
    (hparams : e'.typeParams.names = e.typeParams.names.map (ρ parent.name))
    (hn : inherited.Nodup)
    (hinherited : ∀ u ∈ inherited, u.InFrame (r.OldOrNew ρ) e.typeParams.names)
    (hopen : parent.args = [] → ∀ u ∈ inherited, ∀ n ∈ e.typeParams.names, u.mentions n ≠ true)
    (hts : ∀ t ∈ ts, t.InFrame (r.OldOrNew ρ) f.typeParams.names)
    (ht : throughParent parent e inherited = .ok ts) :
    throughParent (parent.rename (ρ name)) e' (inherited.map (TypeExpr.rename (ρ parent.name))) =
      .ok (ts.map (TypeExpr.rename (ρ name))) := by
  obtain ⟨s, hbind, happlied, rfl⟩ := (throughParent_eq_ok_iff_subst hn).mp ht
  obtain ⟨s', hbind', hvalue'⟩ := hr.exists_bind_rename he hparams hbind (ρ name)
  have hvalue := hr.fresh.value_of_bind he hbind
  have hmap : (inherited.map (TypeExpr.rename (ρ parent.name))).map (TypeExpr.subst s'.value) =
      (inherited.map (TypeExpr.subst s.value)).map (TypeExpr.rename (ρ name)) := by
    rw [List.map_map, List.map_map]
    refine List.map_congr_left fun u hu => ?_
    rw [Function.comp_apply, Function.comp_apply, hvalue, hvalue']
    exact hr.subst_bound_rename hf he hbind (hinherited u hu) fun hargs => hopen hargs u hu
  have hframe : ∀ t ∈ inherited.map (TypeExpr.subst s.value),
      t.InFrame (r.OldOrNew ρ) f.typeParams.names := fun t ht =>
    hts t (mem_cons_firstOccurrences.mpr (.inr ht))
  refine (throughParent_eq_ok_iff_subst ?_).mpr ⟨s', hbind', ?_, ?_⟩
  · exact hn.map_on fun t ht u hu h => hr.injOn_frame he (hinherited t ht) (hinherited u hu) h
  · intro t ht n hn hmem
    obtain ⟨u, hu, rfl⟩ := List.mem_map.mp ht
    rw [TypeExpr.applied_rename] at hn
    obtain ⟨m, hm, rfl⟩ := List.mem_map.mp hn
    have hne := happlied u hu m hm
    rw [hr.others parent.name e he m hne, hparams] at hmem
    exact hne (hinherited u hu m (TypeExpr.mentions_of_applied hm)
      (.inr ⟨parent.name, e, he, hmem⟩))
  · rw [hmap, firstOccurrences_map (hr.injOn_frame hf) hframe, List.filter_map, List.map_cons]
    refine congrArg (_ :: List.map _ ·) (List.filter_congr fun t ht => decide_eq_decide.mpr ?_)
    refine not_congr ⟨congrArg _, fun h => hr.injOn_frame hf ?_ (hts parent List.mem_cons_self) h⟩
    exact hframe t (mem_firstOccurrences.mp ht)

end Parent

/-- **Ancestors are renamed with their definition**, where nothing leaks. -/
theorem ancestorsVia_rename (h : r.ancestorsVia context trail parents = .ok types)
    (hf : r.get? name = some f) (hreach : ReflTransGen r.Extends start name)
    (hsub : parents ⊆ f.supertypes) (hleaks : ∀ n, ¬ r.Leaks start n) :
    r'.ancestorsVia context trail (parents.map (TypeExpr.rename (ρ name))) =
      .ok (types.map (TypeExpr.rename (ρ name))) := by
  fun_induction ancestorsVia r context trail parents generalizing types name f with
  | case1 =>
    cases h
    exact ancestorsVia_nil
  | case2 => cases h
  | case3 => cases h
  | case4 context trail parent rest e he hn above beside =>
    simp only [Except.bind_eq_ok_iff, Except.pure_eq_ok_iff] at h
    obtain ⟨inherited, hi, ts, ht, others, ho, rfl⟩ := h
    have hframe := inFrame_of_not_leaks hr.fresh (ancestorsVia_cons_eq_ok_iff.mpr
      ⟨e, inherited, ts, others, he, hn, hi, ht, ho, rfl⟩) hf hreach hsub hleaks
    obtain ⟨hparent, hrest⟩ := List.cons_subset.mp hsub
    have hreach' := hreach.tail (extends_of_mem hf hparent)
    obtain ⟨e', he', hparams, hsupertypes⟩ := hr.definition parent.name e he
    have hname : e'.name = e.name := (name_of_get? he').trans (name_of_get? he).symm
    have hinherited := inFrame_of_not_leaks hr.fresh hi he hreach' (fun _ => id) hleaks
    have hts : ∀ t ∈ ts, t.InFrame (r.OldOrNew ρ) f.typeParams.names := fun t ht =>
      hframe t (mem_append_filter.mpr (.inl ht))
    have hothers : ∀ t ∈ others, t.InFrame (r.OldOrNew ρ) f.typeParams.names := fun t ht =>
      hframe t (mem_append_filter.mpr (.inr ht))
    have hopen := not_mentions_of_not_leaks hr.fresh hi hf hreach hparent he hleaks
    rw [List.map_cons]
    refine ancestorsVia_cons_eq_ok_iff.mpr ⟨e', inherited.map (TypeExpr.rename (ρ parent.name)),
      ts.map (TypeExpr.rename (ρ name)), others.map (TypeExpr.rename (ρ name)), ?_, hname ▸ hn, ?_,
      ?_, ?_, ?_⟩
    · rw [TypeExpr.name_rename, hr.rename_name hf he, he']
    · rw [hname, hsupertypes]
      exact above hi he hreach' (fun _ => id)
    · exact hr.throughParent_rename hf he hparams (nodup_ancestorsVia hi) hinherited hopen hts ht
    · exact beside ho hf hreach hrest
    · exact map_append_filter (hr.injOn_frame hf) hts hothers

end Renamed

/-! ## Leaks under new names -/

theorem exists_throughParent_of_mem (h : r.ancestorsVia context trail parents = .ok types) :
    ∀ p ∈ parents, ∃ e inherited ts, r.get? p.name = some e ∧ r.ancestors e = .ok inherited ∧
      throughParent p e inherited = .ok ts ∧ ts ⊆ types := by
  refine ancestorsVia_induction (motive := fun _ parents types => ∀ p ∈ parents, ∃ e inherited ts,
    r.get? p.name = some e ∧ r.ancestors e = .ok inherited ∧ throughParent p e inherited = .ok ts ∧
      ts ⊆ types) (by simp) ?_ h
  intro trail parent rest e inherited ts others he _ hi ht _ beside p hp
  rcases List.mem_cons.mp hp with rfl | hp
  · exact ⟨e, inherited, ts, he, hi, ht, fun t hm => mem_append_filter.mpr (.inl hm)⟩
  · obtain ⟨e', us, ts', he', hus, hts', hsub⟩ := beside p hp
    exact ⟨e', us, ts', he', hus, hts', fun t hm => mem_append_filter.mpr (.inr (hsub hm))⟩

theorem value_eq_none_of_bind {ps : TypeParams} {owner n : String} {args : List TypeArg}
    {s : Substitution} (h : ps.bind owner args = .ok s) (hn : n ∉ ps.names ∨ args = []) :
    s.value n = none := by
  have hget := Substitution.get?_of_bind h n
  have hnone : bound ps.names args n = none := by
    rcases hn with hn | rfl
    · exact bound_eq_none_of_not_mem hn
    · rw [bound, List.zip_nil_right]
      rfl
  rw [hnone] at hget
  rw [Substitution.value, Substitution.lookup, hget]
  split <;> rfl

/-- A name passes from the ancestors of a parent's definition, unless it is bound there. -/
theorem exists_mentions_of_parent {parent : TypeExpr} {n : String} (h : r.ancestors d = .ok types)
    (hp : parent ∈ d.supertypes) (he : r.get? parent.name = some e)
    (hopen : n ∉ e.typeParams.names ∨ parent.args = [])
    (habove : ∀ us, r.ancestors e = .ok us → ∃ u ∈ us, u.mentions n = true) :
    ∃ t ∈ types, t.mentions n = true := by
  obtain ⟨_, inherited, ts, he₁, hi, ht, hsub⟩ := exists_throughParent_of_mem h parent hp
  cases he.symm.trans he₁
  obtain ⟨u, hu, hmentions⟩ := habove inherited hi
  obtain ⟨s, hbind, happlied, rfl⟩ := (throughParent_eq_ok_iff_subst (nodup_ancestorsVia hi)).mp ht
  refine ⟨u.subst s.value, hsub (mem_cons_firstOccurrences.mpr (.inr (List.mem_map_of_mem hu))), ?_⟩
  exact u.mentions_subst_of_none (value_eq_none_of_bind hbind hopen)
    (fun x hx => value_eq_none_of_bind hbind (.inl (happlied u hu x hx))) hmentions

/-- **A leak shows.** If the new name of a parameter is new for all definitions, and the parameter
leaks, then the ancestors mention the new name. -/
theorem Renamed.exists_mentions_of_leak {ρ : String → String → String} (hr : Renamed ρ r r')
    {parent q : TypeExpr} {n : String} (hreach : ReflTransGen r.Extends start name)
    (hf : r.get? name = some f) (hparent : parent ∈ f.supertypes) (hargs : parent.args = [])
    (he : r.get? parent.name = some e) (hq : q ∈ e.supertypes) (hn : n ∈ q.allNames)
    (hacyclic : ¬ TransGen r.Extends parent.name parent.name)
    (hfresh : ∀ a d, a ≠ parent.name → r.get? a = some d →
      ρ parent.name n ∉ d.typeParams.names.map (ρ a)) :
    ∀ d' us, r'.get? start = some d' → r'.ancestors d' = .ok us →
      ∃ u ∈ us, u.mentions (ρ parent.name n) = true := by
  have hback : r.Extends name parent.name := extends_of_mem hf hparent
  induction hreach using ReflTransGen.head_induction_on with
  | refl =>
    intro f' us hf' hus
    obtain ⟨_, hf₁, _, hsupertypes⟩ := hr.definition name f hf
    cases hf'.symm.trans hf₁
    obtain ⟨e', he', _, habove⟩ := hr.definition parent.name e he
    have hname : (parent.rename (ρ name)).name = parent.name := by
      rw [TypeExpr.name_rename, hr.rename_name hf he]
    refine exists_mentions_of_parent hus (hsupertypes ▸ List.mem_map_of_mem hparent)
      (hname ▸ he') (.inr (by rw [TypeExpr.args_rename, hargs, List.map_nil])) fun vs hvs => ?_
    refine ⟨_, subset_ancestorsVia hvs _ (habove ▸ List.mem_map_of_mem hq), ?_⟩
    rw [← TypeExpr.mem_allNames, TypeExpr.allNames_rename]
    exact List.mem_map_of_mem hn
  | @head a c hac hc ih =>
    intro d' us hd' hus
    obtain ⟨d, hd, hm⟩ := hac
    obtain ⟨t, ht, rfl⟩ := List.mem_map.mp hm
    obtain ⟨_, hd₁, _, hsupertypes⟩ := hr.definition a d hd
    cases hd'.symm.trans hd₁
    obtain ⟨g, hg⟩ : ∃ g, r.get? t.name = some g := by
      rcases hc.cases_head with he | ⟨_, ⟨g, hg, _⟩, _⟩
      · exact ⟨f, he ▸ hf⟩
      · exact ⟨g, hg⟩
    obtain ⟨g', hg', hparams, _⟩ := hr.definition t.name g hg
    have hne : t.name ≠ parent.name := fun heq =>
      hacyclic (TransGen.tail' (heq ▸ hc) hback)
    have hname : (t.rename (ρ a)).name = t.name := by
      rw [TypeExpr.name_rename, hr.rename_name hd hg]
    exact exists_mentions_of_parent hus (hsupertypes ▸ List.mem_map_of_mem ht) (hname ▸ hg')
      (.inl (hparams ▸ hfresh t.name g hne hg)) fun vs hvs => ih g' vs hg' hvs

/-! ## A new name for one parameter -/

/-- The names that occur in a registry as far as parents are concerned. -/
def takenNames (r : Registry) : List String :=
  TypeExpr.topName :: (r.definitions ++ r.anonymous).flatMap fun d =>
    d.name :: (d.typeParams.names ++ d.supertypes.flatMap TypeExpr.allNames)

theorem injOn_update {names : List String} {n p : String} (hp : p ∉ names) :
    Set.InjOn (Function.update id n p) {x | x ∈ names} := by
  intro x hx y hy hxy
  by_cases hxn : x = n
  · by_cases hyn : y = n
    · rw [hxn, hyn]
    · rw [hxn, Function.update_self, Function.update_of_ne hyn] at hxy
      exact absurd (hxy ▸ hy) hp
  · rw [Function.update_of_ne hxn] at hxy
    by_cases hyn : y = n
    · rw [hyn, Function.update_self] at hxy
      exact absurd (hxy ▸ hx) hp
    · rwa [Function.update_of_ne hyn] at hxy

section Update

variable {n p : String} (hp : p ∉ r.takenNames)
include hp

theorem not_taken_of_mem (hd : d ∈ r.definitions ++ r.anonymous) :
    p ≠ d.name ∧ p ∉ d.typeParams.names ∧ ∀ t ∈ d.supertypes, p ∉ t.allNames := by
  have hnot : p ∉ d.name :: (d.typeParams.names ++ d.supertypes.flatMap TypeExpr.allNames) :=
    fun hm => hp (List.mem_cons_of_mem _ (List.mem_flatMap.mpr ⟨d, hd, hm⟩))
  simpa using hnot

theorem WellScoped.scoped_update (hscoped : r.WellScoped) (hcapture : isCapture p = false) :
    r.Scoped (r.OldOrNew (Function.update (fun _ => id) name (Function.update id n p))) := by
  have hold : ∀ {x}, r.OldOrNew (Function.update (fun _ => id) name (Function.update id n p)) x →
      x ∈ r.paramNames ∨ x = p := by
    rintro x (h | ⟨a, d, hd, hx⟩)
    · exact .inl h
    obtain ⟨y, hy, rfl⟩ := List.mem_map.mp hx
    have hold : y ∈ r.paramNames := List.mem_flatMap.mpr ⟨d, List.mem_of_find?_eq_some hd, hy⟩
    by_cases ha : a = name
    · rw [ha, Function.update_self]
      by_cases hyn : y = n
      · exact .inr (by rw [hyn, Function.update_self])
      · exact .inl (by rwa [Function.update_of_ne hyn])
    · exact .inl (by rwa [Function.update_of_ne ha])
  have hs := hscoped.scoped
  refine ⟨fun d hd x hx => .inl (hs.params d hd x hx), fun d hd t ht x hx h => ?_, fun d hd h => ?_,
    fun h => ?_, fun x h => ?_⟩
  · rcases hold h with h | rfl
    · exact hs.supertypes d hd t ht x hx h
    · exact absurd ((t.mem_allNames _).mpr hx) ((not_taken_of_mem hp hd).2.2 t ht)
  · rcases hold h with h | h
    · exact hs.concrete d hd h
    · exact (not_taken_of_mem hp hd).1 h.symm
  · rcases hold h with h | h
    · exact hs.top h
    · exact hp (h ▸ List.mem_cons_self)
  · rcases hold h with h | rfl
    · exact hs.uncaptured x h
    · exact hcapture

/-- **One parameter renamed.** A type parameter of a definition may get any name that is not in
use. -/
theorem renamed_modify (hscoped : r.WellScoped) (he : r.get? name = some e)
    (hcapture : isCapture p = false) (hn : n ∈ e.typeParams.names) :
    Renamed (Function.update (fun _ => id) name (Function.update id n p)) r
      (r.modify name (·.renameParams (Function.update id n p))) := by
  have hget := get?_modify (r := r) (f := (·.renameParams (Function.update id n p)))
    (fun d (hd : d.name = name) => hd)
  refine ⟨fun a d hd => ?_, fun a d hd x hx => ?_, fun a d hd => ?_,
    hscoped.scoped_update hp hcapture⟩
  · by_cases ha : a = name
    · subst ha
      rw [Function.update_self]
      exact ⟨_, by rw [hget, if_pos rfl, hd]; rfl, d.names_renameParams _,
        d.supertypes_renameParams _⟩
    · rw [Function.update_of_ne ha]
      exact ⟨d, by rw [hget, if_neg ha, hd], (List.map_id _).symm,
        (map_rename_eq_self (fun _ => rfl) _).symm⟩
  · by_cases ha : a = name
    · subst ha
      cases he.symm.trans hd
      have hne : x ≠ n := fun hxn => hx (hxn ▸ hn)
      rw [Function.update_self, Function.update_of_ne hne, id]
    · rw [Function.update_of_ne ha, id]
  · by_cases ha : a = name
    · rw [ha, Function.update_self]
      exact injOn_update (not_taken_of_mem hp (List.mem_of_find?_eq_some hd)).2.1
    · rw [Function.update_of_ne ha]
      exact Set.injOn_id _

end Update

/-! ## Foreign parameters -/

/-- **Foreign type parameters.** In a well-scoped registry, a type parameter that an ancestor
mentions is one of the definition or leaks through a parent without arguments. The ancestors depend
on what the parameters of other definitions are named exactly if one leaks. -/
theorem ancestors_foreign_params (hscoped : r.WellScoped) (hd : r.get? name = some d)
    (h : r.ancestors d = .ok types) :
    (∀ t ∈ types, ∀ n ∈ t.allNames, n ∈ r.paramNames →
      n ∈ d.typeParams.names ∨ r.Leaks name n) ∧
    ((∀ ρ r', Renamed ρ r r' → (∀ n, ρ name n = n) →
      ∃ d', r'.get? name = some d' ∧ r'.ancestors d' = .ok types) ↔ ∀ n, ¬ r.Leaks name n) := by
  refine ⟨fun t ht n hn hp => ?_, fun hsame n hleak => ?_, fun hleaks ρ r' hr hself => ?_⟩
  · refine (mention_of_ancestorsVia hscoped.scoped h hd .refl (fun _ => id) hp t ht
      ((t.mem_allNames n).mp hn)).imp_left ?_
    rintro ⟨q, hq, hqn⟩
    exact hscoped.scoped.supertypes d (List.mem_of_find?_eq_some hd) q hq n hqn hp
  · obtain ⟨a, f, hreach, hf, parent, hparent, hargs, e, he, hn, q, hq, hqn⟩ := hleak
    have hback : TransGen r.Extends name parent.name :=
      TransGen.tail' hreach (extends_of_mem hf hparent)
    have hne : name ≠ parent.name := (reachable_of_ancestors hd h hback).2.symm
    have hacyclic := (foundedAbove_of_ancestors hd h).acyclic _ hback.to_reflTransGen
    obtain ⟨p, hp, hcapture⟩ := exists_fresh_name (r.takenNames ++ types.flatMap TypeExpr.allNames)
    simp only [List.mem_append, not_or] at hp
    obtain ⟨htaken, hnew⟩ := hp
    have hr := renamed_modify htaken hscoped he hcapture hn
    obtain ⟨d', hd', h'⟩ := hsame _ _ hr fun x => by rw [Function.update_of_ne hne, id]
    obtain ⟨u, hu, hmentions⟩ := hr.exists_mentions_of_leak hreach hf hparent hargs he hq hqn
      hacyclic (fun b g hb hg => by
        rw [Function.update_self, Function.update_self, Function.update_of_ne hb, List.map_id]
        exact (not_taken_of_mem htaken (List.mem_of_find?_eq_some hg)).2.1) d' types hd' h'
    rw [Function.update_self, Function.update_self] at hmentions
    exact hnew (List.mem_flatMap.mpr ⟨u, hu, (u.mem_allNames p).mpr hmentions⟩)
  · obtain ⟨d', hd', _, hsupertypes⟩ := hr.definition name d hd
    have hname : d'.name = d.name := (name_of_get? hd').trans (name_of_get? hd).symm
    have hrenamed := hr.ancestorsVia_rename h hd .refl (fun _ => id) hleaks
    rw [← hsupertypes, ← hname, map_rename_eq_self hself types] at hrenamed
    exact ⟨d', hd', hrenamed⟩

theorem exists_ancestors_of_texts {texts : List String} (h : ((r.get? name).any fun d =>
    (r.ancestors d).toOption.any fun types => types.map TypeExpr.text = texts) = true) :
    ∃ d types, r.get? name = some d ∧ r.ancestors d = .ok types ∧
      types.map TypeExpr.text = texts := by
  obtain ⟨d, hd, h⟩ := (Option.any_eq_true _ _).mp h
  obtain ⟨types, htypes, h⟩ := Except.exists_of_any h
  exact ⟨d, types, hd, htypes, of_decide_eq_true h⟩

/-- The interface `D<T>` has the parent `I` without its argument, whose own parent does not need
it. -/
def closedModel : Registry :=
  ofInterfaces
    [("K", [], []),
     ("I", ["T"], [.named "K"]),
     ("Q", ["X"], []),
     ("P", ["A"], [.generic "Q" [.plain (.generic "Set" [.plain (.named "A")])], .named "I"]),
     ("D", ["T"], [.named "I", .generic "P" [.plain (.named "T")]])]

/-- Nothing leaks into `D`, so its ancestors are the same under all renamings of the other
definitions. -/
theorem ancestors_foreign_params_closed :
    ∃ d types, closedModel.WellScoped ∧ closedModel.get? "D" = some d ∧
      closedModel.ancestors d = .ok types ∧
      types.map TypeExpr.text = ["I", "K", "P<T>", "Q<Set<T>>"] ∧
      (∀ t ∈ types, ∀ n ∈ t.allNames, n ∈ closedModel.paramNames → n ∈ d.typeParams.names) ∧
      ∀ ρ r', Renamed ρ closedModel r' → (∀ n, ρ "D" n = n) →
        ∃ d', r'.get? "D" = some d' ∧ r'.ancestors d' = .ok types := by
  have hscoped : closedModel.WellScoped := by decide +kernel
  have hclosed : ∀ f ∈ closedModel.definitions ++ closedModel.anonymous, ∀ parent ∈ f.supertypes,
      parent.args = [] → ∀ e ∈ closedModel.get? parent.name, ∀ n ∈ e.typeParams.names,
        ∀ t ∈ e.supertypes, n ∉ t.allNames := by
    decide +kernel
  have hleaks : ∀ n, ¬ closedModel.Leaks "D" n := by
    rintro n ⟨_, f, _, hf, parent, hparent, hargs, e, he, hn, t, ht, hnt⟩
    exact hclosed f (List.mem_of_find?_eq_some hf) parent hparent hargs e he n hn t ht hnt
  have hfound : ((closedModel.get? "D").any fun d =>
      (closedModel.ancestors d).toOption.any fun types =>
        types.map TypeExpr.text = ["I", "K", "P<T>", "Q<Set<T>>"]) = true := by
    decide +kernel
  obtain ⟨d, types, hd, h, htexts⟩ := exists_ancestors_of_texts hfound
  obtain ⟨hframe, hsame⟩ := ancestors_foreign_params hscoped hd h
  exact ⟨d, types, hscoped, hd, h, htexts,
    fun t ht n hn hp => (hframe t ht n hn hp).resolve_right (hleaks n), hsame.mpr hleaks⟩

/-- The interface `D` has the parent `I` without its argument. -/
def leakingModel (param : String) : Registry :=
  ofInterfaces
    [("J", ["X"], []),
     ("I", [param], [.generic "J" [.plain (.named param)]]),
     ("D", [], [.named "I"])]

/-- The interface `D` has a type parameter that is named like a captured wildcard. -/
def capturingModel (param : String) : Registry :=
  ofInterfaces
    [("J", ["X"], []),
     ("I", ["T", param], [.generic "J" [.plain (.named "T")]]),
     ("D", ["capture#1"], [.generic "I" [.plain (.named "capture#1"), .plain (.named "Foo")]])]

/-- **Ancestors mention foreign type parameters.** The ancestor `J<T>` of `D` mentions a type
parameter of `I` and becomes `J<U>` if that is renamed. Where type parameters are named like
captured wildcards, ancestors depend on foreign names as well, although no parent lacks its
arguments. -/
theorem ancestors_depend_on_foreign_params :
    (leakingModel "T").WellScoped ∧ (leakingModel "U").WellScoped ∧
      (∃ d types, (leakingModel "T").get? "D" = some d ∧
        (leakingModel "T").ancestors d = .ok types ∧ types.map TypeExpr.text = ["I", "J<T>"] ∧
        "T" ∈ (leakingModel "T").paramNames ∧ "T" ∉ d.typeParams.names) ∧
      (∃ d types, (leakingModel "U").get? "D" = some d ∧
        (leakingModel "U").ancestors d = .ok types ∧ types.map TypeExpr.text = ["I", "J<U>"]) ∧
      (∀ param ∈ ["capture#1", "U"], (capturingModel param).FullyApplied ∧
        ∀ d ∈ (capturingModel param).definitions, d.name ∉ (capturingModel param).paramNames ∧
          ∀ t ∈ d.supertypes, ∀ n ∈ t.allNames, n ∈ (capturingModel param).paramNames →
            n ∈ d.typeParams.names) ∧
      (∃ d types, (capturingModel "capture#1").get? "D" = some d ∧
        (capturingModel "capture#1").ancestors d = .ok types ∧
        types.map TypeExpr.text = ["I<capture#1, Foo>", "J<Foo>"]) ∧
      ∃ d types, (capturingModel "U").get? "D" = some d ∧
        (capturingModel "U").ancestors d = .ok types ∧
        types.map TypeExpr.text = ["I<capture#1, Foo>", "J<capture#1>"] := by
  refine ⟨by decide +kernel, by decide +kernel, ?_, exists_ancestors_of_texts (by decide +kernel),
    by decide +kernel, exists_ancestors_of_texts (by decide +kernel),
    exists_ancestors_of_texts (by decide +kernel)⟩
  have hfound : (((leakingModel "T").get? "D").any fun d =>
      ((leakingModel "T").ancestors d).toOption.any fun types =>
        types.map TypeExpr.text = ["I", "J<T>"]) = true := by
    decide +kernel
  have hparams : ∀ d ∈ (leakingModel "T").get? "D", "T" ∉ d.typeParams.names := by decide +kernel
  obtain ⟨d, types, hd, h, htexts⟩ := exists_ancestors_of_texts hfound
  exact ⟨d, types, hd, h, htexts, by decide +kernel, hparams d hd⟩

end Registry

end FluentGrammar
