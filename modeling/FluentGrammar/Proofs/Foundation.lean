import FluentGrammar.Proofs.Evolution
import FluentGrammar.Proofs.MethodTable
import Mathlib.Logic.Relation

/-!
# Well-founded inheritance

Tables of methods are made by recursion along the names of parents. The recursion needs no trail in
a registry in which every parent is registered and no definition inherits from itself: then it never
goes deeper than there are names.

* `Registry.Extends`, `Registry.Founded`: the names of parents, and registries in which they lead
  nowhere but to the end.
* `Registry.Founded.of_ancestors`: a class whose parents changed keeps the registry founded, if its
  ancestors can be found.
* `Registry.tableWithin`: the table of a definition by a recursion without a trail that stops at a
  given depth.
* **`Registry.Founded.tableWithin_eq`**: in a founded registry the number of names is deep enough.
-/

namespace FluentGrammar

open Relation

namespace Registry

variable {r r' : Registry} {name a b : String} {d d' : Definition} {trail : List String}

/-- The definition of `a` names `b` among its parents. -/
def Extends (r : Registry) (a b : String) : Prop :=
  ∃ d, r.get? a = some d ∧ b ∈ d.supertypes.map TypeExpr.name

/-- Names are given once, every parent is registered, and no definition inherits from itself. -/
structure Founded (r : Registry) : Prop where
  nodup : r.names.Nodup
  closed : ∀ a b, r.Extends a b → b ∈ r.names
  acyclic : ∀ a, ¬ TransGen r.Extends a a

theorem extends_of_mem (hd : r.get? a = some d) {t : TypeExpr} (ht : t ∈ d.supertypes) :
    r.Extends a t.name :=
  ⟨d, hd, List.mem_map.mpr ⟨t, ht, rfl⟩⟩

theorem mem_names_iff : name ∈ r.names ↔ ∃ d, r.get? name = some d := by
  constructor
  · intro h
    obtain ⟨d, hd, rfl⟩ := List.mem_map.mp h
    refine Option.isSome_iff_exists.mp ?_
    rw [get?, List.find?_isSome]
    exact ⟨d, hd, by simp⟩
  · rintro ⟨d, hd⟩
    exact mem_names_of_get? hd

theorem get?_of_nodup (hn : r.names.Nodup) (hd : d ∈ r.definitions ++ r.anonymous) :
    r.get? d.name = some d := by
  obtain ⟨e, he⟩ := mem_names_iff.mp (List.mem_map_of_mem hd)
  rw [he, List.inj_on_of_nodup_map hn (mem_of_get? he) hd (name_of_get? he)]

/-! ## What the search for ancestors has seen -/

/-- Where the ancestors through `parents` are found, all names above are registered and none is on
the trail. -/
theorem reachable_of_ancestorsVia {context : String} {parents types : List TypeExpr}
    (h : r.ancestorsVia context trail parents = .ok types) :
    ∀ parent ∈ parents, ∀ b, ReflTransGen r.Extends parent.name b → b ∈ r.names ∧ b ∉ trail := by
  refine ancestorsVia_induction
    (motive := fun trail parents _ => ∀ parent ∈ parents, ∀ b,
      ReflTransGen r.Extends parent.name b → b ∈ r.names ∧ b ∉ trail) ?_ ?_ h
  · intro trail parent hp
    cases hp
  · intro trail parent rest d inherited ts others hd hn _ _ above beside q hq b hb
    rcases List.mem_cons.mp hq with rfl | hq
    · rcases hb.cases_head with rfl | ⟨c, ⟨e, he, hc⟩, hb⟩
      · exact ⟨mem_names_of_get? hd, name_of_get? hd ▸ hn⟩
      · cases hd.symm.trans he
        obtain ⟨t, ht, rfl⟩ := List.mem_map.mp hc
        obtain ⟨hmem, hnot⟩ := above t ht b hb
        exact ⟨hmem, fun hm => hnot (List.mem_append_left _ hm)⟩
    · exact beside q hq b hb

theorem reachable_of_ancestors {types : List TypeExpr} (hd : r.get? name = some d)
    (h : r.ancestors d = .ok types) (hb : TransGen r.Extends name b) : b ∈ r.names ∧ b ≠ name := by
  obtain ⟨c, ⟨e, he, hc⟩, hb⟩ := TransGen.head'_iff.mp hb
  cases hd.symm.trans he
  obtain ⟨t, ht, rfl⟩ := List.mem_map.mp hc
  obtain ⟨hmem, hnot⟩ := reachable_of_ancestorsVia h t ht b hb
  refine ⟨hmem, fun hname => hnot ?_⟩
  rw [hname, ← name_of_get? hd]
  exact List.mem_singleton_self _

theorem founded_of_forall_ancestors (hn : r.names.Nodup)
    (h : ∀ d ∈ r.definitions ++ r.anonymous, ∃ types, r.ancestors d = .ok types) : r.Founded where
  nodup := hn
  closed a b hab := by
    obtain ⟨d, hd, _⟩ := id hab
    obtain ⟨types, htypes⟩ := h d (mem_of_get? hd)
    exact (reachable_of_ancestors hd htypes (.single hab)).1
  acyclic a haa := by
    obtain ⟨c, ⟨d, hd, _⟩, _⟩ := TransGen.head'_iff.mp haa
    obtain ⟨types, htypes⟩ := h d (mem_of_get? hd)
    exact (reachable_of_ancestors hd htypes haa).2 rfl

/-! ## Changes that keep a registry founded -/

/-- A way along parents of which only those of `name` are new is an old one, or it passes
`name`. -/
theorem transGen_or_through {E E' : String → String → Prop}
    (hE : ∀ a b, a ≠ name → E' a b → E a b) (h : TransGen E' a b) :
    TransGen E a b ∨ ReflTransGen E' a name ∧ TransGen E' name b := by
  induction h with
  | @single b hab =>
    by_cases ha : a = name
    · exact .inr ⟨ha ▸ .refl, .single (ha ▸ hab)⟩
    · exact .inl (.single (hE a b ha hab))
  | @tail b c hab hbc ih =>
    by_cases hb : b = name
    · exact .inr ⟨hb ▸ hab.to_reflTransGen, .single (hb ▸ hbc)⟩
    · rcases ih with ih | ⟨away, ih⟩
      · exact .inl (ih.tail (hE b c hb hbc))
      · exact .inr ⟨away, ih.tail hbc⟩

theorem acyclic_of_off {E E' : String → String → Prop} (hE : ∀ a b, a ≠ name → E' a b → E a b)
    (hac : ∀ a, ¬ TransGen E a a) (hname : ¬ TransGen E' name name) :
    ∀ a, ¬ TransGen E' a a := by
  intro a ha
  rcases transGen_or_through hE ha with h | ⟨away, back⟩
  · exact hac a h
  · exact hname (back.trans_left away)

namespace Founded

theorem of_supertypes (hr : r.Founded) (hn : r'.names = r.names)
    (h : ∀ name d', r'.get? name = some d' →
      ∃ d, r.get? name = some d ∧ d'.supertypes ⊆ d.supertypes) : r'.Founded := by
  have hE : ∀ a b, r'.Extends a b → r.Extends a b := by
    rintro a b ⟨d', hd', hb⟩
    obtain ⟨d, hd, hsub⟩ := h a d' hd'
    exact ⟨d, hd, List.map_subset _ hsub hb⟩
  refine ⟨hn ▸ hr.nodup, fun a b hab => hn ▸ hr.closed a b (hE a b hab), fun a ha => ?_⟩
  exact hr.acyclic a (TransGen.mono hE a a ha)

theorem of_eq (hr : r.Founded) (hd : r'.definitions = r.definitions)
    (ha : r'.anonymous = r.anonymous) : r'.Founded := by
  refine hr.of_supertypes (by rw [names, hd, ha, names]) fun name d' hd' => ⟨d', ?_, fun _ => id⟩
  rwa [get?, hd, ha, ← get?] at hd'

theorem of_sameFrame (hr : r.Founded) (hn : r'.names = r.names) (h : SameFrame r r') :
    r'.Founded :=
  hr.of_supertypes hn fun _ _ hd' => by
    obtain ⟨d, hd, hf⟩ := h.symm.exists_of_get? hd'
    exact ⟨d, hd, hf.supertypes ▸ fun _ => id⟩

/-- New parents of one definition are harmless if its ancestors are found. -/
theorem of_ancestors (hr : r.Founded) (hn : r'.names = r.names) (ho : AgreesOff name r r')
    (hd : r'.get? name = some d) {types : List TypeExpr} (h : r'.ancestors d = .ok types) :
    r'.Founded := by
  have hoff : ∀ a b, a ≠ name → r'.Extends a b → r.Extends a b := by
    rintro a b ha ⟨e, he, hb⟩
    exact ⟨e, ho.off a ha ▸ he, hb⟩
  refine ⟨hn ▸ hr.nodup, fun a b hab => ?_, acyclic_of_off hoff hr.acyclic fun hname => ?_⟩
  · by_cases ha : a = name
    · subst ha
      exact (reachable_of_ancestors hd h (.single hab)).1
    · exact hn ▸ hr.closed a b (hoff a b ha hab)
  · exact (reachable_of_ancestors hd h hname).2 rfl

end Founded

theorem names_modify {f : Definition → Definition}
    (hf : ∀ d, d.name = name → (f d).name = name) : (r.modify name f).names = r.names := by
  have hsame : ∀ d ∈ r.definitions ++ r.anonymous, d.name = name → (f d).name = d.name :=
    fun d _ hd => (hf d hd).trans hd.symm
  obtain ⟨_, _, hd, ha⟩ := forall₂_modify (R := fun d d' => d'.name = d.name) (fun _ => rfl) hsame
  rw [names, names, List.map_append, List.map_append, names_of_forall₂ (fun _ _ => id) hd,
    names_of_forall₂ (fun _ _ => id) ha]

theorem Founded.modify (hr : r.Founded) {f : Definition → Definition}
    (hf : ∀ d, d.name = name → (f d).name = name)
    (hsub : ∀ d, r.get? name = some d → (f d).supertypes ⊆ d.supertypes) :
    (r.modify name f).Founded := by
  refine hr.of_supertypes (names_modify hf) fun other d' hd' => ?_
  rw [get?_modify hf] at hd'
  split at hd'
  · rename_i ho
    obtain ⟨d, hd, rfl⟩ := Option.map_eq_some_iff.mp hd'
    exact ⟨d, hd, hsub d (ho ▸ hd)⟩
  · exact ⟨d', hd', fun _ => id⟩

theorem Founded.addMethod (hr : r.Founded) {context : String} {m : Method} {u : Unit}
    (h : Resolution.addMethod name context m r = .ok u r') : r'.Founded := by
  obtain ⟨d, d', hd, hadd, rfl⟩ := Resolution.addMethod_eq_ok_iff.mp h
  have hframe := Definition.sameFrame_of_addMethod hadd
  refine hr.modify (fun _ _ => hframe.name.trans (name_of_get? hd)) fun e he => ?_
  cases hd.symm.trans he
  rw [hframe.supertypes]
  exact fun _ => id

theorem Founded.addExplicit (hr : r.Founded) {m : Method} {u : Unit}
    (h : Resolution.addExplicit m r = .ok u r') : r'.Founded := by
  obtain ⟨s, hs, rfl⟩ := Resolution.addExplicit_eq_ok_iff.mp h
  exact (hr.addMethod hs).of_eq rfl rfl

theorem addAnonymous_spec {factory : Method} {u : Unit}
    (h : Resolution.addAnonymous factory d r = .ok u r') :
    d.name ∉ r.names ∧ r'.names = r.names ++ [d.name] ∧
      ∀ n, r'.get? n = (r.get? n).or (if d.name = n then some d else none) := by
  obtain ⟨hfresh, rfl⟩ := Resolution.addAnonymous_eq_ok_iff.mp h
  refine ⟨fun hm => ?_, by simp [names], fun n => ?_⟩
  · obtain ⟨e, he⟩ := mem_names_iff.mp hm
    simp [he] at hfresh
  · simp only [get?, ← List.append_assoc, List.find?_append, List.find?_singleton,
      decide_eq_true_eq]

theorem Founded.addAnonymous (hr : r.Founded) {factory : Method} {u : Unit}
    (h : Resolution.addAnonymous factory d r = .ok u r') (hd : ∀ t ∈ d.supertypes, t.name ∈ r.names) :
    r'.Founded := by
  obtain ⟨hnew, hnames, hget⟩ := addAnonymous_spec h
  have hoff : ∀ a b, a ≠ d.name → r'.Extends a b → r.Extends a b := by
    rintro a b ha ⟨e, he, hb⟩
    rw [hget, if_neg (Ne.symm ha), Option.or_none] at he
    exact ⟨e, he, hb⟩
  have hclosed : ∀ a b, r'.Extends a b → b ∈ r.names := by
    intro a b hab
    by_cases ha : a = d.name
    · obtain ⟨e, he, hb⟩ := hab
      rw [hget, ha, if_pos rfl] at he
      rcases Option.or_eq_some_iff.mp he with he | ⟨_, he⟩
      · exact absurd (mem_names_of_get? he) hnew
      · cases he
        obtain ⟨t, ht, rfl⟩ := List.mem_map.mp hb
        exact hd t ht
    · exact hr.closed a b (hoff a b ha hab)
  refine ⟨?_, fun a b hab => ?_, acyclic_of_off hoff hr.acyclic fun hname => ?_⟩
  · rw [hnames]
    exact List.nodup_append_comm.mp (List.nodup_cons.mpr ⟨hnew, hr.nodup⟩)
  · rw [hnames]
    exact List.mem_append_left _ (hclosed a b hab)
  · obtain ⟨c, _, hc⟩ := TransGen.tail'_iff.mp hname
    exact hnew (hclosed c d.name hc)

/-! ## Tables without a trail -/

/-- The table extended by all methods that `target` inherits through parents, whose tables
`recurse` has to give. -/
def inheritWithin (r : Registry) (recurse : Definition → Option (Except ModelFault (Table Method)))
    (target : Definition) (ancestors : LazyAncestors) (table : Table Method) :
    List TypeExpr → Option (Except ModelFault (Table Method))
  | [] => some (.ok table)
  | parent :: rest =>
    match r.get? parent.name with
    | none => some (.error (.unknownType parent.name target.name))
    | some d =>
      match recurse d with
      | none => none
      | some (.error fault) => some (.error fault)
      | some (.ok inherited) =>
        match inherited.values.foldlM (inheritMethod target ancestors) table with
        | .error fault => some (.error fault)
        | .ok table => inheritWithin r recurse target ancestors table rest

/-- All methods of a definition, made by a recursion along parents that looks at nothing but the
parents; none if it goes deeper than the given depth. -/
def tableWithin (r : Registry) : Nat → Definition → Option (Except ModelFault (Table Method))
  | 0, _ => none
  | depth + 1, d =>
    r.inheritWithin (r.tableWithin depth) d (r.lazyAncestors d) d.methods d.supertypes

/-- If no name above the parents is on the trail, the trail makes no difference. -/
theorem inheritWithin_eq (hac : ∀ a, ¬ TransGen r.Extends a a) {target : Definition}
    {ancestors : LazyAncestors} {table : Table Method} {parents : List TypeExpr} {depth : Nat}
    (hfree : ∀ parent ∈ parents, ∀ b, ReflTransGen r.Extends parent.name b → b ∉ trail)
    (hdepth : r.unvisited trail ≤ depth) :
    r.inheritWithin (r.tableWithin depth) target ancestors table parents =
      some (r.inheritVia trail target ancestors table parents) := by
  fun_induction inheritVia r trail target ancestors table parents generalizing depth with
  | case1 => rfl
  | case2 trail target ancestors table parent rest hd => rw [inheritWithin, hd]
  | case3 trail target ancestors table parent rest d hd hn =>
    exact absurd (name_of_get? hd ▸ hn) (hfree parent List.mem_cons_self _ .refl)
  | case4 trail target ancestors table parent rest d hd hn above beside =>
    have hlt := unvisited_lt (name_of_get? hd ▸ mem_names_of_get? hd) hn
    obtain ⟨depth, rfl⟩ : ∃ k, depth = k + 1 := ⟨depth - 1, by omega⟩
    have htable : r.tableWithin (depth + 1) d =
        some (r.inheritVia (trail ++ [d.name]) d (r.lazyAncestors d) d.methods d.supertypes) := by
      refine above (fun t ht b hb hm => ?_) (by omega)
      have hstep := extends_of_mem hd ht
      rcases List.mem_append.mp hm with hm | hm
      · exact hfree parent List.mem_cons_self b (.head hstep hb) hm
      · -- a way from the parent back to itself
        have hb' : b = parent.name := (List.mem_singleton.mp hm).trans (name_of_get? hd)
        exact hac parent.name (TransGen.head' hstep (hb' ▸ hb))
    rw [inheritWithin, hd]
    dsimp only
    rw [htable]
    cases r.inheritVia (trail ++ [d.name]) d (r.lazyAncestors d) d.methods d.supertypes with
    | error fault => rfl
    | ok inherited =>
      dsimp only
      cases hfold : inherited.values.foldlM (inheritMethod target ancestors) table with
      | error fault => simp [hfold, bind, Except.bind]
      | ok u =>
        simp only [hfold, bind, Except.bind]
        exact beside u (fun p hp => hfree p (List.mem_cons_of_mem _ hp)) hdepth

/-- **The recursion ends without a trail.** In a founded registry it never goes deeper than there
are names, and it gives the table of the definition. -/
theorem Founded.tableWithin_eq (hr : r.Founded) (hd : r.get? d.name = some d) {depth : Nat}
    (hdepth : r.names.length ≤ depth) : r.tableWithin depth d = some (r.allMethods d) := by
  have hlt : r.unvisited [d.name] < r.unvisited [] :=
    unvisited_lt (mem_names_of_get? hd) List.not_mem_nil
  have hle : r.unvisited [] ≤ r.names.length := List.length_filter_le _ _
  obtain ⟨depth, rfl⟩ : ∃ k, depth = k + 1 := ⟨depth - 1, by omega⟩
  refine inheritWithin_eq hr.acyclic (fun t ht b hb hm => ?_) (by omega)
  exact hr.acyclic d.name (TransGen.head' (extends_of_mem hd ht) (List.mem_singleton.mp hm ▸ hb))

end Registry

end FluentGrammar
