import Mathlib.Data.Set.Finite.Basic
import FluentGrammar.Proofs.Run
import FluentGrammar.Proofs.Substitution
import FluentGrammar.Registry.Ancestors

/-!
# The hierarchy of definitions

How the ancestors of a definition depend on its parents. The trail of names only matters for
faults: once the ancestors through some parents are found, they are the same on every shorter trail,
and each parent contributes its own ancestors. On a trail that holds a name, the definition of that
name is never looked at, so it may be changed.

Where no definition inherits from a type that has the name of one of its own type parameters, names
pass through the hierarchy unchanged, and inheritance is a strict order on the names.

* `Registry.ancestorsVia_induction`: induction on the ancestors that were found.
* `Registry.ancestorsVia_congr`: registries that agree off the trail.
* `Registry.Unshadowed`, `Registry.HasAncestor`: names in the hierarchy.
* `Registry.mem_names_ancestorsVia`: the names of the ancestors, parent by parent.
* **`Registry.exists_maximal_parent`**: among several parents each is below one that is below no
  other.
-/

namespace FluentGrammar

namespace Registry

variable {r r' : Registry} {context : String} {trail : List String}

/-! ## Ancestors parent by parent -/

theorem throughParent_eq_ok_iff {parent : TypeExpr} {d : Definition}
    {inherited types : List TypeExpr} :
    throughParent parent d inherited = .ok types ↔ ∃ s us,
      d.typeParams.bind d.name parent.args = .ok s ∧
      replaceDistinct d.typeParams s inherited = .ok us ∧
      types = parent :: us.filter (· ≠ parent) := by
  unfold throughParent
  simp only [Except.bind_eq_ok_iff, Except.pure_eq_ok_iff]
  constructor
  · rintro ⟨s, hs, us, hus, rfl⟩
    exact ⟨s, us, hs, hus, rfl⟩
  · rintro ⟨s, us, hs, hus, rfl⟩
    exact ⟨s, hs, us, hus, rfl⟩

theorem ancestorsVia_nil : r.ancestorsVia context trail [] = .ok [] := by
  rw [ancestorsVia]

theorem ancestorsVia_cons_eq_ok_iff {parent : TypeExpr} {rest types : List TypeExpr} :
    r.ancestorsVia context trail (parent :: rest) = .ok types ↔ ∃ d inherited ts others,
      r.get? parent.name = some d ∧ d.name ∉ trail ∧
      r.ancestorsVia d.name (trail ++ [d.name]) d.supertypes = .ok inherited ∧
      throughParent parent d inherited = .ok ts ∧
      r.ancestorsVia context trail rest = .ok others ∧
      types = ts ++ others.filter (· ∉ ts) := by
  rw [ancestorsVia]
  split
  · rename_i hd
    simp [hd]
  · rename_i d hd
    by_cases hn : d.name ∈ trail
    · rw [dif_pos hn]
      constructor
      · intro h
        cases h
      · rintro ⟨d', _, _, _, hd', hn', _⟩
        cases hd.symm.trans hd'
        exact absurd hn hn'
    · simp only [dif_neg hn, Except.bind_eq_ok_iff, Except.pure_eq_ok_iff]
      constructor
      · rintro ⟨inherited, hi, ts, ht, others, ho, rfl⟩
        exact ⟨d, inherited, ts, others, hd, hn, hi, ht, ho, rfl⟩
      · rintro ⟨d', inherited, ts, others, hd', _, hi, ht, ho, rfl⟩
        cases hd.symm.trans hd'
        exact ⟨inherited, hi, ts, ht, others, ho, rfl⟩

theorem ancestorsVia_mono {context' : String} {trail' : List String} {parents types : List TypeExpr}
    (hsub : trail' ⊆ trail) (h : r.ancestorsVia context trail parents = .ok types) :
    r.ancestorsVia context' trail' parents = .ok types := by
  fun_induction ancestorsVia r context trail parents generalizing types context' trail' with
  | case1 => rw [ancestorsVia]; exact h
  | case2 => cases h
  | case3 => cases h
  | case4 context trail parent rest d hd hn ih₁ ih₂ =>
    simp only [Except.bind_eq_ok_iff, Except.pure_eq_ok_iff] at h
    obtain ⟨inherited, hi, ts, ht, others, ho, rfl⟩ := h
    refine ancestorsVia_cons_eq_ok_iff.mpr ⟨d, inherited, ts, others, hd, fun hm => hn (hsub hm),
      ih₁ ?_ hi, ht, ih₂ hsub ho, rfl⟩
    exact List.append_subset.mpr ⟨fun x hx => List.mem_append_left _ (hsub hx), by simp⟩

theorem ancestors_of_ancestorsVia {d : Definition} {types : List TypeExpr}
    (h : r.ancestorsVia d.name (trail ++ [d.name]) d.supertypes = .ok types) :
    r.ancestors d = .ok types :=
  ancestorsVia_mono (by simp) h

/-- Induction on the ancestors found through some parents: a first parent brings itself and the
ancestors of its definition, which are found in the same way on a longer trail. -/
theorem ancestorsVia_induction {motive : List String → List TypeExpr → List TypeExpr → Prop}
    (nil : ∀ trail, motive trail [] [])
    (cons : ∀ trail parent rest d inherited ts others, r.get? parent.name = some d →
      d.name ∉ trail → r.ancestors d = .ok inherited → throughParent parent d inherited = .ok ts →
      motive (trail ++ [d.name]) d.supertypes inherited → motive trail rest others →
      motive trail (parent :: rest) (ts ++ others.filter (· ∉ ts)))
    {parents types : List TypeExpr} (h : r.ancestorsVia context trail parents = .ok types) :
    motive trail parents types := by
  fun_induction ancestorsVia r context trail parents generalizing types with
  | case1 => exact Except.ok.inj h ▸ nil _
  | case2 => cases h
  | case3 => cases h
  | case4 context trail parent rest d hd hn ih₁ ih₂ =>
    simp only [Except.bind_eq_ok_iff, Except.pure_eq_ok_iff] at h
    obtain ⟨inherited, hi, ts, ht, others, ho, rfl⟩ := h
    exact cons trail parent rest d inherited ts others hd hn (ancestors_of_ancestorsVia hi) ht
      (ih₁ hi) (ih₂ ho)

theorem ancestorsVia_of_subset {parents parents' types : List TypeExpr}
    (hsub : parents' ⊆ parents) (h : r.ancestorsVia context trail parents = .ok types) :
    ∃ types', r.ancestorsVia context trail parents' = .ok types' := by
  have key : ∀ parent ∈ parents, ∃ d inherited ts, r.get? parent.name = some d ∧ d.name ∉ trail ∧
      r.ancestorsVia d.name (trail ++ [d.name]) d.supertypes = .ok inherited ∧
      throughParent parent d inherited = .ok ts := by
    clear hsub
    induction parents generalizing types with
    | nil => simp
    | cons parent rest ih =>
      obtain ⟨d, inherited, ts, others, hd, hn, hi, ht, ho, _⟩ := ancestorsVia_cons_eq_ok_iff.mp h
      rintro p (_ | ⟨_, hp⟩)
      · exact ⟨d, inherited, ts, hd, hn, hi, ht⟩
      · exact ih ho p hp
  clear h
  induction parents' with
  | nil => exact ⟨[], ancestorsVia_nil⟩
  | cons parent rest ih =>
    obtain ⟨hp, hrest⟩ := List.cons_subset.mp hsub
    obtain ⟨d, inherited, ts, hd, hn, hi, ht⟩ := key parent hp
    obtain ⟨others, ho⟩ := ih hrest
    exact ⟨_, ancestorsVia_cons_eq_ok_iff.mpr ⟨d, inherited, ts, others, hd, hn, hi, ht, ho, rfl⟩⟩

/-- The definition of a name on the trail is never looked at. -/
theorem ancestorsVia_congr (hoff : ∀ name, name ∉ trail → r.get? name = r'.get? name)
    (hon : ∀ name, (r.get? name).isSome = (r'.get? name).isSome) (parents : List TypeExpr) :
    r.ancestorsVia context trail parents = r'.ancestorsVia context trail parents := by
  fun_induction ancestorsVia r context trail parents with
  | case1 => rw [ancestorsVia]
  | case2 context trail parent rest hd =>
    have hd' : r'.get? parent.name = none := by simpa [hd] using hon parent.name
    rw [ancestorsVia]
    split <;> simp_all
  | case3 context trail parent rest d hd hn =>
    obtain ⟨d', hd'⟩ : ∃ d', r'.get? parent.name = some d' :=
      Option.isSome_iff_exists.mp (by rw [← hon, hd]; rfl)
    have hname : d'.name = d.name := (name_of_get? hd').trans (name_of_get? hd).symm
    rw [ancestorsVia]
    split
    · simp_all
    · rename_i d'' hd''
      cases hd'.symm.trans hd''
      rw [dif_pos (hname ▸ hn), hname]
  | case4 context trail parent rest d hd hn ih₁ ih₂ =>
    have hd' : r'.get? parent.name = some d := by
      rw [← hoff parent.name (name_of_get? hd ▸ hn), hd]
    have hlonger : ∀ name, name ∉ trail ++ [d.name] → r.get? name = r'.get? name :=
      fun name h => hoff name fun hm => h (List.mem_append_left _ hm)
    rw [ih₁ hlonger, ih₂ hoff, eq_comm, ancestorsVia]
    split
    · simp_all
    · rename_i d' hd''
      cases hd'.symm.trans hd''
      rw [dif_neg hn]

/-! ## Names in the hierarchy -/

/-- No definition inherits from a type that has the name of one of its own type parameters. -/
def Unshadowed (r : Registry) : Prop :=
  ∀ name d types, r.get? name = some d → r.ancestors d = .ok types →
    ∀ t ∈ types, t.name ∉ d.typeParams.names

instance : DecidablePred Unshadowed := fun r =>
  decidable_of_iff (∀ d ∈ r.definitions ++ r.anonymous, r.get? d.name = some d →
      ∀ types ∈ (r.ancestors d).toOption, ∀ t ∈ types, t.name ∉ d.typeParams.names) <| by
    constructor
    · intro h name d types hd ht
      have hname := name_of_get? hd
      exact h d (List.mem_of_find?_eq_some hd) (hname ▸ hd) types (by rw [ht]; rfl)
    · intro h d _ hd types ht
      cases ha : r.ancestors d with
      | error e =>
        rw [ha] at ht
        cases ht
      | ok us =>
        rw [ha] at ht
        cases ht
        exact h d.name d types hd ha

/-- The definition of `name` has an ancestor of the name `ancestor`. -/
def HasAncestor (r : Registry) (name ancestor : String) : Prop :=
  ∃ d types, r.get? name = some d ∧ r.ancestors d = .ok types ∧ ancestor ∈ types.map TypeExpr.name

theorem names_of_mapM_replace {s : Substitution} {types us : List TypeExpr}
    (hn : ∀ t ∈ types, s.get? t.name = none) (h : types.mapM (TypeExpr.replace s) = .ok us) :
    us.map TypeExpr.name = types.map TypeExpr.name := by
  rw [Except.mapM_eq_ok_iff] at h
  induction h with
  | nil => rfl
  | cons hu _ ih =>
    obtain ⟨ht, hts⟩ := List.forall_mem_cons.mp hn
    rw [List.map_cons, List.map_cons, TypeExpr.name_of_replace ht hu, ih hts]

theorem mem_names_throughParent {parent : TypeExpr} {d : Definition}
    {inherited types : List TypeExpr} (hn : ∀ t ∈ inherited, t.name ∉ d.typeParams.names)
    (h : throughParent parent d inherited = .ok types) {name : String} :
    name ∈ types.map TypeExpr.name ↔
      name = parent.name ∨ name ∈ inherited.map TypeExpr.name := by
  obtain ⟨s, us, hs, hus, rfl⟩ := throughParent_eq_ok_iff.mp h
  have hnames : name ∈ us.map TypeExpr.name ↔ name ∈ inherited.map TypeExpr.name := by
    unfold replaceDistinct at hus
    split at hus
    · rw [Except.ok.inj hus]
    · obtain ⟨vs, hvs, rfl⟩ := Except.map_eq_ok_iff.mp hus
      rw [← names_of_mapM_replace (fun t ht => Substitution.get?_bind hs (hn t ht)) hvs]
      simp only [List.mem_map, mem_firstOccurrences]
  rw [List.map_cons, List.mem_cons, ← hnames]
  refine or_congr_right' fun hne => ?_
  simp only [List.mem_map, List.mem_filter, decide_eq_true_eq]
  constructor
  · rintro ⟨u, ⟨hu, _⟩, rfl⟩
    exact ⟨u, hu, rfl⟩
  · rintro ⟨u, hu, rfl⟩
    exact ⟨u, ⟨hu, fun he => hne (he ▸ rfl)⟩, rfl⟩

theorem mem_names_append_filter {ts us : List TypeExpr} {name : String} :
    name ∈ (ts ++ us.filter (· ∉ ts)).map TypeExpr.name ↔
      name ∈ ts.map TypeExpr.name ∨ name ∈ us.map TypeExpr.name := by
  simp only [List.mem_map, List.mem_append, List.mem_filter, decide_eq_true_eq]
  constructor
  · rintro ⟨t, ht | ⟨ht, _⟩, rfl⟩
    · exact .inl ⟨t, ht, rfl⟩
    · exact .inr ⟨t, ht, rfl⟩
  · rintro (⟨t, ht, rfl⟩ | ⟨t, ht, rfl⟩)
    · exact ⟨t, .inl ht, rfl⟩
    · by_cases hm : t ∈ ts
      · exact ⟨t, .inl hm, rfl⟩
      · exact ⟨t, .inr ⟨ht, hm⟩, rfl⟩

theorem not_mem_trail_of_ancestorsVia (hr : r.Unshadowed) {parents types : List TypeExpr}
    (h : r.ancestorsVia context trail parents = .ok types) :
    ∀ name ∈ types.map TypeExpr.name, name ∉ trail := by
  refine ancestorsVia_induction (motive := fun trail _ types =>
    ∀ name ∈ types.map TypeExpr.name, name ∉ trail) (by simp) ?_ h
  intro trail parent rest d inherited ts others hd hn hi ht ih₁ ih₂ name hname
  rcases mem_names_append_filter.mp hname with hname | hname
  · rcases (mem_names_throughParent (hr _ d _ hd hi) ht).mp hname with rfl | hname
    · exact name_of_get? hd ▸ hn
    · exact fun hm => ih₁ name hname (List.mem_append_left _ hm)
  · exact ih₂ name hname

/-- **The names of the ancestors**: those of the parents and of the ancestors of their
definitions. -/
theorem mem_names_ancestorsVia (hr : r.Unshadowed) {parents types : List TypeExpr}
    (h : r.ancestorsVia context trail parents = .ok types) {name : String} :
    name ∈ types.map TypeExpr.name ↔
      ∃ parent ∈ parents, name = parent.name ∨ r.HasAncestor parent.name name := by
  refine ancestorsVia_induction (motive := fun _ parents types => name ∈ types.map TypeExpr.name ↔
    ∃ parent ∈ parents, name = parent.name ∨ r.HasAncestor parent.name name) (by simp) ?_ h
  intro trail parent rest d inherited ts others hd hn hi ht _ ih
  have hhead : name ∈ ts.map TypeExpr.name ↔
      name = parent.name ∨ r.HasAncestor parent.name name := by
    rw [mem_names_throughParent (hr _ d _ hd hi) ht]
    refine or_congr_right ⟨fun hm => ⟨d, inherited, hd, hi, hm⟩, ?_⟩
    rintro ⟨d', types, hd', hi', hm⟩
    cases hd.symm.trans hd'
    cases hi.symm.trans hi'
    exact hm
  rw [mem_names_append_filter, hhead, ih]
  simp only [List.mem_cons, exists_eq_or_imp]

theorem exists_ancestors_of_mem_names (hr : r.Unshadowed) {parents types : List TypeExpr}
    (h : r.ancestorsVia context trail parents = .ok types) :
    ∀ name ∈ types.map TypeExpr.name, ∃ d us, r.get? name = some d ∧ r.ancestors d = .ok us := by
  refine ancestorsVia_induction (motive := fun _ _ types => ∀ name ∈ types.map TypeExpr.name,
    ∃ d us, r.get? name = some d ∧ r.ancestors d = .ok us) (by simp) ?_ h
  intro trail parent rest d inherited ts others hd hn hi ht ih₁ ih₂ name hname
  rcases mem_names_append_filter.mp hname with hname | hname
  · rcases (mem_names_throughParent (hr _ d _ hd hi) ht).mp hname with rfl | hname
    · exact ⟨d, inherited, hd, hi⟩
    · exact ih₁ name hname
  · exact ih₂ name hname

theorem mem_names_of_hasAncestor (hr : r.Unshadowed) {parents types : List TypeExpr}
    (h : r.ancestorsVia context trail parents = .ok types) {name ancestor : String}
    (hname : name ∈ types.map TypeExpr.name) (ha : r.HasAncestor name ancestor) :
    ancestor ∈ types.map TypeExpr.name := by
  revert hname
  refine ancestorsVia_induction (motive := fun _ _ types => name ∈ types.map TypeExpr.name →
    ancestor ∈ types.map TypeExpr.name) (by simp) ?_ h
  intro trail parent rest d inherited ts others hd hn hi ht ih₁ ih₂ hname
  rw [mem_names_append_filter] at hname ⊢
  refine hname.imp (fun hname => ?_) ih₂
  rw [mem_names_throughParent (hr _ d _ hd hi) ht] at hname ⊢
  refine .inr (hname.elim (fun he => ?_) ih₁)
  obtain ⟨d', types, hd', hi', hm⟩ := ha
  cases hd.symm.trans (he ▸ hd')
  cases hi.symm.trans hi'
  exact hm

theorem HasAncestor.trans (hr : r.Unshadowed) {a b c : String} (h₁ : r.HasAncestor a b)
    (h₂ : r.HasAncestor b c) : r.HasAncestor a c := by
  obtain ⟨d, types, hd, ht, hm⟩ := h₁
  exact ⟨d, types, hd, ht, mem_names_of_hasAncestor hr ht hm h₂⟩

theorem not_hasAncestor_self (hr : r.Unshadowed) (name : String) : ¬ r.HasAncestor name name := by
  rintro ⟨d, types, hd, ht, hm⟩
  exact not_mem_trail_of_ancestorsVia hr ht name hm (by simp [name_of_get? hd])

/-- **Maximal parents.** Each of several types is, or is an ancestor of, one of them that is an
ancestor of none of them. -/
theorem exists_maximal_parent (hr : r.Unshadowed) (parents : List TypeExpr) :
    ∀ parent ∈ parents, ∃ top ∈ parents,
      (parent.name = top.name ∨ r.HasAncestor top.name parent.name) ∧
      ∀ other ∈ parents, ¬ r.HasAncestor other.name top.name := by
  let above : {p // p ∈ parents} → {p // p ∈ parents} → Prop :=
    fun p q => r.HasAncestor p.1.name q.1.name
  have : IsTrans _ above := ⟨fun _ _ _ h₁ h₂ => HasAncestor.trans hr h₁ h₂⟩
  have : Std.Irrefl above := ⟨fun p => not_hasAncestor_self hr p.1.name⟩
  have : Finite {p // p ∈ parents} := List.finite_toSet parents
  have hwf := Finite.wellFounded_of_trans_of_irrefl above
  intro parent hp
  -- Climb from `parent` as long as something is above.
  induction h : (⟨parent, hp⟩ : {p // p ∈ parents}) using hwf.induction generalizing parent with
  | _ p ih =>
    subst h
    by_cases htop : ∃ other ∈ parents, r.HasAncestor other.name parent.name
    · obtain ⟨other, ho, habove⟩ := htop
      obtain ⟨top, ht, hle, hmax⟩ := ih ⟨other, ho⟩ habove other ho rfl
      refine ⟨top, ht, .inr ?_, hmax⟩
      rcases hle with he | hlt
      · exact he ▸ habove
      · exact hlt.trans hr habove
    · exact ⟨parent, hp, .inl rfl, fun other ho ha => htop ⟨other, ho, ha⟩⟩

end Registry

end FluentGrammar
