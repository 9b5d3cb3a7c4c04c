import FluentGrammar.Proofs.Registry
import FluentGrammar.Registry.Methods

/-!
# Tables of methods

What is in the table of all methods of a definition. Its own methods come first; then each parent
contributes the stubs of what is visible in its table, and of several stubs of one signature the
first stays. As with ancestors, the trail only matters for faults.

* `Registry.get?_of_foldlM_merge`: the table that own methods and stubs are merged into.
* `Registry.InheritsFrom`: the stubs that a definition gets from one parent.
* **`Registry.exists_stubs_of_allMethods`**: a table is made of own methods and stubs, parent by
  parent.
* `Registry.allMethods_induction`: induction from the parents of a definition to the definition.
* `Registry.AgreesOn.allMethods_eq`: registries that agree on all that a definition inherits from.
-/

namespace FluentGrammar

namespace Registry

variable {r r' : Registry} {owner : String} {table t : Table Method}

/-! ## Merging -/

theorem merge_eq_ok_iff {m : Method} :
    merge owner table m = .ok t ↔
      (table.get? m.signature = none ∧ t = table.insert m.signature m) ∨
      ∃ e, table.get? m.signature = some e ∧ e.matchesContract m = true ∧ t = table := by
  unfold merge
  cases hget : table.get? m.signature with
  | none =>
    refine ⟨fun h => .inl ⟨rfl, (Except.ok.inj h).symm⟩, ?_⟩
    rintro (⟨_, rfl⟩ | ⟨e, he, _⟩)
    · rfl
    · cases he
  | some e =>
    by_cases he : e.matchesContract m = true
    · simp only [he, if_true]
      refine ⟨fun h => .inr ⟨e, rfl, he, (Except.ok.inj h).symm⟩, ?_⟩
      rintro (⟨hnone, _⟩ | ⟨_, _, _, rfl⟩)
      · cases hnone
      · rfl
    · simp [he]

theorem get?_of_merge {m : Method} (h : merge owner table m = .ok t) (key : String) :
    t.get? key = (table.get? key).or (if m.signature = key then some m else none) := by
  rcases merge_eq_ok_iff.mp h with ⟨hnone, rfl⟩ | ⟨e, he, _, rfl⟩
  · rw [Table.get?_insert]
    by_cases hk : key = m.signature
    · simp [hk, hnone]
    · simp [hk, Ne.symm hk]
  · by_cases hk : m.signature = key
    · simp [← hk, he]
    · simp [hk]

/-- **The merged table.** What was there stays, and of several stubs of one signature the first
comes in. -/
theorem get?_of_foldlM_merge {stubs : List Method}
    (h : stubs.foldlM (merge owner) table = .ok t) (key : String) :
    t.get? key = (table.get? key).or (stubs.find? (·.signature = key)) := by
  induction stubs generalizing table with
  | nil =>
    cases h
    simp
  | cons m ms ih =>
    obtain ⟨u, hu, h⟩ := Except.bind_eq_ok_iff.mp h
    rw [ih h, get?_of_merge hu, Option.or_assoc, List.find?_cons]
    by_cases hk : m.signature = key <;> simp [hk]

/-- Every stub is in the merged table, or another method of its contract is there instead. -/
theorem exists_of_mem_stubs {stubs : List Method} (h : stubs.foldlM (merge owner) table = .ok t) :
    ∀ m ∈ stubs, ∃ e, t.get? m.signature = some e ∧ (e = m ∨ e.matchesContract m = true) := by
  induction stubs generalizing table with
  | nil => simp
  | cons m ms ih =>
    obtain ⟨u, hu, h⟩ := Except.bind_eq_ok_iff.mp h
    refine List.forall_mem_cons.mpr ⟨?_, ih h⟩
    have hget := get?_of_foldlM_merge h m.signature
    rcases merge_eq_ok_iff.mp hu with ⟨_, rfl⟩ | ⟨e, he, hmatch, rfl⟩
    · exact ⟨m, by rw [hget, Table.get?_insert, if_pos rfl, Option.some_or], .inl rfl⟩
    · exact ⟨e, by rw [hget, he, Option.some_or], .inr hmatch⟩

/-- The merged table lists what was there first, then stubs of other signatures. -/
theorem entries_of_foldlM_merge {stubs : List Method}
    (h : stubs.foldlM (merge owner) table = .ok t) :
    ∃ rest, t.entries = table.entries ++ rest ∧
      ∀ e ∈ rest, e.2 ∈ stubs ∧ e.1 = e.2.signature ∧ e.1 ∉ table.keys := by
  induction stubs generalizing table with
  | nil =>
    cases h
    exact ⟨[], by simp, by simp⟩
  | cons m ms ih =>
    obtain ⟨u, hu, h⟩ := Except.bind_eq_ok_iff.mp h
    obtain ⟨rest, hrest, hall⟩ := ih h
    rcases merge_eq_ok_iff.mp hu with ⟨hnone, rfl⟩ | ⟨e, he, hmatch, rfl⟩
    · have hk := Table.get?_eq_none_iff.mp hnone
      refine ⟨(m.signature, m) :: rest, ?_, List.forall_mem_cons.mpr ⟨?_, fun e he => ?_⟩⟩
      · rw [hrest, Table.entries_insert_of_not_mem hk, List.append_assoc, List.singleton_append]
      · exact ⟨List.mem_cons_self, rfl, hk⟩
      · obtain ⟨hm, hs, hn⟩ := hall e he
        refine ⟨List.mem_cons_of_mem _ hm, hs, fun hmem => hn ?_⟩
        rw [Table.keys_insert, if_neg hk]
        exact List.mem_append_left _ hmem
    · refine ⟨rest, hrest, fun e he => ?_⟩
      obtain ⟨hm, hs, hn⟩ := hall e he
      exact ⟨List.mem_cons_of_mem _ hm, hs, hn⟩

/-! ## Stubs -/

theorem mem_values_of_get? {m : Method} {key : String} (h : table.get? key = some m) :
    m ∈ table.values :=
  List.mem_map.mpr ⟨(key, m), Table.mem_entries_of_get? h, rfl⟩

theorem mem_keys_of_get? {m : Method} {key : String} (h : table.get? key = some m) :
    key ∈ table.keys :=
  List.mem_map.mpr ⟨(key, m), Table.mem_entries_of_get? h, rfl⟩

/-- The methods of a table that subtypes inherit. -/
def visible (table : Table Method) : List Method :=
  table.values.filter (!·.isHidden)

theorem mem_visible {m : Method} : m ∈ visible table ↔ m ∈ table.values ∧ m.isHidden = false := by
  simp [visible]

theorem inheritMethod_of_visible {target : Definition} {ancestors : LazyAncestors} {m : Method}
    (hm : m.isHidden = false) :
    inheritMethod target ancestors table m =
      stubFor target ancestors.get m >>= merge target.name table := by
  unfold inheritMethod
  rw [hm]
  rfl

theorem foldlM_inheritMethod_eq_ok_iff {target : Definition} {ancestors : LazyAncestors}
    {ms : List Method} :
    ms.foldlM (inheritMethod target ancestors) table = .ok t ↔
      ∃ stubs, (ms.filter (!·.isHidden)).mapM (stubFor target ancestors.get) = .ok stubs ∧
        stubs.foldlM (merge target.name) table = .ok t := by
  induction ms generalizing table with
  | nil =>
    constructor
    · exact fun h => ⟨[], rfl, h⟩
    · rintro ⟨stubs, hs, h⟩
      cases hs
      exact h
  | cons m ms ih =>
    rw [List.foldlM_cons, Except.bind_eq_ok_iff]
    cases hm : m.isHidden with
    | true =>
      rw [List.filter_cons_of_neg (by simp [hm]), ← ih]
      simp [inheritMethod, hm, Except.pure_eq_ok_iff]
    | false =>
      rw [List.filter_cons_of_pos (by simp [hm]), List.mapM_cons]
      simp only [inheritMethod_of_visible hm, Except.bind_eq_ok_iff, Except.pure_eq_ok_iff, ih]
      constructor
      · rintro ⟨u, ⟨stub, hstub, hu⟩, stubs, hstubs, h⟩
        exact ⟨stub :: stubs, ⟨stub, hstub, stubs, hstubs, rfl⟩,
          Except.bind_eq_ok_iff.mpr ⟨u, hu, h⟩⟩
      · rintro ⟨_, ⟨stub, hstub, stubs, hstubs, rfl⟩, h⟩
        obtain ⟨u, hu, h⟩ := Except.bind_eq_ok_iff.mp h
        exact ⟨u, ⟨stub, hstub, hu⟩, stubs, hstubs, h⟩

/-! ## Inheritance parent by parent -/

section Via

variable {target : Definition} {ancestors : LazyAncestors} {trail trail' : List String}
  {parents : List TypeExpr}

theorem inheritVia_nil : r.inheritVia trail target ancestors table [] = .ok table := by
  rw [inheritVia]

theorem inheritVia_cons_eq_ok_iff {parent : TypeExpr} {rest : List TypeExpr} :
    r.inheritVia trail target ancestors table (parent :: rest) = .ok t ↔
      ∃ d inherited u, r.get? parent.name = some d ∧ d.name ∉ trail ∧
        r.inheritVia (trail ++ [d.name]) d (r.lazyAncestors d) d.methods d.supertypes =
          .ok inherited ∧
        inherited.values.foldlM (inheritMethod target ancestors) table = .ok u ∧
        r.inheritVia trail target ancestors u rest = .ok t := by
  rw [inheritVia]
  split
  · rename_i hd
    simp [hd]
  · rename_i d hd
    by_cases hn : d.name ∈ trail
    · rw [dif_pos hn]
      constructor
      · intro h
        cases h
      · rintro ⟨d', _, _, hd', hn', _⟩
        cases hd.symm.trans hd'
        exact absurd hn hn'
    · simp only [dif_neg hn, Except.bind_eq_ok_iff]
      constructor
      · rintro ⟨inherited, hi, u, hu, h⟩
        exact ⟨d, inherited, u, hd, hn, hi, hu, h⟩
      · rintro ⟨d', inherited, u, hd', _, hi, hu, h⟩
        cases hd.symm.trans hd'
        exact ⟨inherited, hi, u, hu, h⟩

theorem inheritVia_mono (hsub : trail' ⊆ trail)
    (h : r.inheritVia trail target ancestors table parents = .ok t) :
    r.inheritVia trail' target ancestors table parents = .ok t := by
  fun_induction inheritVia r trail target ancestors table parents generalizing t trail' with
  | case1 => rw [inheritVia]; exact h
  | case2 => cases h
  | case3 => cases h
  | case4 trail target ancestors table parent rest d hd hn ih₁ ih₂ =>
    simp only [Except.bind_eq_ok_iff] at h
    obtain ⟨inherited, hi, u, hu, h⟩ := h
    refine inheritVia_cons_eq_ok_iff.mpr ⟨d, inherited, u, hd, fun hm => hn (hsub hm),
      ih₁ ?_ hi, hu, ih₂ u hsub h⟩
    exact List.append_subset.mpr ⟨fun x hx => List.mem_append_left _ (hsub hx), by simp⟩

theorem exists_inheritVia_of_mem (h : r.inheritVia trail target ancestors table parents = .ok t)
    {parent : TypeExpr} (hp : parent ∈ parents) {p : Definition}
    (hget : r.get? parent.name = some p) : ∃ u, p.name ∉ trail ∧
      r.inheritVia (trail ++ [p.name]) p (r.lazyAncestors p) p.methods p.supertypes = .ok u := by
  induction parents generalizing table with
  | nil => cases hp
  | cons q rest ih =>
    obtain ⟨e, inherited, u, he, hnot, hi, _, h⟩ := inheritVia_cons_eq_ok_iff.mp h
    rcases List.mem_cons.mp hp with rfl | hp
    · cases hget.symm.trans he
      exact ⟨inherited, hnot, hi⟩
    · exact ih h hp

theorem allMethods_of_inheritVia {d : Definition}
    (h : r.inheritVia (trail ++ [d.name]) d (r.lazyAncestors d) d.methods d.supertypes = .ok t) :
    r.allMethods d = .ok t :=
  inheritVia_mono (by simp) h

/-- The stubs that `target` gets from one parent. -/
def InheritsFrom (r : Registry) (target : Definition) (parent : TypeExpr) (stubs : List Method) :
    Prop :=
  ∃ d inherited, r.get? parent.name = some d ∧ r.allMethods d = .ok inherited ∧
    (visible inherited).mapM (r.overrideFor target) = .ok stubs

theorem inheritsFrom_unique : Relator.RightUnique (r.InheritsFrom target) := by
  rintro parent stubs stubs' ⟨d, inherited, hd, hi, hs⟩ ⟨d', inherited', hd', hi', hs'⟩
  cases hd.symm.trans hd'
  cases hi.symm.trans hi'
  exact Except.ok.inj (hs.symm.trans hs')

theorem exists_stubs_of_inheritVia
    (h : r.inheritVia trail target (r.lazyAncestors target) table parents = .ok t) :
    ∃ lists, List.Forall₂ (r.InheritsFrom target) parents lists ∧
      lists.flatten.foldlM (merge target.name) table = .ok t := by
  induction parents generalizing table with
  | nil =>
    rw [inheritVia_nil] at h
    exact ⟨[], .nil, h⟩
  | cons parent rest ih =>
    obtain ⟨d, inherited, u, hd, _, hi, hu, h⟩ := inheritVia_cons_eq_ok_iff.mp h
    obtain ⟨stubs, hstubs, hmerge⟩ := foldlM_inheritMethod_eq_ok_iff.mp hu
    obtain ⟨lists, hlists, hrest⟩ := ih h
    refine ⟨stubs :: lists, .cons ⟨d, inherited, hd, allMethods_of_inheritVia hi, hstubs⟩ hlists, ?_⟩
    rw [List.flatten_cons, List.foldlM_append]
    exact Except.bind_eq_ok_iff.mpr ⟨u, hmerge, hrest⟩

end Via

/-- **A table is made of own methods and stubs**, which come from the parents in their order. -/
theorem exists_stubs_of_allMethods {d : Definition} (h : r.allMethods d = .ok t) :
    ∃ lists, List.Forall₂ (r.InheritsFrom d) d.supertypes lists ∧
      lists.flatten.foldlM (merge d.name) d.methods = .ok t :=
  exists_stubs_of_inheritVia h

theorem key_eq_signature {d : Definition} (hd : ∀ e ∈ d.methods.entries, e.1 = e.2.signature)
    (h : r.allMethods d = .ok t) : ∀ e ∈ t.entries, e.1 = e.2.signature := by
  obtain ⟨lists, _, hmerge⟩ := exists_stubs_of_allMethods h
  obtain ⟨rest, hrest, hall⟩ := entries_of_foldlM_merge hmerge
  intro e he
  rw [hrest] at he
  rcases List.mem_append.mp he with he | he
  · exact hd e he
  · exact (hall e he).2.1

/-- What is visible in the table of a parent arrives, or something of the same contract does. -/
theorem exists_of_mem_visible {d p : Definition} {u : Table Method} (h : r.allMethods d = .ok t)
    {parent : TypeExpr} (hp : parent ∈ d.supertypes) (hget : r.get? parent.name = some p)
    (hu : r.allMethods p = .ok u) {m : Method} (hm : m ∈ visible u) :
    ∃ b e, r.overrideFor d m = .ok b ∧ t.get? b.signature = some e ∧
      (e = b ∨ e.matchesContract b = true) := by
  obtain ⟨lists, hlists, hmerge⟩ := exists_stubs_of_allMethods h
  obtain ⟨stubs, hstubs, p', u', hget', hu', hmap⟩ := exists_right_of_forall₂ hlists parent hp
  cases hget.symm.trans hget'
  cases hu.symm.trans hu'
  obtain ⟨b, hb, hover⟩ := exists_right_of_forall₂ (Except.mapM_eq_ok_iff.mp hmap) m hm
  obtain ⟨e, he, hmatch⟩ := exists_of_mem_stubs hmerge b (List.mem_flatten.mpr ⟨stubs, hstubs, hb⟩)
  exact ⟨b, e, hover, he, hmatch⟩

theorem get?_allMethods_of_own {d : Definition} (h : r.allMethods d = .ok t) {key : String}
    {m : Method} (hm : d.methods.get? key = some m) : t.get? key = some m := by
  obtain ⟨lists, _, hmerge⟩ := exists_stubs_of_allMethods h
  rw [get?_of_foldlM_merge hmerge, hm, Option.some_or]

theorem ne_of_allMethods {d : Definition} (h : r.allMethods d = .ok t) {parent : TypeExpr}
    (hp : parent ∈ d.supertypes) : parent.name ≠ d.name := by
  obtain ⟨lists, hlists, _⟩ := exists_stubs_of_allMethods h
  obtain ⟨_, _, p, _, hget, _⟩ := exists_right_of_forall₂ hlists parent hp
  obtain ⟨_, hnot, _⟩ := exists_inheritVia_of_mem h hp hget
  rw [name_of_get? hget] at hnot
  simpa using hnot

/-- Induction from the parents of a definition to the definition, where its table is known. -/
theorem allMethods_induction {motive : Definition → Table Method → Prop}
    (step : ∀ d t, r.allMethods d = .ok t →
      (∀ parent ∈ d.supertypes, ∀ p, r.get? parent.name = some p →
        ∃ u, r.allMethods p = .ok u ∧ motive p u) → motive d t)
    {d : Definition} (h : r.allMethods d = .ok t) : motive d t := by
  have key : ∀ n trail d t, r.unvisited trail = n → d.name ∈ trail →
      r.inheritVia trail d (r.lazyAncestors d) d.methods d.supertypes = .ok t → motive d t := by
    intro n
    induction n using Nat.strong_induction_on with
    | _ n ih =>
      intro trail d t hn hmem h
      refine step d t (inheritVia_mono (by simpa using hmem) h) fun parent hp p hget => ?_
      obtain ⟨u, hnot, hu⟩ := exists_inheritVia_of_mem h hp hget
      refine ⟨u, allMethods_of_inheritVia hu, ih _ ?_ (trail ++ [p.name]) p u rfl (by simp) hu⟩
      rw [← hn]
      exact unvisited_lt (name_of_get? hget ▸ mem_names_of_get? hget) hnot
  exact key _ [d.name] d t rfl (by simp) h

/-! ## Registries that agree on what is inherited -/

section Congruence

variable {d d' : Definition}

theorem stubFor_congr (hd : d.SameFrame d') (ancestors : Except ModelFault (List TypeExpr)) :
    stubFor d' ancestors = stubFor d ancestors := by
  funext m
  rw [stubFor, ancestorFor, hd.name, hd.selfType, hd.owner, stubFor, ancestorFor]

theorem SameFrame.overrideFor_eq (h : SameFrame r r') (hd : d.SameFrame d') :
    r'.overrideFor d' = r.overrideFor d := by
  funext m
  rw [overrideFor, h.ancestors_eq hd, stubFor_congr hd, overrideFor]

theorem SameFrame.lazyAncestors_eq (h : SameFrame r r') (hd : d.SameFrame d') :
    (r'.lazyAncestors d').get = (r.lazyAncestors d).get :=
  h.ancestors_eq hd

/-- The names in `known` belong to definitions that inherit from names in `known` only, and whose
own methods are the same in both registries. -/
structure AgreesOn (known : String → Prop) (r r' : Registry) : Prop where
  frame : SameFrame r r'
  parents : ∀ name d, known name → r.get? name = some d → ∀ parent ∈ d.supertypes, known parent.name
  methods : ∀ name d d', known name → r.get? name = some d → r'.get? name = some d' →
    d'.methods = d.methods

theorem AgreesOn.inheritVia_eq {known : String → Prop} (h : AgreesOn known r r')
    {trail : List String} {ancestors ancestors' : LazyAncestors} (hd : d.SameFrame d')
    (ha : ancestors'.get = ancestors.get) {parents : List TypeExpr}
    (hp : ∀ parent ∈ parents, known parent.name) :
    r'.inheritVia trail d' ancestors' table parents =
      r.inheritVia trail d ancestors table parents := by
  fun_induction inheritVia r trail d ancestors table parents generalizing d' ancestors' with
  | case1 => rw [inheritVia]
  | case2 trail d ancestors table parent rest hget =>
    have hget' := h.frame.get?_eq_none hget
    rw [inheritVia]
    split
    · rw [hd.name]
    · simp_all
  | case3 trail d ancestors table parent rest p hget hn =>
    obtain ⟨p', hget', hf⟩ := h.frame.exists_of_get? hget
    rw [inheritVia]
    split
    · simp_all
    · rename_i e he
      cases hget'.symm.trans he
      rw [dif_pos (hf.name ▸ hn), hf.name]
  | case4 trail d ancestors table parent rest p hget hn ih₁ ih₂ =>
    obtain ⟨p', hget', hf⟩ := h.frame.exists_of_get? hget
    obtain ⟨hparent, hrest⟩ := List.forall_mem_cons.mp hp
    have hmethods := h.methods _ p p' hparent hget hget'
    have hstep : inheritMethod d' ancestors' = inheritMethod d ancestors := by
      funext table m
      rw [inheritMethod, inheritMethod, ha, stubFor_congr hd, hd.name]
    have hinner := ih₁ hf (h.frame.lazyAncestors_eq hf) (h.parents _ p hparent hget)
    rw [inheritVia]
    split
    · simp_all
    · rename_i e he
      cases hget'.symm.trans he
      rw [dif_neg (hf.name ▸ hn), hf.name, hf.supertypes, hmethods, hinner, hstep]
      simp only [ih₂ _ hd ha hrest]

/-- **Tables depend on what is inherited only.** -/
theorem AgreesOn.allMethods_eq {known : String → Prop} (h : AgreesOn known r r')
    (hd : d.SameFrame d') (hm : d'.methods = d.methods)
    (hp : ∀ parent ∈ d.supertypes, known parent.name) : r'.allMethods d' = r.allMethods d := by
  rw [allMethods, hd.name, hd.supertypes, hm]
  exact h.inheritVia_eq hd (h.frame.lazyAncestors_eq hd) hp

theorem allMethods_withTests (r : Registry) (tests : List Definition) (d : Definition) :
    allMethods { r with tests := tests } d = r.allMethods d := by
  have hagrees : AgreesOn (fun _ => True) r { r with tests := tests } :=
    ⟨.refl r, fun _ _ _ _ _ _ => trivial, fun name e e' _ he he' => by
      cases he.symm.trans he'
      rfl⟩
  exact hagrees.allMethods_eq (.refl d) rfl fun _ _ => trivial

theorem AgreesOn.inheritsFrom {known : String → Prop} (h : AgreesOn known r r')
    (hd : d.SameFrame d') {parents : List TypeExpr} (hp : ∀ parent ∈ parents, known parent.name)
    {lists : List (List Method)} (hlists : List.Forall₂ (r.InheritsFrom d) parents lists) :
    List.Forall₂ (r'.InheritsFrom d') parents lists := by
  have hknown := (List.forall₂_and_left parents lists).mpr ⟨hp, hlists⟩
  refine hknown.imp ?_
  rintro parent stubs ⟨hparent, p, inherited, hget, hi, hstubs⟩
  obtain ⟨p', hget', hf⟩ := h.frame.exists_of_get? hget
  refine ⟨p', inherited, hget', ?_, h.frame.overrideFor_eq hd ▸ hstubs⟩
  rw [h.allMethods_eq hf (h.methods _ p p' hparent hget hget') (h.parents _ p hparent hget), hi]

end Congruence

end Registry

end FluentGrammar
