import FluentGrammar.TypeParam

/-!
# Entries of substitutions

What is known about the entries of the substitutions that arise, and which names replacement leaves
alone.

* `Substitution.get?_unresolved`, `Substitution.get?_bind`: the entries of unresolved and of bound
  parameters.
* `TypeExpr.name_of_replace`: a type whose name has no entry keeps its name.
-/

namespace FluentGrammar

namespace Substitution

theorem get?_foldl_insert (entry : String → Option TypeArg) (names : List String)
    (s : Substitution) (name : String) :
    (names.foldl (fun s n => s.insert n (entry n)) s).get? name =
      if name ∈ names then some (entry name) else s.get? name := by
  induction names generalizing s with
  | nil => simp
  | cons n ns ih =>
    rw [List.foldl_cons, ih, get?_insert]
    by_cases hn : name = n <;> by_cases hns : name ∈ ns <;> simp [hn, hns]

theorem get?_unresolved (names : List String) (name : String) :
    (unresolved names).get? name = if name ∈ names then some none else none :=
  get?_foldl_insert (fun _ => none) names ∅ name

theorem isBound_iff {s : Substitution} {name : String} :
    s.isBound name = true ↔ ∃ arg, s.get? name = some (some arg) := by
  unfold isBound
  cases h : s.get? name with
  | none => simp
  | some entry => cases entry <;> simp

theorem mem_names_iff {s : Substitution} {name : String} :
    name ∈ s.entries.map Prod.fst ↔ s.contains name = true := by
  rw [contains, get?, List.lookup_isSome_iff]
  simp

theorem mem_ordinary_names {s : Substitution} {name : String} :
    name ∈ s.ordinary.map Prod.fst ↔ s.contains name = true ∧ isCapture name = false := by
  rw [← mem_names_iff, ordinary]
  simp only [List.mem_map, List.mem_filter, Bool.not_eq_true']
  constructor
  · rintro ⟨e, ⟨he, hc⟩, rfl⟩
    exact ⟨⟨e, he, rfl⟩, hc⟩
  · rintro ⟨⟨e, he, rfl⟩, hc⟩
    exact ⟨e, ⟨he, hc⟩, rfl⟩

theorem contains_of_get? {s : Substitution} {name : String} {entry : Option TypeArg}
    (h : s.get? name = some entry) : s.contains name = true := by
  simp [contains, h]

theorem lookup_eq_none {s : Substitution} {name : String} (h : s.get? name = none) :
    s.lookup name = none := by
  simp [lookup, h]

theorem get?_foldl_set {α : Type} (key : α → String) (arg : α → TypeArg) (es : List α)
    (s : Substitution) {name : String} (h : ∀ e ∈ es, key e ≠ name) :
    (es.foldl (fun s e => s.set (key e) (arg e)) s).get? name = s.get? name := by
  induction es generalizing s with
  | nil => rfl
  | cons e es ih =>
    rw [List.foldl_cons, ih _ fun f hf => h f (List.mem_cons_of_mem _ hf), get?_set,
      if_neg (h e List.mem_cons_self).symm]

theorem exists_get?_foldl_set {α : Type} (key : α → String) (arg : α → TypeArg) (es : List α)
    (s : Substitution) {name : String} (h : name ∈ es.map key) :
    ∃ e ∈ es, key e = name ∧
      (es.foldl (fun s e => s.set (key e) (arg e)) s).get? name = some (some (arg e)) := by
  induction es generalizing s with
  | nil => simp at h
  | cons e es ih =>
    by_cases hm : name ∈ es.map key
    · obtain ⟨f, hf, hk, hget⟩ := ih (s.set (key e) (arg e)) hm
      exact ⟨f, List.mem_cons_of_mem _ hf, hk, hget⟩
    · have hk : key e = name := by
        rw [List.map_cons, List.mem_cons] at h
        exact (h.resolve_right hm).symm
      refine ⟨e, List.mem_cons_self, hk, ?_⟩
      rw [List.foldl_cons, get?_foldl_set key arg es _ fun f hf he =>
        hm (List.mem_map.mpr ⟨f, hf, he⟩), get?_set, if_pos hk.symm]

theorem get?_bind {ps : TypeParams} {owner : String} {args : List TypeArg} {s : Substitution}
    (h : ps.bind owner args = .ok s) {name : String} (hn : name ∉ ps.names) :
    s.get? name = none := by
  have hu : (unresolved ps.names).get? name = none := by rw [get?_unresolved, if_neg hn]
  unfold TypeParams.bind at h
  split at h
  · exact Except.ok.inj h ▸ hu
  split at h
  · cases h
  rw [← Except.ok.inj h, get?_foldl_set Prod.fst Prod.snd, hu]
  intro e he heq
  exact hn (heq ▸ (List.of_mem_zip he).1)

end Substitution

theorem TypeExpr.name_of_replace {s : Substitution} {t u : TypeExpr} (hn : s.get? t.name = none)
    (h : t.replace s = .ok u) : u.name = t.name := by
  obtain ⟨name, args, dims⟩ := t
  rw [TypeExpr.replace, Substitution.lookup_eq_none hn] at h
  simp only at h
  split at h
  · exact Except.ok.inj h ▸ rfl
  · cases h

end FluentGrammar
