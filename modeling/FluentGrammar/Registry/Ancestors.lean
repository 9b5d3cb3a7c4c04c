import FluentGrammar.Registry.Basic

/-!
# Ancestors

All types that a definition inherits from, written with its own type parameters. A parent that is
not registered is a fault, and so is a definition that inherits from itself: the names on the way
from a definition to its ancestors are kept in a *trail*, on which no name may return.

* `Registry.ancestors`: the ancestors of a definition, each parent before its own ancestors.
* `Registry.findAncestor`: the ancestor of a given name.
* `Registry.redundantInterfaces`: implemented interfaces that another parent brings along.
-/

namespace FluentGrammar

/-- The members of a list that are not in `seen`, in order of first occurrence. -/
def newOccurrences {α : Type} [DecidableEq α] (seen : List α) : List α → List α
  | [] => []
  | a :: as => if a ∈ seen then newOccurrences seen as else a :: newOccurrences (a :: seen) as

/-- The members of a list in order of first occurrence. -/
def firstOccurrences {α : Type} [DecidableEq α] (as : List α) : List α :=
  newOccurrences [] as

theorem mem_newOccurrences {α : Type} [DecidableEq α] {a : α} {seen as : List α} :
    a ∈ newOccurrences seen as ↔ a ∈ as ∧ a ∉ seen := by
  induction as generalizing seen with
  | nil => simp [newOccurrences]
  | cons b bs ih =>
    by_cases hb : b ∈ seen
    · simp only [newOccurrences, hb, if_true, ih, List.mem_cons]
      by_cases h : a = b
      · simp [h, hb]
      · simp [h]
    · simp only [newOccurrences, hb, if_false, List.mem_cons, ih]
      by_cases h : a = b
      · simp [h, hb]
      · simp [h]

theorem mem_firstOccurrences {α : Type} [DecidableEq α] {a : α} {as : List α} :
    a ∈ firstOccurrences as ↔ a ∈ as := by
  simp [firstOccurrences, mem_newOccurrences]

theorem firstOccurrences_of_nodup {α : Type} [DecidableEq α] {as : List α} (h : as.Nodup) :
    firstOccurrences as = as := by
  have key : ∀ seen : List α, (∀ x ∈ as, x ∉ seen) → newOccurrences seen as = as := by
    induction as with
    | nil => exact fun _ _ => rfl
    | cons a as ih =>
      intro seen hs
      obtain ⟨ha, has⟩ := List.nodup_cons.mp h
      rw [newOccurrences, if_neg (hs a List.mem_cons_self), ih has]
      intro x hx hm
      rcases List.mem_cons.mp hm with rfl | hm
      · exact ha hx
      · exact hs x (List.mem_cons_of_mem _ hx) hm
  exact key [] (by simp)

theorem nodup_newOccurrences {α : Type} [DecidableEq α] (seen as : List α) :
    (newOccurrences seen as).Nodup := by
  induction as generalizing seen with
  | nil => exact List.nodup_nil
  | cons b bs ih =>
    unfold newOccurrences
    split
    · exact ih seen
    · exact List.nodup_cons.mpr ⟨fun h => (mem_newOccurrences.mp h).2 List.mem_cons_self, ih _⟩

namespace Registry

/-- The number of registered names that are not on the trail. -/
def unvisited (r : Registry) (trail : List String) : Nat :=
  (r.names.filter (· ∉ trail)).length

theorem unvisited_lt {r : Registry} {trail : List String} {name : String} (h : name ∈ r.names)
    (hn : name ∉ trail) : r.unvisited (trail ++ [name]) < r.unvisited trail := by
  have hsub : r.names.filter (· ∉ trail ++ [name]) =
      (r.names.filter (· ∉ trail)).filter (· ≠ name) := by
    rw [List.filter_filter]
    refine List.filter_congr fun x _ => ?_
    by_cases h₁ : x = name <;> by_cases h₂ : x ∈ trail <;> simp [h₁, h₂]
  rw [unvisited, unvisited, hsub]
  exact List.length_filter_lt_length_iff_exists.mpr ⟨name, by simp [h, hn], by simp⟩

/-- The number of parents that all definitions name together. -/
def parentCount (r : Registry) : Nat :=
  ((r.definitions ++ r.anonymous).flatMap Definition.supertypes).length

theorem length_supertypes_le {r : Registry} {name : String} {d : Definition}
    (h : r.get? name = some d) : d.supertypes.length ≤ r.parentCount := by
  have hm : d ∈ r.definitions ++ r.anonymous := List.mem_of_find?_eq_some h
  obtain ⟨as, bs, he⟩ := List.append_of_mem hm
  rw [parentCount, he, List.flatMap_append, List.flatMap_cons, List.length_append,
    List.length_append]
  omega

/-- A bound on the parents to be looked at on a trail, before those on the way run out. -/
def workload (r : Registry) (trail : List String) (parents : List TypeExpr) : Nat :=
  r.unvisited trail * (r.parentCount + 1) + parents.length

theorem workload_lt {r : Registry} {trail : List String} {name : String} {d : Definition}
    {parents : List TypeExpr} (hd : r.get? name = some d) (hn : d.name ∉ trail) :
    r.workload (trail ++ [d.name]) d.supertypes < r.workload trail parents := by
  have hlt := unvisited_lt (name_of_get? hd ▸ mem_names_of_get? hd) hn
  have hle := length_supertypes_le hd
  have hmul : (r.unvisited (trail ++ [d.name]) + 1) * (r.parentCount + 1) ≤
      r.unvisited trail * (r.parentCount + 1) := Nat.mul_le_mul_right _ hlt
  rw [Nat.add_mul] at hmul
  unfold workload
  omega

theorem workload_tail_lt (r : Registry) (trail : List String) (parent : TypeExpr)
    (rest : List TypeExpr) : r.workload trail rest < r.workload trail (parent :: rest) := by
  simp [workload]

/-- Types with the names of a substitution replaced, each type once. Without type parameters there
is nothing to replace. -/
def replaceDistinct (ps : TypeParams) (s : Substitution) (types : List TypeExpr) :
    Except ModelFault (List TypeExpr) :=
  if ps.isEmpty then .ok types else (types.mapM (TypeExpr.replace s)).map firstOccurrences

/-- What a definition inherits through one parent: the parent itself and the ancestors of the
parent's definition, with its parameters bound to the arguments of the parent. -/
def throughParent (parent : TypeExpr) (d : Definition) (inherited : List TypeExpr) :
    Except ModelFault (List TypeExpr) := do
  let s ← d.typeParams.bind d.name parent.args
  return parent :: (← replaceDistinct d.typeParams s inherited).filter (· ≠ parent)

theorem mapM_replace_empty (types : List TypeExpr) :
    types.mapM (TypeExpr.replace ∅) = .ok types := by
  induction types with
  | nil => rfl
  | cons t ts ih => rw [List.mapM_cons, TypeExpr.replace_empty, ih]; rfl

theorem eq_empty_of_bind_nil {owner : String} {args : List TypeArg} {s : Substitution}
    (h : TypeParams.bind [] owner args = .ok s) : s = ∅ := by
  unfold TypeParams.bind at h
  split at h
  · exact (Except.ok.inj h).symm
  · split at h
    · cases h
    · simp_all

/-- Among distinct types the replacement is the plain one, followed by the removal of repeats. -/
theorem replaceDistinct_eq {ps : TypeParams} {owner : String} {args : List TypeArg}
    {s : Substitution} (h : ps.bind owner args = .ok s) {types : List TypeExpr}
    (hn : types.Nodup) :
    replaceDistinct ps s types = (types.mapM (TypeExpr.replace s)).map firstOccurrences := by
  unfold replaceDistinct
  split
  · rename_i hp
    obtain rfl := List.isEmpty_iff.mp hp
    rw [eq_empty_of_bind_nil h, mapM_replace_empty]
    exact congrArg Except.ok (firstOccurrences_of_nodup hn).symm
  · rfl

/-- What the definition `context` inherits through `parents`. -/
def ancestorsVia (r : Registry) (context : String) (trail : List String)
    (parents : List TypeExpr) : Except ModelFault (List TypeExpr) :=
  match parents with
  | [] => .ok []
  | parent :: rest =>
    match _hd : r.get? parent.name with
    | none => .error (.unknownType parent.name context)
    | some d =>
      if _hn : d.name ∈ trail then .error (.cycle (trail ++ [d.name]))
      else do
        let inherited ← ancestorsVia r d.name (trail ++ [d.name]) d.supertypes
        let types ← throughParent parent d inherited
        let others ← ancestorsVia r context trail rest
        return types ++ others.filter (· ∉ types)
termination_by r.workload trail parents
decreasing_by
  · exact workload_lt _hd _hn
  · exact workload_tail_lt r trail parent rest

theorem nodup_throughParent {parent : TypeExpr} {d : Definition} {inherited types : List TypeExpr}
    (hn : inherited.Nodup) (h : throughParent parent d inherited = .ok types) : types.Nodup := by
  unfold throughParent at h
  cases hs : d.typeParams.bind d.name parent.args with
  | error e => simp [hs, bind, Except.bind] at h
  | ok s =>
    cases hr : replaceDistinct d.typeParams s inherited with
    | error e => simp [hs, hr, bind, Except.bind] at h
    | ok ts =>
      have hts : ts.Nodup := by
        unfold replaceDistinct at hr
        split at hr
        · exact Except.ok.inj hr ▸ hn
        · cases hm : inherited.mapM (TypeExpr.replace s) with
          | error e => simp [hm, Except.map] at hr
          | ok us =>
            rw [hm] at hr
            exact Except.ok.inj hr ▸ nodup_newOccurrences [] us
      simp only [hs, hr, bind, Except.bind, pure, Except.pure, Except.ok.injEq] at h
      subst h
      exact List.nodup_cons.mpr ⟨by simp, hts.filter _⟩

/-- No type is inherited twice. -/
theorem nodup_ancestorsVia {r : Registry} {context : String} {trail : List String}
    {parents types : List TypeExpr} (h : r.ancestorsVia context trail parents = .ok types) :
    types.Nodup := by
  fun_induction ancestorsVia r context trail parents generalizing types with
  | case1 => exact Except.ok.inj h ▸ List.nodup_nil
  | case2 => cases h
  | case3 => cases h
  | case4 context trail parent rest d _ _ ih₁ ih₂ =>
    cases hi : r.ancestorsVia d.name (trail ++ [d.name]) d.supertypes with
    | error e => simp [hi, bind, Except.bind] at h
    | ok inherited =>
      cases ht : throughParent parent d inherited with
      | error e => simp [hi, ht, bind, Except.bind] at h
      | ok ts =>
        cases ho : r.ancestorsVia context trail rest with
        | error e => simp [hi, ht, ho, bind, Except.bind] at h
        | ok others =>
          simp only [hi, ht, ho, bind, Except.bind, pure, Except.pure, Except.ok.injEq] at h
          subst h
          refine List.nodup_append.mpr
            ⟨nodup_throughParent (ih₁ hi) ht, (ih₂ ho).filter _, fun a ha b hb he => ?_⟩
          exact absurd (he ▸ ha) (by simpa using (List.mem_filter.mp hb).2)

/-- All types that a definition inherits from, written with its own type parameters. -/
def ancestors (r : Registry) (d : Definition) : Except ModelFault (List TypeExpr) :=
  r.ancestorsVia d.name [d.name] d.supertypes

/-- The ancestor of a given name. -/
def findAncestor (r : Registry) (d : Definition) (name : String) :
    Except ModelFault (Option TypeExpr) := do
  return (← r.ancestors d).find? (·.name = name)

/-- The names of the types that the definition of `parent` inherits from. -/
def ancestorNames (r : Registry) (context : String) (parent : TypeExpr) :
    Except ModelFault (List String) := do
  let d ← r.require parent.name context
  return (← r.ancestors d).map TypeExpr.name

/-- The directly implemented interfaces of a class that it also inherits through another of its
parents. -/
def redundantInterfaces (r : Registry) (d : Definition) : Except ModelFault (List TypeExpr) := do
  if !d.isNamedClass then return []
  let reachable ← d.supertypes.mapM (r.ancestorNames d.name)
  let offset := d.superclass?.toList.length
  let redundant := d.interfaces.zipIdx.filter fun (i, position) =>
    reachable.zipIdx.any fun (names, other) => other ≠ position + offset && i.name ∈ names
  return redundant.map Prod.fst

end Registry

end FluentGrammar
