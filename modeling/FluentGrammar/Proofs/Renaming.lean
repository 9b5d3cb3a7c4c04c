import Mathlib.Data.Set.Function
import FluentGrammar.Proofs.Replacement

/-!
# Renaming

A renaming changes the names in a type and nothing else. Replacement is compatible with it: to
rename a type and then to replace names gives the same as to replace first and then to rename, if
the two replacements correspond.

* `TypeExpr.rename`: a type with its names changed.
* `TypeExpr.allNames_rename`, `TypeExpr.applied_rename`: the names of a renamed type.
* **`TypeExpr.rename_injOn`**: renaming loses nothing if different names stay different.
* **`TypeExpr.subst_rename`**: replacement in a renamed type.
* `TypeExpr.subst_eq_rename`: names that are replaced by names.
* `bound_map_names`: renamed parameters are bound to the same arguments.
-/

namespace FluentGrammar

mutual

/-- The type with all names changed. -/
def TypeExpr.rename (ρ : String → String) : TypeExpr → TypeExpr
  | ⟨name, args, dims⟩ => ⟨ρ name, TypeArg.renameAll ρ args, dims⟩

/-- The argument with all names changed. -/
def TypeArg.rename (ρ : String → String) : TypeArg → TypeArg
  | .plain t => .plain (TypeExpr.rename ρ t)
  | .any => .any
  | .upper t => .upper (TypeExpr.rename ρ t)
  | .lower t => .lower (TypeExpr.rename ρ t)

/-- The arguments with all names changed. -/
def TypeArg.renameAll (ρ : String → String) : List TypeArg → List TypeArg
  | [] => []
  | a :: as => TypeArg.rename ρ a :: TypeArg.renameAll ρ as

end

section Names

variable {ρ σ : String → String}

theorem TypeArg.renameAll_eq_map (ρ : String → String) (as : List TypeArg) :
    renameAll ρ as = as.map (rename ρ) := by
  induction as with
  | nil => rfl
  | cons a as ih => rw [renameAll, ih, List.map_cons]

theorem TypeExpr.rename_eq (ρ : String → String) (t : TypeExpr) :
    t.rename ρ = ⟨ρ t.name, t.args.map (TypeArg.rename ρ), t.dims⟩ := by
  obtain ⟨name, args, dims⟩ := t
  rw [rename, TypeArg.renameAll_eq_map]

@[simp]
theorem TypeExpr.name_rename (ρ : String → String) (t : TypeExpr) :
    (t.rename ρ).name = ρ t.name := by
  rw [rename_eq]

@[simp]
theorem TypeExpr.args_rename (ρ : String → String) (t : TypeExpr) :
    (t.rename ρ).args = t.args.map (TypeArg.rename ρ) := by
  rw [rename_eq]

@[simp]
theorem TypeExpr.isBare_rename (ρ : String → String) (t : TypeExpr) :
    (t.rename ρ).isBare = t.isBare := by
  rw [rename_eq]
  simp [isBare]

theorem TypeExpr.rename_arrayOf (ρ : String → String) (t : TypeExpr) (n : Nat) :
    (t.arrayOf n).rename ρ = (t.rename ρ).arrayOf n := by
  rw [rename_eq, rename_eq]
  rfl

theorem TypeArg.toType_rename (htop : ρ TypeExpr.topName = TypeExpr.topName) (a : TypeArg) :
    (a.rename ρ).toType = a.toType.rename ρ := by
  have h : TypeExpr.top.rename ρ = TypeExpr.top := by
    rw [TypeExpr.rename_eq]
    exact congrArg (TypeExpr.mk · [] 0) htop
  cases a with
  | any => exact h.symm
  | lower t => exact h.symm
  | plain t => rfl
  | upper t => rfl

mutual

theorem TypeExpr.allNames_rename (ρ : String → String) :
    (t : TypeExpr) → (t.rename ρ).allNames = t.allNames.map ρ
  | ⟨name, args, dims⟩ => by
    rw [TypeExpr.rename, TypeExpr.allNames, TypeExpr.allNames, List.map_cons,
      TypeArg.allNamesOf_renameAll ρ args]

theorem TypeArg.allNames_rename (ρ : String → String) :
    (a : TypeArg) → (a.rename ρ).allNames = a.allNames.map ρ
  | .plain t => TypeExpr.allNames_rename ρ t
  | .upper t => TypeExpr.allNames_rename ρ t
  | .lower t => TypeExpr.allNames_rename ρ t
  | .any => rfl

theorem TypeArg.allNamesOf_renameAll (ρ : String → String) :
    (as : List TypeArg) →
      TypeArg.allNamesOf (TypeArg.renameAll ρ as) = (TypeArg.allNamesOf as).map ρ
  | [] => rfl
  | a :: as => by
    rw [TypeArg.renameAll, TypeArg.allNamesOf, TypeArg.allNamesOf, List.map_append,
      TypeArg.allNames_rename ρ a, TypeArg.allNamesOf_renameAll ρ as]

end

mutual

theorem TypeExpr.applied_rename (ρ : String → String) :
    (t : TypeExpr) → (t.rename ρ).applied = t.applied.map ρ
  | ⟨name, args, dims⟩ => by
    rw [TypeExpr.rename, TypeExpr.applied, TypeExpr.applied, List.map_append,
      TypeArg.appliedAll_renameAll ρ args]
    cases args <;> rfl

theorem TypeArg.applied_rename (ρ : String → String) :
    (a : TypeArg) → (a.rename ρ).applied = a.applied.map ρ
  | .plain t => TypeExpr.applied_rename ρ t
  | .upper t => TypeExpr.applied_rename ρ t
  | .lower t => TypeExpr.applied_rename ρ t
  | .any => rfl

theorem TypeArg.appliedAll_renameAll (ρ : String → String) :
    (as : List TypeArg) →
      TypeArg.appliedAll (TypeArg.renameAll ρ as) = (TypeArg.appliedAll as).map ρ
  | [] => rfl
  | a :: as => by
    rw [TypeArg.renameAll, TypeArg.appliedAll, TypeArg.appliedAll, List.map_append,
      TypeArg.applied_rename ρ a, TypeArg.appliedAll_renameAll ρ as]

end

/-! ## Renaming twice -/

theorem TypeExpr.rename_rename (t : TypeExpr) : (t.rename ρ).rename σ = t.rename (σ ∘ ρ) := by
  induction t using TypeExpr.induction with
  | step name args dims ih =>
    have hargs : ∀ a ∈ args, (a.rename ρ).rename σ = a.rename (σ ∘ ρ) := by
      intro a ha
      cases a with
      | any => rfl
      | plain t => exact congrArg TypeArg.plain (ih _ ha t rfl)
      | upper t => exact congrArg TypeArg.upper (ih _ ha t rfl)
      | lower t => exact congrArg TypeArg.lower (ih _ ha t rfl)
    simp only [rename, TypeArg.renameAll_eq_map, List.map_map, Function.comp_apply, mk.injEq,
      true_and, and_true]
    exact List.map_congr_left hargs

theorem TypeExpr.rename_eq_self {t : TypeExpr}
    (h : ∀ name, t.mentions name = true → ρ name = name) : t.rename ρ = t := by
  induction t using TypeExpr.induction with
  | step name args dims ih =>
    have hargs : ∀ a ∈ args, a.rename ρ = a := by
      intro a ha
      have hself : ∀ t, a.type? = some t → t.rename ρ = t := fun t ht =>
        ih a ha t ht fun n hn => h n (mentions_of_mem_args ha (TypeArg.mentions_of_type? ht hn))
      cases a with
      | any => rfl
      | plain t => exact congrArg TypeArg.plain (hself t rfl)
      | upper t => exact congrArg TypeArg.upper (hself t rfl)
      | lower t => exact congrArg TypeArg.lower (hself t rfl)
    rw [rename, TypeArg.renameAll_eq_map, h name (mentions_name ⟨name, args, dims⟩),
      List.map_congr_left hargs, List.map_id']

/-- **Renaming loses nothing** among types with names that stay different. -/
theorem TypeExpr.rename_injOn {S : Set String} (hρ : Set.InjOn ρ S) :
    Set.InjOn (rename ρ) {t | ∀ name, t.mentions name = true → name ∈ S} := by
  have hback : ∀ t : TypeExpr, (∀ name, t.mentions name = true → name ∈ S) →
      (t.rename ρ).rename (Function.invFunOn ρ S) = t := by
    intro t ht
    rw [rename_rename]
    exact rename_eq_self fun name hn => hρ.leftInvOn_invFunOn (ht name hn)
  intro t ht u hu h
  rw [← hback t ht, h, hback u hu]

end Names

/-! ## Replacement in renamed types -/

section Substitution

variable {ρ σ : String → String} {f g : String → Option TypeArg}

theorem TypeArg.subst_rename_of {a : TypeArg}
    (ht : ∀ t, a.type? = some t → (t.rename ρ).subst g = (t.subst f).rename σ)
    (h : ∀ name, a.mentions name = true → g (ρ name) = (f name).map (TypeArg.rename σ)) :
    (a.rename ρ).subst g = (a.subst f).rename σ := by
  cases a with
  | any => rfl
  | upper t => exact congrArg TypeArg.upper (ht t rfl)
  | lower t => exact congrArg TypeArg.lower (ht t rfl)
  | plain t =>
    have hg : g (t.rename ρ).name = (f t.name).map (TypeArg.rename σ) := by
      rw [TypeExpr.name_rename]
      exact h t.name t.mentions_name
    rw [rename]
    by_cases hbare : t.isBare = true → f t.name = none
    · have hbare' : (t.rename ρ).isBare = true → g (t.rename ρ).name = none := by
        intro hb
        rw [hg, hbare (by rwa [TypeExpr.isBare_rename] at hb), Option.map_none]
      rw [subst_plain_of_none hbare, subst_plain_of_none hbare', ht t rfl, rename]
    · push Not at hbare
      obtain ⟨arg, harg⟩ := Option.ne_none_iff_exists'.mp hbare.2
      rw [harg, Option.map_some] at hg
      rw [subst_plain_of_some hbare.1 harg,
        subst_plain_of_some (by rw [TypeExpr.isBare_rename, hbare.1]) hg]

/-- **Renaming and replacement commute**, if the second replacement has the renamed arguments at the
renamed names, and names that are not replaced are renamed alike. -/
theorem TypeExpr.subst_rename (htop : σ topName = topName) (t : TypeExpr)
    (h : ∀ name, t.mentions name = true → g (ρ name) = (f name).map (TypeArg.rename σ))
    (hstay : ∀ name, t.mentions name = true → f name = none → ρ name = σ name) :
    (t.rename ρ).subst g = (t.subst f).rename σ := by
  induction t using TypeExpr.induction with
  | step name args dims ih =>
    have hname : mentions name ⟨name, args, dims⟩ = true := mentions_name ⟨name, args, dims⟩
    have hg := h name hname
    cases hf : f name with
    | some arg =>
      rw [hf, Option.map_some] at hg
      have hfirst : TypeExpr.subst f ⟨name, args, dims⟩ = arg.toType.arrayOf dims :=
        subst_of_some hf
      have hsecond : (TypeExpr.rename ρ ⟨name, args, dims⟩).subst g =
          (arg.rename σ).toType.arrayOf dims := by
        rw [rename]
        exact subst_of_some hg
      rw [hfirst, hsecond, rename_arrayOf, TypeArg.toType_rename htop]
    | none =>
      have hsame := hstay name hname hf
      rw [hf, Option.map_none, hsame] at hg
      have hargs : ∀ a ∈ args, (a.rename ρ).subst g = (a.subst f).rename σ := by
        intro a ha
        refine TypeArg.subst_rename_of (fun t ht => ih a ha t ht ?_ ?_) ?_
        · exact fun n hn => h n (mentions_of_mem_args ha (TypeArg.mentions_of_type? ht hn))
        · exact fun n hn => hstay n (mentions_of_mem_args ha (TypeArg.mentions_of_type? ht hn))
        · exact fun n hn => h n (mentions_of_mem_args ha hn)
      simp only [rename, subst, hf, hg, hsame, TypeArg.renameAll_eq_map, TypeArg.substAll_eq_map,
        List.map_map, mk.injEq, true_and, and_true]
      exact List.map_congr_left hargs

theorem TypeArg.subst_eq_rename_of {a : TypeArg}
    (ht : ∀ t, a.type? = some t → t.subst f = t.rename ρ)
    (ha : ∀ name, a.mentions name = true →
      f name = none ∨ f name = some (.plain (.named (ρ name)))) :
    a.subst f = a.rename ρ := by
  cases a with
  | any => rfl
  | upper t => exact congrArg TypeArg.upper (ht t rfl)
  | lower t => exact congrArg TypeArg.lower (ht t rfl)
  | plain t =>
    by_cases hbare : t.isBare = true → f t.name = none
    · rw [subst_plain_of_none hbare, ht t rfl, rename]
    · push Not at hbare
      have hname := (ha t.name t.mentions_name).resolve_left hbare.2
      rw [subst_plain_of_some hbare.1 hname, rename, TypeExpr.rename_eq]
      obtain ⟨name, args, dims⟩ := t
      simp_all [TypeExpr.isBare, TypeExpr.named]

/-- Replacement of names by names is a renaming, if only bare names are replaced. -/
theorem TypeExpr.subst_eq_rename {t : TypeExpr}
    (ht : ∀ name, t.mentions name = true →
      f name = none ∧ ρ name = name ∨ f name = some (.plain (.named (ρ name))))
    (happlied : ∀ name ∈ t.applied, f name = none) : t.subst f = t.rename ρ := by
  induction t using TypeExpr.induction with
  | step name args dims ih =>
    rcases ht name (mentions_name ⟨name, args, dims⟩) with ⟨hname, hself⟩ | hname
    · rw [subst_of_none hname, rename_eq, hself]
      refine congrArg (TypeExpr.mk name · dims) (List.map_congr_left fun a ha => ?_)
      refine TypeArg.subst_eq_rename_of (fun t hta => ih a ha t hta ?_ ?_) fun n hn => ?_
      · exact fun n hn => ht n (mentions_of_mem_args ha (TypeArg.mentions_of_type? hta hn))
      · exact fun n hn => happlied n
          (mem_applied_of_mem_args ha (TypeArg.mem_applied_of_type? hta hn))
      · exact (ht n (mentions_of_mem_args ha hn)).imp_left And.left
    · have hargs : args = [] := by
        by_contra hne
        have := happlied name (List.mem_append_left _ (by simp [hne]))
        rw [hname] at this
        cases this
      rw [subst_of_some hname, hargs, rename_eq]
      simp [TypeArg.toType, arrayOf, named]

theorem TypeArg.mentions_subst_of_none_of {a : TypeArg} {name : String} (hname : f name = none)
    (ht : ∀ t, a.type? = some t → t.mentions name = true → (t.subst f).mentions name = true)
    (h : a.mentions name = true) : (a.subst f).mentions name = true := by
  cases a with
  | any => cases h
  | upper t => exact ht t rfl h
  | lower t => exact ht t rfl h
  | plain t =>
    rw [subst_plain_of_none]
    · exact ht t rfl h
    · intro hbare
      have hself : t.name = name := by
        obtain ⟨n, args, dims⟩ := t
        simp_all [TypeExpr.isBare, mentions, TypeExpr.mentions, anyMentions]
      rw [hself, hname]

/-- A name that stays is mentioned after a replacement, if no applied name is replaced. -/
theorem TypeExpr.mentions_subst_of_none {name : String} (hname : f name = none) (t : TypeExpr)
    (happlied : ∀ n ∈ t.applied, f n = none) (h : t.mentions name = true) :
    (t.subst f).mentions name = true := by
  induction t using TypeExpr.induction with
  | step n args dims ih =>
    rw [mentions, TypeArg.anyMentions_eq_any, Bool.or_eq_true, beq_iff_eq, List.any_eq_true] at h
    rcases h with rfl | ⟨a, ha, h⟩
    · rw [subst_of_none hname]
      exact mentions_name ⟨n, args.map (TypeArg.subst f), dims⟩
    · have hn : f n = none :=
        happlied n (List.mem_append_left _ (by simp [List.ne_nil_of_mem ha]))
      rw [subst_of_none hn]
      refine mentions_of_mem_args (List.mem_map_of_mem ha)
        (TypeArg.mentions_subst_of_none_of hname (fun t ht => ih a ha t ht fun x hx => ?_) h)
      exact happlied x (mem_applied_of_mem_args ha (TypeArg.mem_applied_of_type? ht hx))

theorem bound_map_names {names : List String} (args : List TypeArg) {name : String}
    (hρ : ∀ n ∈ names, ρ n = ρ name → n = name) :
    bound (names.map ρ) args (ρ name) = bound names args name := by
  have key : ∀ es : List (String × TypeArg), (∀ e ∈ es, ρ e.1 = ρ name → e.1 = name) →
      (es.map (Prod.map ρ id)).lookup (ρ name) = es.lookup name := by
    intro es hes
    induction es with
    | nil => rfl
    | cons e es ih =>
      obtain ⟨he, hes⟩ := List.forall_mem_cons.mp hes
      have hsame : (ρ name == ρ e.1) = (name == e.1) := by
        rw [Bool.eq_iff_iff, beq_iff_eq, beq_iff_eq]
        exact ⟨fun h => (he h.symm).symm, fun h => congrArg ρ h⟩
      rw [List.map_cons, List.lookup_cons, List.lookup_cons, ih hes]
      dsimp only [Prod.map, id]
      rw [hsame]
  rw [bound, bound, List.zip_map_left, ← List.map_reverse]
  exact key _ fun e he => hρ e.1 (List.of_mem_zip (List.mem_reverse.mp he)).1

end Substitution

end FluentGrammar
