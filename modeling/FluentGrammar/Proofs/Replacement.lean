import FluentGrammar.Proofs.Run
import FluentGrammar.Proofs.Substitution
import FluentGrammar.TypeExpr.Order
import FluentGrammar.Proofs.Unification

/-!
# Replacement as a function of names

Whether a replacement succeeds depends only on the names that are applied to arguments, and what it
gives depends only on what is put in the place of each name. So replacement is a plain map of types,
which composes: to replace twice is to replace once by what the second replacement makes of the
first.

* `TypeExpr.subst`: replacement by a function from names to arguments.
* `TypeExpr.applied`: the names that are applied to arguments.
* **`TypeExpr.replace_eq_ok_iff`**: when replacement succeeds, and what it gives.
* `TypeExpr.fault_of_replace`: how it fails.
* `TypeExpr.subst_congr`, **`TypeExpr.subst_subst`**: only mentioned names matter, and two
  replacements are one.
* `TypeExpr.replace_congr`: the same for faults.
* `TypeExpr.subst_eq_self`: names that stand for themselves.
* `TypeExpr.mentions_subst`, `TypeExpr.applied_subst`: the names of a replaced type.
-/

namespace FluentGrammar

/-! ## Definitions -/

/-- What a substitution puts in the place of a name. -/
def Substitution.value (s : Substitution) (name : String) : Option TypeArg :=
  (s.lookup name).join

mutual

/-- The type with every name replaced for which there is an argument. -/
def TypeExpr.subst (f : String → Option TypeArg) : TypeExpr → TypeExpr
  | ⟨name, args, dims⟩ =>
    match f name with
    | some arg => arg.toType.arrayOf dims
    | none => ⟨name, TypeArg.substAll f args, dims⟩

/-- The argument with every name replaced for which there is an argument. -/
def TypeArg.subst (f : String → Option TypeArg) : TypeArg → TypeArg
  | .plain t => (if t.isBare then f t.name else none).getD (.plain (TypeExpr.subst f t))
  | .any => .any
  | .upper t => .upper (TypeExpr.subst f t)
  | .lower t => .lower (TypeExpr.subst f t)

/-- All arguments with every name replaced for which there is an argument. -/
def TypeArg.substAll (f : String → Option TypeArg) : List TypeArg → List TypeArg
  | [] => []
  | a :: as => TypeArg.subst f a :: TypeArg.substAll f as

end

mutual

/-- The names in the type that are applied to arguments. -/
def TypeExpr.applied : TypeExpr → List String
  | ⟨name, args, _⟩ => (if args.isEmpty then [] else [name]) ++ TypeArg.appliedAll args

/-- The names in the argument that are applied to arguments. -/
def TypeArg.applied : TypeArg → List String
  | .plain t | .upper t | .lower t => TypeExpr.applied t
  | .any => []

/-- The names in the arguments that are applied to arguments. -/
def TypeArg.appliedAll : List TypeArg → List String
  | [] => []
  | a :: as => TypeArg.applied a ++ TypeArg.appliedAll as

end

theorem TypeArg.substAll_eq_map (f : String → Option TypeArg) (as : List TypeArg) :
    substAll f as = as.map (subst f) := by
  induction as with
  | nil => rfl
  | cons a as ih => rw [substAll, ih, List.map_cons]

theorem TypeArg.mem_appliedAll {name : String} {as : List TypeArg} :
    name ∈ appliedAll as ↔ ∃ a ∈ as, name ∈ a.applied := by
  induction as with
  | nil => simp [appliedAll]
  | cons a as ih => simp [appliedAll, ih]

theorem TypeExpr.mem_applied_of_mem_args {t : TypeExpr} {a : TypeArg} (ha : a ∈ t.args)
    {name : String} (hn : name ∈ a.applied) : name ∈ t.applied := by
  obtain ⟨_, args, _⟩ := t
  exact List.mem_append_right _ (TypeArg.mem_appliedAll.mpr ⟨a, ha, hn⟩)

theorem TypeArg.mentions_of_type? {a : TypeArg} {t : TypeExpr} (ht : a.type? = some t)
    {name : String} (hn : t.mentions name = true) : a.mentions name = true := by
  cases a <;> cases ht <;> exact hn

theorem TypeArg.mem_applied_of_type? {a : TypeArg} {t : TypeExpr} (ht : a.type? = some t)
    {name : String} (hn : name ∈ t.applied) : name ∈ a.applied := by
  cases a <;> cases ht <;> exact hn

theorem TypeExpr.mentions_of_applied {t : TypeExpr} {name : String} (h : name ∈ t.applied) :
    t.mentions name = true := by
  induction t using TypeExpr.induction with
  | step n args dims ih =>
    rcases List.mem_append.mp h with h | h
    · split at h
      · cases h
      · exact List.mem_singleton.mp h ▸ mentions_name ⟨n, args, dims⟩
    · obtain ⟨a, ha, hn⟩ := TypeArg.mem_appliedAll.mp h
      refine mentions_of_mem_args ha ?_
      cases a with
      | plain t => exact ih _ ha t rfl hn
      | upper t => exact ih _ ha t rfl hn
      | lower t => exact ih _ ha t rfl hn
      | any => cases hn

/-! ## Replacement is substitution -/

theorem Substitution.lookup_eq_none_iff {s : Substitution} {name : String} :
    s.lookup name = none ↔ s.contains name = false := by
  simp [lookup, contains]

theorem TypeExpr.applied_of_isBare {t : TypeExpr} (h : t.isBare = true) : t.applied = [] := by
  obtain ⟨name, args, dims⟩ := t
  simp_all [isBare, applied, TypeArg.appliedAll]

mutual

/-- **Replacement succeeds if no applied name has an entry**, and then it is substitution. -/
theorem TypeExpr.replace_eq_ok_iff {s : Substitution} :
    (t : TypeExpr) → ∀ {u}, t.replace s = .ok u ↔
      (∀ name ∈ t.applied, s.contains name = false) ∧ t.subst s.value = u
  | ⟨name, args, dims⟩, u => by
    have ih := @TypeArg.replaceAll_eq_ok_iff s args
    cases hl : s.lookup name with
    | none =>
      have hc := Substitution.lookup_eq_none_iff.mp hl
      have happlied : (∀ n ∈ TypeExpr.applied ⟨name, args, dims⟩, s.contains n = false) ↔
          ∀ n ∈ TypeArg.appliedAll args, s.contains n = false := by
        cases args <;> simp [TypeExpr.applied, hc]
      rw [happlied]
      simp only [TypeExpr.replace, TypeExpr.subst, Substitution.value, hl, Option.join_none]
      cases hr : TypeArg.replaceAll s args with
      | ok as =>
        obtain ⟨h, rfl⟩ := ih.mp hr
        exact ⟨fun hu => ⟨h, Except.ok.inj hu⟩, fun hu => congrArg Except.ok hu.2⟩
      | error e =>
        have : ¬ ∀ n ∈ TypeArg.appliedAll args, s.contains n = false := fun h => by
          cases hr.symm.trans (ih.mpr ⟨h, rfl⟩)
        simp [this]
    | some entry =>
      have hc : s.contains name = true := by
        rw [← Bool.not_eq_false, ← Substitution.lookup_eq_none_iff, hl]
        simp
      cases args with
      | nil => cases entry <;> simp [TypeExpr.replace, TypeExpr.subst, TypeExpr.applied,
          TypeArg.appliedAll, TypeArg.substAll, Substitution.value, hl]
      | cons a as => simp [TypeExpr.replace, TypeExpr.applied, hl, hc]

theorem TypeArg.replace_eq_ok_iff {s : Substitution} :
    (a : TypeArg) → ∀ {b}, a.replace s = .ok b ↔
      (∀ name ∈ a.applied, s.contains name = false) ∧ a.subst s.value = b
  | .plain t, b => by
    have ih := @TypeExpr.replace_eq_ok_iff s t
    have hmap : (TypeExpr.replace s t).map TypeArg.plain = .ok b ↔
        (∀ name ∈ t.applied, s.contains name = false) ∧ .plain (t.subst s.value) = b := by
      rw [Except.map_eq_ok_iff]
      grind
    by_cases hbare : t.isBare = true
    · cases hl : s.lookup t.name with
      | none =>
        simpa [TypeArg.replace, TypeArg.subst, TypeArg.applied, Substitution.value, hl] using hmap
      | some entry =>
        cases entry with
        | none =>
          simpa [TypeArg.replace, TypeArg.subst, TypeArg.applied, Substitution.value, hl, hbare]
            using hmap
        | some arg => simp [TypeArg.replace, TypeArg.subst, TypeArg.applied, Substitution.value, hl,
            hbare, TypeExpr.applied_of_isBare hbare]
    · simpa [TypeArg.replace, TypeArg.subst, TypeArg.applied, hbare] using hmap
  | .any, b => by simp [TypeArg.replace, TypeArg.subst, TypeArg.applied]
  | .upper t, b => by
    have ih := @TypeExpr.replace_eq_ok_iff s t
    rw [TypeArg.replace, Except.map_eq_ok_iff, TypeArg.subst, TypeArg.applied]
    grind
  | .lower t, b => by
    have ih := @TypeExpr.replace_eq_ok_iff s t
    rw [TypeArg.replace, Except.map_eq_ok_iff, TypeArg.subst, TypeArg.applied]
    grind

theorem TypeArg.replaceAll_eq_ok_iff {s : Substitution} :
    (as : List TypeArg) → ∀ {bs}, TypeArg.replaceAll s as = .ok bs ↔
      (∀ name ∈ TypeArg.appliedAll as, s.contains name = false) ∧ TypeArg.substAll s.value as = bs
  | [], bs => by simp [TypeArg.replaceAll, TypeArg.appliedAll, TypeArg.substAll]
  | a :: as, bs => by
    have iha := @TypeArg.replace_eq_ok_iff s a
    have ihas := @TypeArg.replaceAll_eq_ok_iff s as
    rw [TypeArg.replaceAll, TypeArg.appliedAll, TypeArg.substAll, List.forall_mem_append]
    cases ha : TypeArg.replace s a with
    | error e =>
      have : ¬ ∀ n ∈ a.applied, s.contains n = false := fun h => by
        cases ha.symm.trans (iha.mpr ⟨h, rfl⟩)
      simp [this]
    | ok b =>
      obtain ⟨happlied, rfl⟩ := iha.mp ha
      cases hr : TypeArg.replaceAll s as with
      | error e =>
        have : ¬ ∀ n ∈ TypeArg.appliedAll as, s.contains n = false := fun h => by
          cases hr.symm.trans (ihas.mpr ⟨h, rfl⟩)
        simp [this]
      | ok bs' =>
        obtain ⟨h, rfl⟩ := ihas.mp hr
        exact ⟨fun hb => ⟨⟨happlied, h⟩, Except.ok.inj hb⟩, fun hb => congrArg Except.ok hb.2⟩

end

theorem TypeArg.exists_of_replaceAll_eq_error {s : Substitution} {as : List TypeArg}
    {e : ModelFault} (h : replaceAll s as = .error e) : ∃ a ∈ as, a.replace s = .error e := by
  induction as with
  | nil => cases h
  | cons a as ih =>
    rw [replaceAll] at h
    split at h
    · split at h
      · cases h
      · rename_i he
        cases h
        obtain ⟨b, hb, hfault⟩ := ih he
        exact ⟨b, List.mem_cons_of_mem _ hb, hfault⟩
    · rename_i he
      cases h
      exact ⟨a, List.mem_cons_self, he⟩

theorem TypeArg.exists_of_replace_eq_error {s : Substitution} {a : TypeArg} {e : ModelFault}
    (h : a.replace s = .error e) : ∃ t, a.type? = some t ∧ t.replace s = .error e := by
  have hmap : ∀ {t : TypeExpr} {f : TypeExpr → TypeArg}, (t.replace s).map f = .error e →
      t.replace s = .error e := by
    intro t f ht
    cases hr : t.replace s with
    | ok u => simp [hr, Except.map] at ht
    | error e' => simpa [hr, Except.map] using ht
  cases a with
  | any => cases h
  | upper t => exact ⟨t, rfl, hmap h⟩
  | lower t => exact ⟨t, rfl, hmap h⟩
  | plain t =>
    rw [replace] at h
    split at h
    · cases h
    · exact ⟨t, rfl, hmap h⟩

theorem TypeExpr.fault_of_replace {s : Substitution} {t : TypeExpr} {e : ModelFault}
    (h : t.replace s = .error e) : ∃ name found, e = .arityMismatch name 0 found := by
  induction t using TypeExpr.induction with
  | step name args dims ih =>
    rw [replace] at h
    split at h
    · split at h
      · split at h <;> cases h
      · exact ⟨name, args.length, (Except.error.inj h).symm⟩
    · split at h
      · cases h
      · rename_i he
        cases h
        obtain ⟨a, ha, hfault⟩ := TypeArg.exists_of_replaceAll_eq_error he
        obtain ⟨u, hu, hfault⟩ := TypeArg.exists_of_replace_eq_error hfault
        exact ih a ha u hu hfault

/-! ## Composition -/

section Composition

variable {f g : String → Option TypeArg}

theorem TypeExpr.subst_of_none {t : TypeExpr} (h : f t.name = none) :
    t.subst f = ⟨t.name, t.args.map (TypeArg.subst f), t.dims⟩ := by
  obtain ⟨name, args, dims⟩ := t
  simp only at h
  rw [TypeExpr.subst, h, TypeArg.substAll_eq_map]

theorem TypeExpr.subst_of_some {t : TypeExpr} {arg : TypeArg} (h : f t.name = some arg) :
    t.subst f = arg.toType.arrayOf t.dims := by
  obtain ⟨name, args, dims⟩ := t
  simp only at h
  rw [TypeExpr.subst, h]

theorem TypeExpr.arrayOf_zero (t : TypeExpr) : t.arrayOf 0 = t := by
  cases t
  rfl

theorem TypeExpr.subst_arrayOf (f : String → Option TypeArg) (t : TypeExpr) (n : Nat) :
    (t.arrayOf n).subst f = (t.subst f).arrayOf n := by
  cases h : f t.name with
  | none => rw [subst_of_none h, subst_of_none (t := t.arrayOf n) h]; rfl
  | some arg =>
    rw [subst_of_some h, subst_of_some (t := t.arrayOf n) h]
    simp [arrayOf, Nat.add_assoc]

theorem TypeArg.subst_plain_of_some {t : TypeExpr} {arg : TypeArg} (hbare : t.isBare = true)
    (h : f t.name = some arg) : (TypeArg.plain t).subst f = arg := by
  rw [subst, if_pos hbare, h]
  rfl

/-- An argument that is no bare name or has a name that stays is replaced as a type. -/
theorem TypeArg.subst_plain_of_none {t : TypeExpr} (h : t.isBare = true → f t.name = none) :
    (TypeArg.plain t).subst f = .plain (t.subst f) := by
  rw [subst]
  split
  · rw [h ‹_›]
    rfl
  · rfl

/-- A replaced argument seen as a type is the replaced type, unless the top type is replaced. -/
theorem TypeArg.toType_subst (hf : f TypeExpr.topName = none) (a : TypeArg) :
    (a.subst f).toType = a.toType.subst f := by
  have htop : TypeExpr.top.subst f = TypeExpr.top := TypeExpr.subst_of_none hf
  cases a with
  | any => exact htop.symm
  | lower t => exact htop.symm
  | upper t =>
    rw [subst]
    rfl
  | plain t =>
    by_cases h : t.isBare = true → f t.name = none
    · rw [subst_plain_of_none h]
      rfl
    · push Not at h
      obtain ⟨hbare, hne⟩ := h
      obtain ⟨arg, harg⟩ := Option.ne_none_iff_exists'.mp hne
      have hd : t.dims = 0 := by simp_all [TypeExpr.isBare]
      rw [subst_plain_of_some hbare harg, toType, TypeExpr.subst_of_some harg, hd,
        TypeExpr.arrayOf_zero]

/-- What the second replacement makes of the first. -/
def composed (f g : String → Option TypeArg) (name : String) : Option TypeArg :=
  match f name with
  | some arg => some (arg.subst g)
  | none => g name

theorem composed_of_some {name : String} {arg : TypeArg} (h : f name = some arg) :
    composed f g name = some (arg.subst g) := by
  rw [composed, h]

theorem composed_of_none {name : String} (h : f name = none) : composed f g name = g name := by
  rw [composed, h]

theorem TypeExpr.subst_of_isBare {t : TypeExpr} (hbare : t.isBare = true) (h : f t.name = none) :
    t.subst f = t := by
  obtain ⟨name, args, dims⟩ := t
  simp_all [subst_of_none, isBare]

/-- A type that is not bare stays so: if it has arguments, its name is kept. -/
theorem TypeExpr.not_isBare_subst {t : TypeExpr} (h : t.isBare ≠ true)
    (ht : ∀ name ∈ t.applied, f name = none) : (t.subst f).isBare ≠ true := by
  obtain ⟨name, args, dims⟩ := t
  cases hf : f name with
  | some arg =>
    have hnil : args = [] := by
      by_contra hne
      have := ht name (List.mem_append_left _ (by simp [hne]))
      simp [hf] at this
    rw [subst_of_some hf]
    simp_all [isBare, arrayOf]
  | none =>
    rw [subst_of_none hf]
    simpa [isBare] using h

theorem TypeArg.subst_subst_of {a : TypeArg}
    (ht : ∀ t, a.type? = some t → (t.subst f).subst g = t.subst (composed f g))
    (ha : ∀ name ∈ a.applied, f name = none) : (a.subst f).subst g = a.subst (composed f g) := by
  cases a with
  | any => rfl
  | upper t => simp only [subst, ht t rfl]
  | lower t => simp only [subst, ht t rfl]
  | plain t =>
    have ht := ht t rfl
    by_cases hbare : t.isBare = true
    · cases hf : f t.name with
      | some arg =>
        rw [subst_plain_of_some hbare hf, subst_plain_of_some hbare (composed_of_some hf)]
      | none =>
        have hsame := TypeExpr.subst_of_isBare hbare hf
        rw [subst_plain_of_none fun _ => hf, hsame, subst, subst, ← ht, hsame, composed_of_none hf]
    · have hbare' := TypeExpr.not_isBare_subst hbare ha
      rw [subst_plain_of_none fun h => absurd h hbare, subst_plain_of_none fun h => absurd h hbare',
        subst_plain_of_none fun h => absurd h hbare, ht]

/-- **Two replacements are one**, if the first replaces no applied name and the second not the top
type. -/
theorem TypeExpr.subst_subst (hg : g TypeExpr.topName = none) (t : TypeExpr)
    (ht : ∀ name ∈ t.applied, f name = none) : (t.subst f).subst g = t.subst (composed f g) := by
  induction t using TypeExpr.induction with
  | step name args dims ih =>
    cases hf : f name with
    | some arg =>
      have hfirst : TypeExpr.subst f ⟨name, args, dims⟩ = arg.toType.arrayOf dims := subst_of_some hf
      rw [hfirst, subst_of_some (composed_of_some hf), subst_arrayOf, TypeArg.toType_subst hg]
    | none =>
      have hargs : ∀ a ∈ args, (a.subst f).subst g = a.subst (composed f g) := by
        intro a ha
        have happlied : ∀ n ∈ a.applied, f n = none := fun n hn =>
          ht n (mem_applied_of_mem_args ha hn)
        exact TypeArg.subst_subst_of (fun t hta => ih a ha t hta fun n hn =>
          happlied n (TypeArg.mem_applied_of_type? hta hn)) happlied
      have hmap : (args.map (TypeArg.subst f)).map (TypeArg.subst g) =
          args.map (TypeArg.subst (composed f g)) := by
        rw [List.map_map]
        exact List.map_congr_left hargs
      simp only [subst, hf, composed_of_none hf, TypeArg.substAll_eq_map, hmap]

end Composition

/-! ## Names -/

section Names

variable {f g : String → Option TypeArg}

theorem TypeArg.subst_congr_of {a : TypeArg} (ht : ∀ t, a.type? = some t → t.subst f = t.subst g)
    (h : ∀ name, a.mentions name = true → f name = g name) : a.subst f = a.subst g := by
  cases a with
  | any => rfl
  | upper t => rw [subst, subst, ht t rfl]
  | lower t => rw [subst, subst, ht t rfl]
  | plain t => rw [subst, subst, ht t rfl, h t.name t.mentions_name]

theorem TypeExpr.subst_congr (t : TypeExpr) (h : ∀ name, t.mentions name = true → f name = g name) :
    t.subst f = t.subst g := by
  induction t using TypeExpr.induction with
  | step name args dims ih =>
    have hargs : ∀ a ∈ args, a.subst f = a.subst g := by
      intro a ha
      have ha' : ∀ n, a.mentions n = true → f n = g n := fun n hn => h n (mentions_of_mem_args ha hn)
      exact TypeArg.subst_congr_of (fun t hta => ih a ha t hta fun n hn =>
        ha' n (TypeArg.mentions_of_type? hta hn)) ha'
    rw [subst, subst, h name (mentions_name ⟨name, args, dims⟩), TypeArg.substAll_eq_map,
      TypeArg.substAll_eq_map, List.map_congr_left hargs]

theorem TypeArg.subst_congr (a : TypeArg) (h : ∀ name, a.mentions name = true → f name = g name) :
    a.subst f = a.subst g :=
  subst_congr_of (fun t ht => t.subst_congr fun n hn => h n (mentions_of_type? ht hn)) h

theorem TypeArg.replaceAll_eq_replaceAll_map {s s' : Substitution} {h : TypeArg → TypeArg}
    {as : List TypeArg} (has : ∀ a ∈ as, a.replace s = (h a).replace s') :
    replaceAll s as = replaceAll s' (as.map h) := by
  induction as with
  | nil => rfl
  | cons a as ih =>
    obtain ⟨ha, has⟩ := List.forall_mem_cons.mp has
    rw [List.map_cons, replaceAll, replaceAll, ha, ih has]

theorem TypeArg.replace_congr_of {s s' : Substitution} {a : TypeArg}
    (ht : ∀ t, a.type? = some t → t.replace s = t.replace s')
    (h : ∀ name, a.mentions name = true → s.lookup name = s'.lookup name) :
    a.replace s = a.replace s' := by
  cases a with
  | any => rfl
  | upper t => rw [replace, replace, ht t rfl]
  | lower t => rw [replace, replace, ht t rfl]
  | plain t => rw [replace, replace, ht t rfl, h t.name t.mentions_name]

/-- Only the answers for mentioned names matter, for the result as well as for the fault. -/
theorem TypeExpr.replace_congr {s s' : Substitution} (t : TypeExpr)
    (h : ∀ name, t.mentions name = true → s.lookup name = s'.lookup name) :
    t.replace s = t.replace s' := by
  induction t using TypeExpr.induction with
  | step name args dims ih =>
    have hargs : ∀ a ∈ args, a.replace s = a.replace s' := by
      intro a ha
      have ha' : ∀ n, a.mentions n = true → s.lookup n = s'.lookup n := fun n hn =>
        h n (mentions_of_mem_args ha hn)
      exact TypeArg.replace_congr_of (fun t hta => ih a ha t hta fun n hn =>
        ha' n (TypeArg.mentions_of_type? hta hn)) ha'
    have hall := TypeArg.replaceAll_eq_replaceAll_map (h := id) hargs
    rw [List.map_id] at hall
    rw [replace, replace, h name (mentions_name ⟨name, args, dims⟩), hall]

theorem TypeArg.subst_eq_self_of {a : TypeArg} (ht : ∀ t, a.type? = some t → t.subst f = t)
    (ha : ∀ name, a.mentions name = true → f name = none ∨ f name = some (.plain (.named name))) :
    a.subst f = a := by
  cases a with
  | any => rfl
  | upper t => rw [subst, ht t rfl]
  | lower t => rw [subst, ht t rfl]
  | plain t =>
    by_cases hbare : t.isBare = true → f t.name = none
    · rw [subst_plain_of_none hbare, ht t rfl]
    · push Not at hbare
      have hself := (ha t.name t.mentions_name).resolve_left hbare.2
      rw [subst_plain_of_some hbare.1 hself]
      obtain ⟨name, args, dims⟩ := t
      simp_all [TypeExpr.isBare, TypeExpr.named]

theorem TypeExpr.subst_eq_self {t : TypeExpr}
    (ht : ∀ name, t.mentions name = true → f name = none ∨ f name = some (.plain (.named name)))
    (happlied : ∀ name ∈ t.applied, f name = none) : t.subst f = t := by
  induction t using TypeExpr.induction with
  | step name args dims ih =>
    rcases ht name (mentions_name ⟨name, args, dims⟩) with hname | hname
    · rw [subst_of_none hname]
      refine congrArg (TypeExpr.mk name · dims)
        ((List.map_congr_left fun a ha => ?_).trans (List.map_id args))
      exact TypeArg.subst_eq_self_of (fun t hta => ih a ha t hta
        (fun n hn => ht n (mentions_of_mem_args ha (TypeArg.mentions_of_type? hta hn)))
        fun n hn => happlied n (mem_applied_of_mem_args ha (TypeArg.mem_applied_of_type? hta hn)))
        fun n hn => ht n (mentions_of_mem_args ha hn)
    · have hargs : args = [] := by
        by_contra hne
        have := happlied name (List.mem_append_left _ (by simp [hne]))
        rw [hname] at this
        cases this
      rw [subst_of_some hname, hargs]
      simp [TypeArg.toType, arrayOf, named]

theorem TypeArg.subst_eq_self {a : TypeArg}
    (ha : ∀ name, a.mentions name = true → f name = none ∨ f name = some (.plain (.named name)))
    (happlied : ∀ name ∈ a.applied, f name = none) : a.subst f = a :=
  subst_eq_self_of (fun _ ht => TypeExpr.subst_eq_self (fun n hn => ha n (mentions_of_type? ht hn))
    fun n hn => happlied n (mem_applied_of_type? ht hn)) ha

theorem TypeExpr.mentions_arrayOf (t : TypeExpr) (n : Nat) (name : String) :
    (t.arrayOf n).mentions name = t.mentions name := by
  cases t
  rfl

theorem TypeExpr.applied_arrayOf (t : TypeExpr) (n : Nat) : (t.arrayOf n).applied = t.applied := by
  cases t
  rfl

theorem TypeArg.mentions_of_toType {a : TypeArg} {name : String}
    (h : a.toType.mentions name = true) : a.mentions name = true ∨ name = TypeExpr.topName := by
  cases a with
  | plain t => exact .inl h
  | upper t => exact .inl h
  | any | lower =>
    simp only [toType, TypeExpr.top, TypeExpr.named, TypeExpr.mentions, anyMentions,
      Bool.or_false, beq_iff_eq] at h
    exact .inr h.symm

theorem TypeArg.applied_of_toType {a : TypeArg} {name : String} (h : name ∈ a.toType.applied) :
    name ∈ a.applied := by
  cases a with
  | plain t => exact h
  | upper t => exact h
  | any | lower => simp [toType, TypeExpr.top, TypeExpr.named, TypeExpr.applied, appliedAll] at h

/-- Of the names that `mentions` holds of, one has stayed and is `name`, or it was replaced by an
argument that mentions `name`; or `name` is the top type. -/
def MentionedAfter (f : String → Option TypeArg) (mentions : String → Bool) (name : String) :
    Prop :=
  (mentions name = true ∧ f name = none) ∨
    (∃ x arg, mentions x = true ∧ f x = some arg ∧ arg.mentions name = true) ∨
    name = TypeExpr.topName

/-- One of the applied names has stayed and is `name`, or one that `mentions` holds of was replaced
by an argument in which `name` is applied. -/
def AppliedAfter (f : String → Option TypeArg) (mentions : String → Bool) (applied : List String)
    (name : String) : Prop :=
  (name ∈ applied ∧ f name = none) ∨
    ∃ x arg, mentions x = true ∧ f x = some arg ∧ name ∈ arg.applied

section After

variable {mentions mentions' : String → Bool} {applied applied' : List String} {name : String}

theorem MentionedAfter.mono (h : MentionedAfter f mentions name)
    (hsub : ∀ n, mentions n = true → mentions' n = true) : MentionedAfter f mentions' name := by
  rcases h with ⟨hm, hn⟩ | ⟨x, arg, hx, harg⟩ | htop
  · exact .inl ⟨hsub name hm, hn⟩
  · exact .inr (.inl ⟨x, arg, hsub x hx, harg⟩)
  · exact .inr (.inr htop)

theorem AppliedAfter.mono (h : AppliedAfter f mentions applied name)
    (hsub : ∀ n, mentions n = true → mentions' n = true) (happlied : applied ⊆ applied') :
    AppliedAfter f mentions' applied' name := by
  rcases h with ⟨hm, hn⟩ | ⟨x, arg, hx, harg⟩
  · exact .inl ⟨happlied hm, hn⟩
  · exact .inr ⟨x, arg, hsub x hx, harg⟩

end After

theorem TypeArg.mentions_subst_of {a : TypeArg} {name : String}
    (ht : ∀ t, a.type? = some t → (t.subst f).mentions name = true →
      MentionedAfter f (fun n => t.mentions n) name)
    (h : (a.subst f).mentions name = true) : MentionedAfter f (fun n => a.mentions n) name := by
  cases a with
  | any => simp [subst, mentions] at h
  | upper t => exact ht t rfl h
  | lower t => exact ht t rfl h
  | plain t =>
    by_cases hbare : t.isBare = true → f t.name = none
    · rw [subst_plain_of_none hbare] at h
      exact ht t rfl h
    · push Not at hbare
      obtain ⟨arg, harg⟩ := Option.ne_none_iff_exists'.mp hbare.2
      rw [subst_plain_of_some hbare.1 harg] at h
      exact .inr (.inl ⟨t.name, arg, t.mentions_name, harg, h⟩)

/-- A name in a replaced type has stayed, has come with an argument, or is the top type. -/
theorem TypeExpr.mentions_subst {name : String} (t : TypeExpr)
    (h : (t.subst f).mentions name = true) : MentionedAfter f (fun n => t.mentions n) name := by
  induction t using TypeExpr.induction with
  | step n args dims ih =>
    cases hf : f n with
    | some arg =>
      rw [subst_of_some hf, mentions_arrayOf] at h
      rcases TypeArg.mentions_of_toType h with h | h
      · exact .inr (.inl ⟨n, arg, mentions_name ⟨n, args, dims⟩, hf, h⟩)
      · exact .inr (.inr h)
    | none =>
      rw [subst_of_none hf, mentions, TypeArg.anyMentions_eq_any, Bool.or_eq_true, beq_iff_eq,
        List.any_map, List.any_eq_true] at h
      rcases h with rfl | ⟨a, ha, h⟩
      · exact .inl ⟨mentions_name ⟨n, args, dims⟩, hf⟩
      · exact (TypeArg.mentions_subst_of (ih a ha) h).mono fun _ => mentions_of_mem_args ha

theorem TypeArg.mentions_subst {name : String} (a : TypeArg)
    (h : (a.subst f).mentions name = true) : MentionedAfter f (fun n => a.mentions n) name :=
  mentions_subst_of (fun t _ => t.mentions_subst) h

theorem TypeArg.applied_subst_of {a : TypeArg} {name : String}
    (ht : ∀ t, a.type? = some t → name ∈ (t.subst f).applied →
      AppliedAfter f (fun n => t.mentions n) t.applied name)
    (h : name ∈ (a.subst f).applied) : AppliedAfter f (fun n => a.mentions n) a.applied name := by
  cases a with
  | any => simp [subst, applied] at h
  | upper t => exact ht t rfl h
  | lower t => exact ht t rfl h
  | plain t =>
    by_cases hbare : t.isBare = true → f t.name = none
    · rw [subst_plain_of_none hbare] at h
      exact ht t rfl h
    · push Not at hbare
      obtain ⟨arg, harg⟩ := Option.ne_none_iff_exists'.mp hbare.2
      rw [subst_plain_of_some hbare.1 harg] at h
      exact .inr ⟨t.name, arg, t.mentions_name, harg, h⟩

/-- A name that is applied in a replaced type was so before, or has come with an argument. -/
theorem TypeExpr.applied_subst {name : String} (t : TypeExpr) (h : name ∈ (t.subst f).applied) :
    AppliedAfter f (fun n => t.mentions n) t.applied name := by
  induction t using TypeExpr.induction with
  | step n args dims ih =>
    cases hf : f n with
    | some arg =>
      rw [subst_of_some hf, applied_arrayOf] at h
      exact .inr ⟨n, arg, mentions_name ⟨n, args, dims⟩, hf, TypeArg.applied_of_toType h⟩
    | none =>
      rw [subst_of_none hf, applied, List.mem_append, TypeArg.mem_appliedAll] at h
      rcases h with h | ⟨b, hb, h⟩
      · cases args with
        | nil => cases h
        | cons a as =>
          obtain rfl : name = n := by simpa using h
          exact .inl ⟨List.mem_append_left _ (by simp), hf⟩
      · obtain ⟨a, ha, rfl⟩ := List.mem_map.mp hb
        exact (TypeArg.applied_subst_of (ih a ha) h).mono (fun _ => mentions_of_mem_args ha)
          fun _ => mem_applied_of_mem_args ha

theorem TypeArg.applied_subst {name : String} (a : TypeArg) (h : name ∈ (a.subst f).applied) :
    AppliedAfter f (fun n => a.mentions n) a.applied name :=
  applied_subst_of (fun t _ => t.applied_subst) h

end Names

/-! ## Bound parameters -/

/-- The argument at the position of a name. -/
def bound (names : List String) (args : List TypeArg) (name : String) : Option TypeArg :=
  (names.zip args).reverse.lookup name

section Bound

variable {names : List String} {args : List TypeArg} {name : String}

theorem mem_zip_of_bound {arg : TypeArg} (h : bound names args name = some arg) :
    (name, arg) ∈ names.zip args := by
  obtain ⟨before, after, he, _⟩ := List.lookup_eq_some_iff.mp h
  rw [← List.mem_reverse, he]
  simp

theorem mem_of_bound {arg : TypeArg} (h : bound names args name = some arg) :
    name ∈ names ∧ arg ∈ args :=
  List.of_mem_zip (mem_zip_of_bound h)

theorem bound_eq_none_of_not_mem (h : name ∉ names) : bound names args name = none := by
  cases hb : bound names args name with
  | none => rfl
  | some arg => exact absurd (mem_of_bound hb).1 h

theorem exists_bound (hlen : args.length = names.length) (h : name ∈ names) :
    ∃ arg, bound names args name = some arg := by
  rw [← Option.isSome_iff_exists, bound, List.lookup_isSome_iff]
  obtain ⟨i, hi, rfl⟩ := List.getElem_of_mem h
  refine ⟨(names[i], args[i]), ?_, by simp⟩
  rw [List.mem_reverse, List.mem_iff_getElem]
  exact ⟨i, by simp [hlen, hi], by simp⟩

theorem bound_map_self {f : String → TypeArg} (h : name ∈ names) :
    bound names (names.map f) name = some (f name) := by
  have hlen : (names.map f).length = names.length := List.length_map _
  obtain ⟨arg, harg⟩ := exists_bound hlen h
  have hmem := mem_zip_of_bound harg
  rw [← List.map_prod_left_eq_zip, List.mem_map] at hmem
  obtain ⟨_, _, he⟩ := hmem
  obtain ⟨rfl, rfl⟩ := Prod.mk.inj he
  exact harg

theorem bound_map (f : TypeArg → TypeArg) :
    bound names (args.map f) name = (bound names args name).map f := by
  have key : ∀ es : List (String × TypeArg),
      (es.map (Prod.map id f)).lookup name = (es.lookup name).map f := by
    intro es
    induction es with
    | nil => rfl
    | cons e es ih =>
      rw [List.map_cons, List.lookup_cons, List.lookup_cons, ih]
      dsimp only [Prod.map, id]
      split <;> rfl
  rw [bound, bound, List.zip_map_right, ← List.map_reverse, key]

theorem Substitution.get?_of_bind {ps : TypeParams} {owner : String} {s : Substitution}
    (h : ps.bind owner args = .ok s) (name : String) :
    s.get? name = if name ∈ ps.names then some (bound ps.names args name) else none := by
  by_cases hn : name ∈ ps.names
  · rw [if_pos hn]
    have hu : (unresolved ps.names).get? name = some none := by rw [get?_unresolved, if_pos hn]
    have key : ∀ (es : List (String × TypeArg)) (s : Substitution) (v : Option TypeArg),
        s.get? name = some v → (es.foldl (fun s e => s.set e.1 e.2) s).get? name =
          some ((es.reverse.lookup name).or v) := by
      intro es
      induction es with
      | nil => exact fun _ _ hv => hv
      | cons e es ih =>
        intro s v hv
        rw [List.foldl_cons]
        by_cases he : name = e.1
        · rw [ih _ (some e.2) (by rw [get?_set, if_pos he]), List.reverse_cons, List.lookup_append,
            List.lookup_cons, beq_iff_eq.mpr he]
          cases es.reverse.lookup name <;> rfl
        · have hne : (name == e.1) = false := by simpa using he
          rw [ih _ v (by rw [get?_set, if_neg he, hv]), List.reverse_cons, List.lookup_append,
            List.lookup_cons, hne, List.lookup_nil, Option.or_none]
    unfold TypeParams.bind at h
    split at h
    · rename_i hargs
      obtain rfl := List.isEmpty_iff.mp hargs
      rw [← Except.ok.inj h, hu, bound, List.zip_nil_right]
      rfl
    split at h
    · cases h
    · rw [← Except.ok.inj h, key _ _ none hu, Option.or_none]
      rfl
  · rw [if_neg hn, get?_bind h hn]

theorem Substitution.contains_of_bind {ps : TypeParams} {owner : String} {s : Substitution}
    (h : ps.bind owner args = .ok s) (name : String) :
    s.contains name = decide (name ∈ ps.names) := by
  rw [contains, get?_of_bind h]
  split <;> simp [*]

theorem Substitution.lookup_of_uncaptured {s : Substitution}
    (h : ∀ name, isCapture name = true → s.get? name = none) (name : String) :
    s.lookup name = s.get? name := by
  have hfollow : s.follow = id := by
    funext arg
    cases arg with
    | plain t =>
      rw [follow]
      split
      · rename_i hc
        rw [h t.name (Bool.and_eq_true_iff.mp hc).1]
        rfl
      · rfl
    | any | upper | lower => rfl
  rw [lookup, hfollow]
  cases s.get? name <;> simp

theorem Substitution.value_of_bind {ps : TypeParams} {owner : String} {s : Substitution}
    (h : ps.bind owner args = .ok s) (hc : ∀ name ∈ ps.names, isCapture name = false) :
    s.value = bound ps.names args := by
  have hcaptures : ∀ name, isCapture name = true → s.get? name = none := by
    intro name hn
    rw [get?_of_bind h, if_neg fun hm => by simp [hc name hm] at hn]
  funext name
  rw [value, lookup_of_uncaptured hcaptures, get?_of_bind h]
  split
  · rfl
  · rename_i hn
    rw [bound_eq_none_of_not_mem hn]
    rfl

theorem TypeParams.exists_bind {ps : TypeParams} (owner : String)
    (hlen : args.length = ps.length) : ∃ s, ps.bind owner args = .ok s := by
  unfold bind
  split
  · exact ⟨_, rfl⟩
  · exact ⟨_, if_neg (by simpa using hlen)⟩

theorem TypeParams.length_of_bind {ps : TypeParams} {owner : String} {s : Substitution}
    (h : ps.bind owner args = .ok s) (hraw : ps ≠ [] → args ≠ []) : args.length = ps.length := by
  unfold bind at h
  split at h
  · rename_i hargs
    obtain rfl := List.isEmpty_iff.mp hargs
    cases ps with
    | nil => rfl
    | cons p ps => exact absurd rfl (hraw (by simp))
  split at h
  · cases h
  · rename_i hlen
    simpa using hlen

/-- To bind parameters and then replace is to bind them to replaced arguments. -/
theorem TypeExpr.subst_bound_subst {t : TypeExpr} {g : String → Option TypeArg}
    (hg : g TypeExpr.topName = none) (happlied : ∀ name ∈ t.applied, name ∉ names)
    (hlen : args.length = names.length)
    (hframe : ∀ name, t.mentions name = true → name ∉ names → g name = none) :
    (t.subst (bound names args)).subst g = t.subst (bound names (args.map (TypeArg.subst g))) := by
  rw [TypeExpr.subst_subst hg t fun name hn => bound_eq_none_of_not_mem (happlied name hn)]
  refine TypeExpr.subst_congr t fun name hn => ?_
  rw [bound_map]
  by_cases hm : name ∈ names
  · obtain ⟨arg, harg⟩ := exists_bound hlen hm
    rw [composed_of_some harg, harg]
    rfl
  · have hnone : bound names args name = none := bound_eq_none_of_not_mem hm
    rw [composed_of_none hnone, hnone, hframe name hn hm]
    rfl

end Bound

end FluentGrammar
