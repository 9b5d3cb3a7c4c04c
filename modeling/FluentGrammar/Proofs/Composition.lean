import FluentGrammar.Proofs.Replacement

/-!
# Composition of substitutions

To replace by one substitution and then by another is to replace once, by the substitution that
binds a name to what the second makes of its argument under the first. A wildcard that a name is
bound to is kept where the name is a whole argument, and is seen as a type elsewhere; both commute
with the second replacement, as long as that leaves the top type alone. Faults come only from names
that are applied to arguments, and the first replacement keeps these in their places.

* `Substitution.Composes`: what the composite does with each name.
* `Substitution.andThen`: a composite.
* **`replace_composes`**: replacing by a composite, faults included.
-/

namespace FluentGrammar

namespace Substitution

variable {s u r : Substitution} {name : String} {arg arg' : TypeArg}

/-- `r` replaces by `s` and then by `u`. A name bound in `s` is bound to what `u` makes of its
argument. Any other name is treated as by `u`, but stays unresolved if it is unresolved in `s` and
has no entry in `u`. -/
structure Composes (s u r : Substitution) : Prop where
  bound : ∀ {name arg arg'}, s.get? name = some (some arg) → arg.replace u = .ok arg' →
    r.get? name = some (some arg')
  other : ∀ {name}, s.isBound name = false → r.get? name = (u.get? name).or (s.get? name)

/-- No name belongs to a captured wildcard, `u` does not replace the top type, and it can replace
whatever `s` binds a name to. -/
structure Composable (s u : Substitution) : Prop where
  first : ∀ name, isCapture name = true → s.get? name = none
  second : ∀ name, isCapture name = true → u.get? name = none
  top : u.get? TypeExpr.topName = none
  bindings : ∀ name arg, s.get? name = some (some arg) → ∃ arg', arg.replace u = .ok arg'

theorem composable_of_entries (hs : ∀ e ∈ s.entries, isCapture e.1 = false)
    (hu : ∀ e ∈ u.entries, isCapture e.1 = false ∧ e.1 ≠ TypeExpr.topName)
    (hbindings : ∀ e ∈ s.entries, ∀ arg ∈ e.2, (arg.replace u).toOption.isSome = true) :
    s.Composable u := by
  have hnone : ∀ {v : Substitution} {name : String}, (∀ e ∈ v.entries, e.1 ≠ name) →
      v.get? name = none := by
    intro v name hv
    rw [get?, List.lookup_eq_none_iff]
    exact fun e he => by simpa using (hv e he).symm
  refine ⟨fun name hname => hnone fun e he hne => ?_, fun name hname => hnone fun e he hne => ?_,
    hnone fun e he => (hu e he).2, fun name arg hget => ?_⟩
  · simp [← hne, hs e he] at hname
  · simp [← hne, (hu e he).1] at hname
  · obtain ⟨before, after, hentries, _⟩ := List.lookup_eq_some_iff.mp hget
    have hsome := hbindings (name, some arg) (by rw [hentries]; simp) arg rfl
    cases harg : arg.replace u with
    | ok arg' => exact ⟨arg', rfl⟩
    | error e =>
      rw [harg] at hsome
      cases hsome

/-- What a name of `s` becomes by `s` and then by `u`. -/
def entryAfter (s u : Substitution) (name : String) : Option TypeArg :=
  match s.get? name with
  | some (some arg) => (arg.replace u).toOption
  | _ => (u.get? name).join

/-- The entries of `u`, and over them those of the names of `s`. -/
def andThen (s u : Substitution) : Substitution :=
  (s.entries.map Prod.fst).foldl (fun r name => r.insert name (s.entryAfter u name)) u

theorem composes_andThen (s u : Substitution) : s.Composes u (s.andThen u) := by
  have hget : ∀ name, (s.andThen u).get? name =
      if s.contains name = true then some (s.entryAfter u name) else u.get? name := by
    intro name
    rw [andThen, get?_foldl_insert]
    simp only [mem_names_iff]
  refine ⟨fun hs harg => ?_, fun {name} hs => ?_⟩
  · rw [hget, if_pos (contains_of_get? hs), entryAfter, hs]
    simp only [harg]
    rfl
  · rw [hget]
    cases hname : s.get? name with
    | none => simp [contains, hname]
    | some entry =>
      obtain rfl : entry = none := by
        cases entry with
        | none => rfl
        | some arg => simp [isBound, hname] at hs
      rw [if_pos (contains_of_get? hname), entryAfter, hname]
      cases u.get? name <;> rfl

/-- A composite looks a name up as the argument that `u` makes of a binding of `s`, or as `u` and
then `s` do if there is no such binding. -/
theorem Composes.lookup_cases (h : s.Composable u) (hr : s.Composes u r) (name : String) :
    (∃ arg arg', s.lookup name = some (some arg) ∧ arg.replace u = .ok arg' ∧
      r.lookup name = some (some arg')) ∨
    s.value name = none ∧ r.lookup name = (u.lookup name).or (s.lookup name) := by
  have hcapture : ∀ name, isCapture name = true → r.get? name = none := by
    intro name hname
    have hs := h.first name hname
    rw [hr.other (by simp [isBound, hs]), h.second name hname, hs]
    rfl
  rw [value, lookup_of_uncaptured h.first, lookup_of_uncaptured h.second,
    lookup_of_uncaptured hcapture]
  cases hs : s.isBound name with
  | true =>
    obtain ⟨arg, harg⟩ := isBound_iff.mp hs
    obtain ⟨arg', harg'⟩ := h.bindings name arg harg
    exact .inl ⟨arg, arg', harg, harg', hr.bound harg harg'⟩
  | false =>
    refine .inr ⟨?_, hr.other hs⟩
    rw [isBound] at hs
    cases hget : s.get? name with
    | none => rfl
    | some entry => simpa [hget] using hs

end Substitution

section Replacement

variable {s u r : Substitution}

theorem TypeArg.replace_toType {arg arg' : TypeArg} (htop : u.get? TypeExpr.topName = none)
    (h : arg.replace u = .ok arg') (dims : Nat) :
    (arg.toType.arrayOf dims).replace u = .ok (arg'.toType.arrayOf dims) := by
  obtain ⟨happlied, rfl⟩ := arg.replace_eq_ok_iff.mp h
  have hvalue : u.value TypeExpr.topName = none := by
    rw [Substitution.value, Substitution.lookup_eq_none htop]
    rfl
  refine (TypeExpr.replace_eq_ok_iff _).mpr ⟨fun name hn => ?_, ?_⟩
  · rw [TypeExpr.applied_arrayOf] at hn
    exact happlied name (TypeArg.applied_of_toType hn)
  · rw [TypeExpr.subst_arrayOf, TypeArg.toType_subst hvalue]

/-- A type that is not a bare name is replaced as a type also where it is an argument. -/
theorem TypeArg.replace_plain_of_not_isBare {t : TypeExpr} (h : t.isBare ≠ true) :
    (TypeArg.plain t).replace s = (t.replace s).map .plain := by
  rw [replace, if_neg h]

theorem TypeArg.replace_composes_of {a : TypeArg} (h : s.Composable u) (hr : s.Composes u r)
    (ht : ∀ t, a.type? = some t → t.replace r = (t.subst s.value).replace u)
    (ha : ∀ name ∈ a.applied, s.value name = none) :
    a.replace r = (a.subst s.value).replace u := by
  cases a with
  | any => rfl
  | upper t => rw [replace, subst, replace, ht t rfl]
  | lower t => rw [replace, subst, replace, ht t rfl]
  | plain t =>
    have ht := ht t rfl
    by_cases hbare : t.isBare = true
    · rcases hr.lookup_cases h t.name with ⟨arg, arg', hs, harg, hlookup⟩ | ⟨hs, hlookup⟩
      · -- The argument is bound as a whole, wildcards included.
        have hvalue : s.value t.name = some arg := by rw [Substitution.value, hs]; rfl
        rw [subst_plain_of_some hbare hvalue, harg, replace, if_pos hbare, hlookup]
      · have hsame := TypeExpr.subst_of_isBare hbare hs
        rw [hsame] at ht
        rw [subst_plain_of_none fun _ => hs, hsame, replace, replace, ht, if_pos hbare,
          if_pos hbare, hlookup]
        cases hu : u.lookup t.name with
        | some entry => rfl
        | none =>
          rw [Option.none_or]
          cases hlook : s.lookup t.name with
          | none => rfl
          | some entry =>
            rw [Substitution.value, hlook] at hs
            obtain rfl : entry = none := hs
            rfl
    · rw [subst_plain_of_none fun hb => absurd hb hbare, replace_plain_of_not_isBare hbare,
        replace_plain_of_not_isBare (TypeExpr.not_isBare_subst hbare ha), ht]

/-- What can be replaced by `s` is replaced by a composite as its result is by `u`. -/
theorem TypeExpr.replace_composes_subst (h : s.Composable u) (hr : s.Composes u r) (t : TypeExpr)
    (ht : ∀ name ∈ t.applied, s.contains name = false) :
    t.replace r = (t.subst s.value).replace u := by
  induction t using TypeExpr.induction with
  | step name args dims ih =>
    have hargs : ∀ a ∈ args, a.replace r = (a.subst s.value).replace u := by
      intro a ha
      have happlied : ∀ n ∈ a.applied, s.contains n = false := fun n hn =>
        ht n (mem_applied_of_mem_args ha hn)
      refine TypeArg.replace_composes_of h hr (fun t hta => ih a ha t hta fun n hn =>
        happlied n (TypeArg.mem_applied_of_type? hta hn)) fun n hn => ?_
      rw [Substitution.value, Substitution.lookup_eq_none_iff.mpr (happlied n hn)]
      rfl
    have hnil : s.contains name = true → args = [] := by
      intro hname
      by_contra hne
      have hfalse := ht name (List.mem_append_left _ (by simp [hne]))
      rw [hname] at hfalse
      cases hfalse
    rcases hr.lookup_cases h name with ⟨arg, arg', hs, harg, hlookup⟩ | ⟨hs, hlookup⟩
    · have hvalue : s.value name = some arg := by rw [Substitution.value, hs]; rfl
      obtain rfl := hnil (by
        rw [← Bool.not_eq_false, ← Substitution.lookup_eq_none_iff, hs]
        simp)
      rw [subst_of_some hvalue, TypeArg.replace_toType h.top harg, replace, hlookup]
      rfl
    · rw [subst_of_none hs, replace, replace, hlookup]
      cases hu : u.lookup name with
      | some entry =>
        -- The name is replaced by `u`, which takes no arguments in either type.
        cases args with
        | nil => rfl
        | cons a as => simp
      | none =>
        rw [Option.none_or, ← TypeArg.replaceAll_eq_replaceAll_map hargs]
        cases hlook : s.lookup name with
        | none => rfl
        | some entry =>
          rw [Substitution.value, hlook] at hs
          obtain rfl : entry = none := hs
          obtain rfl := hnil (by
            rw [← Bool.not_eq_false, ← Substitution.lookup_eq_none_iff, hlook]
            simp)
          rfl

end Replacement

end FluentGrammar
