import Mathlib.Control.Monad.Basic
import Mathlib.Tactic.ByContra
import Mathlib.Tactic.SplitIfs
import FluentGrammar.Proofs.Substitution
import FluentGrammar.Unification

/-!
# Soundness of unification

The bindings that unification finds turn the formal type into the actual one. A run only ever
*extends* the bindings it starts from: what is bound stays bound to the same argument, and the only
names that join are those of captured wildcards. So a formal type may be replaced under the final
bindings, although it was compared under earlier ones.

* `Inference.Reaches`: what a run of unification does to the bindings, whatever it compares.
* `unify_reaches`: every run does that, with the names of the formal type as those it resolves.
* `replace_of_unify`: under all later bindings the formal type becomes the actual one.
* **`infer_sound`**: inferred bindings reproduce the actual type, and resolve exactly the
  parameters that occur in the formal type.
-/

namespace FluentGrammar

/-! ## Written types -/

/-- A type without names of captured wildcards, as every type that is read. -/
def TypeExpr.Written (t : TypeExpr) : Prop :=
  ∀ name, t.mentions name = true → isCapture name = false

instance (t : TypeExpr) : Decidable t.Written :=
  decidable_of_iff (∀ name ∈ t.allNames, isCapture name = false)
    (forall_congr' fun name => by rw [TypeExpr.mem_allNames])

/-- An argument without names of captured wildcards. -/
def TypeArg.Written (a : TypeArg) : Prop :=
  ∀ name, a.mentions name = true → isCapture name = false

theorem TypeExpr.mentions_name (t : TypeExpr) : t.mentions t.name = true := by
  cases t
  simp [TypeExpr.mentions]

theorem TypeExpr.mentions_of_mem_args {t : TypeExpr} {a : TypeArg} (ha : a ∈ t.args) {name : String}
    (hn : a.mentions name = true) : t.mentions name = true := by
  obtain ⟨_, args, _⟩ := t
  rw [TypeExpr.mentions, TypeArg.anyMentions_eq_any, Bool.or_eq_true, List.any_eq_true]
  exact .inr ⟨a, ha, hn⟩

theorem TypeExpr.Written.name {t : TypeExpr} (h : t.Written) : isCapture t.name = false :=
  h t.name t.mentions_name

theorem TypeExpr.Written.args {t : TypeExpr} (h : t.Written) : ∀ a ∈ t.args, a.Written :=
  fun _ ha name hn => h name (TypeExpr.mentions_of_mem_args ha hn)

/-! ## Names of captured wildcards -/

theorem isCapture_captureMark_append (s : String) : isCapture (captureMark ++ s) = true := by
  rw [isCapture, List.isPrefixOf_iff_prefix, String.toList_append]
  exact List.prefix_append _ _

theorem Inference.isCapture_nextCapture (i : Inference) : isCapture i.nextCapture = true :=
  isCapture_captureMark_append _

theorem append_toString_injective {base : String} {m n : Nat}
    (h : base ++ toString m = base ++ toString n) : m = n := by
  have hdigits := (String.append_right_inj base).mp h
  rw [Nat.toString_eq_ofList_toDigits, Nat.toString_eq_ofList_toDigits, String.ofList_inj] at hdigits
  rw [← Nat.ofDigitChars_ten_toDigits (n := m), hdigits, Nat.ofDigitChars_ten_toDigits]

/-! ## Bindings -/

namespace Substitution

/-- Everything bound in `s` is bound to the same argument in `t`, and `t` has no other names but
those of captured wildcards. -/
structure Extends (s t : Substitution) : Prop where
  bound : ∀ {name arg}, s.get? name = some (some arg) → t.get? name = some (some arg)
  names : ∀ {name}, isCapture name = false → t.contains name = s.contains name

theorem Extends.refl (s : Substitution) : s.Extends s :=
  ⟨id, fun _ => rfl⟩

theorem Extends.trans {s t u : Substitution} (h₁ : s.Extends t) (h₂ : t.Extends u) :
    s.Extends u :=
  ⟨fun h => h₂.bound (h₁.bound h), fun h => (h₂.names h).trans (h₁.names h)⟩

/-- A new entry extends the bindings if it belongs to a captured wildcard or to a name that has
been unresolved. -/
theorem extends_set {s : Substitution} {name : String} {arg : TypeArg}
    (hu : ∀ old, s.get? name ≠ some (some old)) (hn : isCapture name = false → s.contains name) :
    s.Extends (s.set name arg) := by
  refine ⟨fun {other old} h => ?_, fun {other} ho => ?_⟩
  · have hne : other ≠ name := fun he => hu old (he ▸ h)
    rw [get?_set, if_neg hne, h]
  · by_cases he : other = name
    · subst he
      rw [contains_of_get? (get?_set .. |>.trans (if_pos rfl)), hn ho]
    · rw [contains, get?_set, if_neg he, contains]

theorem lookup_of_written {s : Substitution} {name : String} {t : TypeExpr}
    (h : s.get? name = some (some (.plain t))) (ht : isCapture t.name = false) :
    s.lookup name = some (some (.plain t)) := by
  simp [lookup, h, follow, ht]

theorem lookup_of_capture {s : Substitution} {name capture : String} {wildcard : TypeArg}
    (h : s.get? name = some (some (.plain (.named capture)))) (hc : isCapture capture = true)
    (hw : s.get? capture = some (some wildcard)) : s.lookup name = some (some wildcard) := by
  simp [lookup, h, follow, TypeExpr.named, hc, hw, TypeExpr.isBare]

end Substitution

/-! ## What a run does -/

namespace Inference

/-- The wildcards to be captured next have names that are not bound. -/
def Fresh (i : Inference) : Prop :=
  ∀ n, i.captures < n → ∀ arg, i.bindings.get? (captureMark ++ toString n) ≠ some (some arg)

/-- A run that compares a formal type with the names `mentioned` leads from `i` to `j`: it extends
the bindings, leaves other names alone and resolves the mentioned ones. -/
structure Reaches (mentioned : String → Bool) (i j : Inference) : Prop where
  fresh : j.Fresh
  extension : i.bindings.Extends j.bindings
  frame : ∀ {name}, isCapture name = false → mentioned name = false →
    j.bindings.get? name = i.bindings.get? name
  resolved : ∀ {name}, isCapture name = false → mentioned name = true →
    i.bindings.contains name = true → j.bindings.isBound name = true

theorem Reaches.refl {i : Inference} (h : i.Fresh) : i.Reaches (fun _ => false) i :=
  ⟨h, .refl _, fun _ _ => rfl, fun _ h => by simp at h⟩

theorem Reaches.trans {f g : String → Bool} {i j k : Inference} (h₁ : i.Reaches f j)
    (h₂ : j.Reaches g k) : i.Reaches (fun name => f name || g name) k := by
  refine ⟨h₂.fresh, h₁.extension.trans h₂.extension, fun hc hn => ?_, fun {name} hc hn hi => ?_⟩
  · obtain ⟨hf, hg⟩ := Bool.or_eq_false_iff.mp hn
    exact (h₂.frame hc hg).trans (h₁.frame hc hf)
  · rcases (Bool.or_eq_true _ _).mp hn with hf | hg
    · obtain ⟨arg, ha⟩ := Substitution.isBound_iff.mp (h₁.resolved hc hf hi)
      exact Substitution.isBound_iff.mpr ⟨arg, h₂.extension.bound ha⟩
    · exact h₂.resolved hc hg ((h₁.extension.names hc).trans hi)

theorem Fresh.start (names : List String) : Fresh ⟨.unresolved names, 0⟩ := by
  intro n _ arg h
  rw [Substitution.get?_unresolved] at h
  split at h <;> simp at h

theorem Fresh.capture {i : Inference} (h : i.Fresh) (wildcard : TypeArg) :
    i.Reaches (fun _ => false) (i.capture wildcard) := by
  have hn : ∀ old, i.bindings.get? i.nextCapture ≠ some (some old) := h _ (Nat.lt_succ_self _)
  have hc := i.isCapture_nextCapture
  refine ⟨fun n hlt arg he => ?_, Substitution.extends_set hn (by simp [hc]), fun {name} hw _ => ?_,
    fun _ hm => by simp at hm⟩
  · have hne : captureMark ++ toString n ≠ i.nextCapture := fun heq => by
      have := append_toString_injective heq
      simp only [Inference.capture] at hlt
      omega
    rw [Inference.capture, Substitution.get?_set, if_neg hne] at he
    exact h n (Nat.lt_of_succ_lt hlt) arg he
  · have hne : name ≠ i.nextCapture := fun heq => by simp [heq, hc] at hw
    rw [Inference.capture, Substitution.get?_set, if_neg hne]

/-- A parameter that meets a type has been bound to it before, and nothing changes, or it has been
unresolved and is bound to it. -/
theorem meet_cases {i j : Inference} {f a : TypeExpr} {entry : Option TypeArg}
    (h : i.meet f a entry = .ok j) :
    f.args = [] ∧ f.dims ≤ a.dims ∧
      (entry = some (.plain { a with dims := a.dims - f.dims }) ∧ j = i ∨
        entry = none ∧ j = { i with
          bindings := i.bindings.set f.name (.plain { a with dims := a.dims - f.dims }) }) := by
  unfold Inference.meet at h
  split at h
  · cases h
  rename_i hargs
  split at h
  · cases h
  rename_i hdims
  refine ⟨by simpa using hargs, by omega, ?_⟩
  cases entry with
  | none => exact .inr ⟨rfl, (Except.ok.inj h).symm⟩
  | some bound =>
    simp only at h
    split at h
    · rename_i hb
      exact .inl ⟨congrArg some hb, (Except.ok.inj h).symm⟩
    · cases h

theorem get?_of_meet {i j : Inference} {f a : TypeExpr} {entry : Option TypeArg}
    (hi : i.bindings.get? f.name = some entry) (h : i.meet f a entry = .ok j) :
    f.args = [] ∧ f.dims ≤ a.dims ∧ ∀ name, j.bindings.get? name =
      if name = f.name then some (some (.plain { a with dims := a.dims - f.dims }))
      else i.bindings.get? name := by
  obtain ⟨hargs, hdims, hstep⟩ := meet_cases h
  refine ⟨hargs, hdims, fun name => ?_⟩
  rcases hstep with ⟨rfl, rfl⟩ | ⟨rfl, rfl⟩
  · split
    · rename_i hname
      rw [hname, hi]
    · rfl
  · rw [Substitution.get?_set]

theorem Fresh.meet {i j : Inference} {f a : TypeExpr} {entry : Option TypeArg} (hi : i.Fresh)
    (hf : isCapture f.name = false) (he : i.bindings.get? f.name = some entry)
    (h : i.meet f a entry = .ok j) : i.Reaches (fun name => f.mentions name) j := by
  obtain ⟨hargs, _, hj⟩ := get?_of_meet he h
  have hmentions : ∀ name, f.mentions name = (f.name == name) := by
    obtain ⟨n, args, dims⟩ := f
    intro name
    simp_all [TypeExpr.mentions, TypeArg.anyMentions]
  have hbound : ∀ {name}, isCapture name = false → f.mentions name = true →
      i.bindings.contains name = true → j.bindings.isBound name = true := by
    intro name _ hm _
    rw [hmentions, beq_iff_eq] at hm
    exact hm ▸ Substitution.isBound_iff.mpr ⟨_, (hj _).trans (if_pos rfl)⟩
  obtain ⟨_, _, ⟨_, rfl⟩ | ⟨rfl, rfl⟩⟩ := meet_cases h
  · exact ⟨hi, .refl _, fun _ _ => rfl, hbound⟩
  · refine ⟨fun n hlt old ho => ?_, ?_, fun {name} _ hm => ?_, hbound⟩
    · have hne : captureMark ++ toString n ≠ f.name := fun heq => by
        rw [← heq, isCapture_captureMark_append] at hf
        cases hf
      rw [Substitution.get?_set, if_neg hne] at ho
      exact hi n hlt old ho
    · exact Substitution.extends_set (by simp [he]) fun _ => Substitution.contains_of_get? he
    · rw [hmentions, beq_eq_false_iff_ne] at hm
      rw [Substitution.get?_set, if_neg hm.symm]

end Inference

theorem unify_of_get?_eq_some {f a : TypeExpr} {i : Inference} {entry : Option TypeArg}
    (hn : i.bindings.get? f.name = some entry) : unify f a i = i.meet f a entry := by
  obtain ⟨name, args, dims⟩ := f
  rw [unify, hn]

/-- A name without an entry has to be met by the same name, with as many dimensions and arguments. -/
theorem unify_of_get?_eq_none {f a : TypeExpr} {i j : Inference}
    (hn : i.bindings.get? f.name = none) (h : unify f a i = .ok j) :
    f.name = a.name ∧ f.dims = a.dims ∧ f.args.length = a.args.length ∧
      unifyArgs (f, a) f.args a.args i = .ok j := by
  obtain ⟨name, args, dims⟩ := f
  rw [unify, hn] at h
  simp only at h
  split at h
  · cases h
  rename_i hname
  split at h
  · cases h
  rename_i hdims
  split at h
  · cases h
  rename_i hargs
  exact ⟨not_not.mp hname, not_not.mp hdims, not_not.mp hargs, h⟩

mutual

theorem unify_reaches : (f a : TypeExpr) → {i j : Inference} → f.Written → i.Fresh →
    unify f a i = .ok j → i.Reaches (fun name => f.mentions name) j
  | ⟨name, args, dims⟩, a, i, j, hf, hi, h => by
    cases hn : i.bindings.get? name with
    | some entry =>
      rw [unify_of_get?_eq_some hn] at h
      exact hi.meet hf.name hn h
    | none =>
      obtain ⟨_, _, hl, h⟩ := unify_of_get?_eq_none hn h
      have hargs := unifyArgs_reaches _ args a.args hf.args hi h hl
      refine ⟨hargs.fresh, hargs.extension, fun hc hm => ?_, fun {n} hc hm hin => ?_⟩
      · rw [TypeExpr.mentions, Bool.or_eq_false_iff] at hm
        exact hargs.frame hc hm.2
      · -- The outermost name has no entry, so a mentioned name with an entry is in an argument.
        have hne : n ≠ name := fun he => by simp [Substitution.contains, he, hn] at hin
        rw [TypeExpr.mentions, Bool.or_eq_true, beq_iff_eq] at hm
        exact hargs.resolved hc (hm.resolve_left (Ne.symm hne)) hin

theorem unifyArg_reaches : (owners : TypeExpr × TypeExpr) → (f a : TypeArg) → {i j : Inference} →
    f.Written → i.Fresh → unifyArg owners f a i = .ok j → i.Reaches (fun name => f.mentions name) j
  | _, .plain f, .plain a, i, j, hf, hi, h => unify_reaches f a hf hi h
  | _, .plain f, .any, i, j, hf, hi, h
  | _, .plain f, .upper _, i, j, hf, hi, h
  | _, .plain f, .lower _, i, j, hf, hi, h => by
    rw [unifyArg] at h
    · exact (hi.capture _).trans (unify_reaches f _ hf (hi.capture _).fresh h)
    · simp
  | _, .any, .any, i, j, _, hi, h => by
    rw [unifyArg] at h
    exact Except.ok.inj h ▸ .refl hi
  | _, .upper f, .upper a, i, j, hf, hi, h => unify_reaches f a hf hi h
  | _, .lower f, .lower a, i, j, hf, hi, h => unify_reaches f a hf hi h
  | _, .any, .plain _, _, _, _, _, h | _, .any, .upper _, _, _, _, _, h
  | _, .any, .lower _, _, _, _, _, h | _, .upper _, .plain _, _, _, _, _, h
  | _, .upper _, .any, _, _, _, _, h | _, .upper _, .lower _, _, _, _, _, h
  | _, .lower _, .plain _, _, _, _, _, h | _, .lower _, .any, _, _, _, _, h
  | _, .lower _, .upper _, _, _, _, _, h => by cases h

theorem unifyArgs_reaches : (owners : TypeExpr × TypeExpr) → (fs as : List TypeArg) →
    {i j : Inference} → (∀ f ∈ fs, f.Written) → i.Fresh → unifyArgs owners fs as i = .ok j →
    fs.length = as.length → i.Reaches (fun name => TypeArg.anyMentions name fs) j
  | _, [], _, i, j, _, hi, h, _ => by
    rw [unifyArgs] at h
    · exact Except.ok.inj h ▸ .refl hi
    · simp
  | owners, f :: fs, a :: as, i, j, hf, hi, h, hl => by
    rw [unifyArgs] at h
    cases hk : unifyArg owners f a i with
    | error e => simp [hk] at h
    | ok k =>
      rw [hk] at h
      have h₁ := unifyArg_reaches owners f a (hf f List.mem_cons_self) hi hk
      exact h₁.trans (unifyArgs_reaches owners fs as (fun g hg => hf g (List.mem_cons_of_mem _ hg))
        h₁.fresh h (by simpa using hl))

end

/-! ## Replacement under later bindings -/

theorem Inference.lookup_of_meet {i j : Inference} {f a : TypeExpr} {entry : Option TypeArg}
    {s : Substitution} (ha : a.Written) (hi : i.bindings.get? f.name = some entry)
    (h : i.meet f a entry = .ok j) (hs : j.bindings.Extends s) :
    s.lookup f.name = some (some (.plain { a with dims := a.dims - f.dims })) :=
  Substitution.lookup_of_written (hs.bound (((get?_of_meet hi h).2.2 _).trans (if_pos rfl))) ha.name

/-- A name that has no entry when it is compared has none later on. -/
theorem Inference.Reaches.lookup_eq_none {m : String → Bool} {i j : Inference} {name : String}
    {s : Substitution} (h : i.Reaches m j) (hs : j.bindings.Extends s)
    (hc : isCapture name = false) (hn : i.bindings.get? name = none) : s.lookup name = none := by
  have := (h.extension.trans hs).names hc
  rw [Substitution.contains, Substitution.contains, hn] at this
  exact Substitution.lookup_eq_none (by simpa using this)

/-- A wildcard is only met by a bare parameter, which is looked up as that wildcard. -/
theorem replace_of_unify_capture {f : TypeExpr} {wildcard : TypeArg} {i j : Inference}
    {s : Substitution} (hf : f.Written) (hi : i.Fresh)
    (h : unify f (.named i.nextCapture) (i.capture wildcard) = .ok j) (hs : j.bindings.Extends s) :
    (TypeArg.plain f).replace s = .ok wildcard := by
  have hc := i.isCapture_nextCapture
  have hne : f.name ≠ i.nextCapture := fun he => by
    have := hf.name
    rw [he, hc] at this
    cases this
  have hr := unify_reaches f _ hf (hi.capture wildcard).fresh h
  cases hn : (i.capture wildcard).bindings.get? f.name with
  | none => exact absurd (unify_of_get?_eq_none hn h).1 hne
  | some entry =>
    obtain ⟨name, args, dims⟩ := f
    rw [unify_of_get?_eq_some hn] at h
    obtain ⟨hargs, hdims, hj⟩ := Inference.get?_of_meet hn h
    have hw : j.bindings.get? i.nextCapture = some (some wildcard) :=
      hr.extension.bound (by rw [Inference.capture, Substitution.get?_set, if_pos rfl])
    have hname := (hj name).trans (if_pos rfl)
    simp only [TypeExpr.named, Nat.zero_sub, Nat.le_zero_eq] at hname hargs hdims
    have hl : s.lookup name = some (some wildcard) :=
      Substitution.lookup_of_capture (hs.bound hname) hc (hs.bound hw)
    have hbare : TypeExpr.isBare ⟨name, args, dims⟩ = true := by
      simp [TypeExpr.isBare, hargs, hdims]
    rw [TypeArg.replace, if_pos hbare, hl]

mutual

/-- Under all later bindings the formal type becomes the actual one. -/
theorem replace_of_unify : (f a : TypeExpr) → {i j : Inference} → {s : Substitution} →
    f.Written → a.Written → i.Fresh → unify f a i = .ok j → j.bindings.Extends s →
    f.replace s = .ok a
  | ⟨name, args, dims⟩, a, i, j, s, hf, ha, hi, h, hs => by
    have hr := unify_reaches _ a hf hi h
    cases hn : i.bindings.get? name with
    | some entry =>
      rw [unify_of_get?_eq_some hn] at h
      obtain ⟨rfl, hdims, _⟩ := Inference.get?_of_meet hn h
      have hl := Inference.lookup_of_meet ha hn h hs
      obtain ⟨aname, aargs, adims⟩ := a
      simp only at hdims hl
      simp [TypeExpr.replace, hl, TypeArg.toType, TypeExpr.arrayOf, Nat.sub_add_cancel hdims]
    | none =>
      obtain ⟨hname, hd, hl, h⟩ := unify_of_get?_eq_none hn h
      have hargs := replaceAll_of_unifyArgs _ args a.args hf.args ha.args hi h hs hl
      obtain ⟨aname, aargs, adims⟩ := a
      obtain rfl : name = aname := hname
      obtain rfl : dims = adims := hd
      simp only [TypeExpr.replace, hr.lookup_eq_none hs hf.name hn, hargs]

theorem replace_of_unifyArg : (owners : TypeExpr × TypeExpr) → (f a : TypeArg) →
    {i j : Inference} → {s : Substitution} → f.Written → a.Written → i.Fresh →
    unifyArg owners f a i = .ok j → j.bindings.Extends s → f.replace s = .ok a
  | _, .plain f, .plain a, i, j, s, hf, ha, hi, h, hs => by
    rw [TypeArg.replace]
    split
    · -- The formal argument is a bare parameter, which is bound to the actual type as a whole.
      rename_i arg hl
      split_ifs at hl with hbare
      simp only [TypeExpr.isBare, Bool.and_eq_true, beq_iff_eq] at hbare
      cases hn : i.bindings.get? f.name with
      | some entry =>
        obtain ⟨name, args, dims⟩ := f
        rw [unifyArg, unify_of_get?_eq_some hn] at h
        have hl' := Inference.lookup_of_meet ha hn h hs
        obtain ⟨aname, aargs, adims⟩ := a
        simp_all
      | none =>
        have hr := unify_reaches f a hf hi h
        rw [hr.lookup_eq_none hs (TypeExpr.Written.name hf) hn] at hl
        cases hl
    · rw [replace_of_unify f a hf ha hi h hs]
      rfl
  | _, .plain f, .any, i, j, s, hf, _, hi, h, hs
  | _, .plain f, .upper _, i, j, s, hf, _, hi, h, hs
  | _, .plain f, .lower _, i, j, s, hf, _, hi, h, hs => by
    rw [unifyArg] at h
    · exact replace_of_unify_capture hf hi h hs
    · simp
  | _, .any, .any, _, _, _, _, _, _, _, _ => rfl
  | _, .upper f, .upper a, i, j, s, hf, ha, hi, h, hs => by
    rw [TypeArg.replace, replace_of_unify f a hf ha hi h hs]
    rfl
  | _, .lower f, .lower a, i, j, s, hf, ha, hi, h, hs => by
    rw [TypeArg.replace, replace_of_unify f a hf ha hi h hs]
    rfl
  | _, .any, .plain _, _, _, _, _, _, _, h, _ | _, .any, .upper _, _, _, _, _, _, _, h, _
  | _, .any, .lower _, _, _, _, _, _, _, h, _ | _, .upper _, .plain _, _, _, _, _, _, _, h, _
  | _, .upper _, .any, _, _, _, _, _, _, h, _ | _, .upper _, .lower _, _, _, _, _, _, _, h, _
  | _, .lower _, .plain _, _, _, _, _, _, _, h, _ | _, .lower _, .any, _, _, _, _, _, _, h, _
  | _, .lower _, .upper _, _, _, _, _, _, _, h, _ => by cases h

theorem replaceAll_of_unifyArgs : (owners : TypeExpr × TypeExpr) → (fs as : List TypeArg) →
    {i j : Inference} → {s : Substitution} → (∀ f ∈ fs, f.Written) → (∀ a ∈ as, a.Written) →
    i.Fresh → unifyArgs owners fs as i = .ok j → j.bindings.Extends s → fs.length = as.length →
    TypeArg.replaceAll s fs = .ok as
  | _, [], [], _, _, _, _, _, _, _, _, _ => rfl
  | owners, f :: fs, a :: as, i, j, s, hf, ha, hi, h, hs, hl => by
    rw [unifyArgs] at h
    cases hk : unifyArg owners f a i with
    | error e => simp [hk] at h
    | ok k =>
      rw [hk] at h
      obtain ⟨hf₁, hf₂⟩ := List.forall_mem_cons.mp hf
      obtain ⟨ha₁, ha₂⟩ := List.forall_mem_cons.mp ha
      have hl' : fs.length = as.length := by simpa using hl
      have h₁ := unifyArg_reaches owners f a hf₁ hi hk
      have h₂ := unifyArgs_reaches owners fs as hf₂ h₁.fresh h hl'
      rw [TypeArg.replaceAll, replace_of_unifyArg owners f a hf₁ ha₁ hi hk (h₂.extension.trans hs),
        replaceAll_of_unifyArgs owners fs as hf₂ ha₂ h₁.fresh h hs hl']

end

/-! ## Inferred bindings -/

section Infer

variable {ps : TypeParams} {formal actual : TypeExpr} {s : Substitution} {name : String}

theorem exists_unify_of_infer (h : ps.infer formal actual = .ok s) :
    ∃ j, unify formal actual ⟨.unresolved ps.names, 0⟩ = .ok j ∧ j.bindings = s := by
  unfold TypeParams.infer at h
  cases hu : unify formal actual ⟨.unresolved ps.names, 0⟩ with
  | error e => rw [hu] at h; cases h
  | ok j => rw [hu] at h; exact ⟨j, rfl, Except.ok.inj h⟩

theorem get?_eq_none_of_infer (hf : formal.Written) (hc : isCapture name = false)
    (hn : name ∉ ps.names) (h : ps.infer formal actual = .ok s) : s.get? name = none := by
  obtain ⟨j, hj, rfl⟩ := exists_unify_of_infer h
  have hnames := (unify_reaches formal actual hf (.start ps.names) hj).extension.names hc
  rw [Substitution.contains, Substitution.contains, Substitution.get?_unresolved,
    if_neg hn] at hnames
  simpa using hnames

theorem isBound_of_infer (hf : formal.Written) (hc : isCapture name = false) (hn : name ∈ ps.names)
    (hm : formal.mentions name = true) (h : ps.infer formal actual = .ok s) :
    s.isBound name = true := by
  obtain ⟨j, hj, rfl⟩ := exists_unify_of_infer h
  refine (unify_reaches formal actual hf (.start ps.names) hj).resolved hc hm ?_
  rw [Substitution.contains, Substitution.get?_unresolved, if_pos hn]
  rfl

end Infer

/-- **Soundness of inference.** Inferred bindings turn the formal type into the actual one. Apart
from captured wildcards they have exactly the parameters as names, and a parameter is left
unresolved exactly if the formal type does not mention it. -/
theorem infer_sound (ps : TypeParams) (formal actual : TypeExpr) {s : Substitution}
    (hps : ∀ name ∈ ps.names, isCapture name = false) (hf : formal.Written) (ha : actual.Written)
    (h : ps.infer formal actual = .ok s) :
    formal.replace s = .ok actual ∧
      (∀ name, name ∈ s.ordinary.map Prod.fst ↔ name ∈ ps.names) ∧
      ∀ name ∈ ps.names, s.get? name = some none ↔ formal.mentions name = false := by
  have hi := Inference.Fresh.start ps.names
  obtain ⟨j, hj, rfl⟩ := exists_unify_of_infer h
  have hr := unify_reaches formal actual hf hi hj
  have hstart : ∀ name ∈ ps.names,
      (Substitution.unresolved ps.names).get? name = some none := fun name hn => by
    rw [Substitution.get?_unresolved, if_pos hn]
  refine ⟨replace_of_unify formal actual hf ha hi hj (.refl _), fun name => ?_, fun name hn => ?_⟩
  · rw [Substitution.mem_ordinary_names]
    constructor
    · rintro ⟨hin, hc⟩
      rw [hr.extension.names hc, Substitution.contains, Substitution.get?_unresolved] at hin
      by_contra hn
      simp [hn] at hin
    · intro hn
      exact ⟨(hr.extension.names (hps name hn)).trans
        (Substitution.contains_of_get? (hstart name hn)), hps name hn⟩
  · constructor
    · intro hu
      by_contra hm
      obtain ⟨arg, hb⟩ := Substitution.isBound_iff.mp (hr.resolved (hps name hn)
        (by simpa using hm) (Substitution.contains_of_get? (hstart name hn)))
      simp [hb] at hu
    · intro hm
      exact (hr.frame (hps name hn) hm).trans (hstart name hn)

/-- `Map<T, ? extends U[]>` against `Map<?, ? extends String[][]>`: the wildcard is captured for
`T`, the dimension of `U` is taken off, and `V` stays unresolved. -/
theorem infer_sound_captured_wildcard :
    let ps := TypeParams.ofNames ["T", "U", "V"]
    let formal := TypeExpr.generic "Map" [.plain (.named "T"), .upper ⟨"U", [], 1⟩]
    let actual := TypeExpr.generic "Map" [.any, .upper ⟨"String", [], 2⟩]
    ∃ s, ps.infer formal actual = .ok s ∧ formal.replace s = .ok actual ∧
      s.get? "V" = some none ∧ s.get? "T" ≠ some none := by
  intro ps formal actual
  have h : ps.infer formal actual = .ok ⟨[("T", some (.plain (.named "capture#1"))),
      ("U", some (.plain ⟨"String", [], 1⟩)), ("V", none), ("capture#1", some .any)]⟩ := by
    decide +kernel
  obtain ⟨hr, _, hu⟩ := infer_sound ps formal actual (by decide) (by decide) (by decide) h
  exact ⟨_, h, hr, (hu "V" (by decide)).mpr (by decide),
    fun ht => absurd ((hu "T" (by decide)).mp ht) (by decide)⟩

end FluentGrammar
