import FluentGrammar.Proofs.Replacement

/-!
# Completeness of unification

Unification finds bindings whenever there are any. It binds a parameter to the first type that the
parameter meets and never takes a binding back. If the actual type comes from the formal one by a
substitution of types for parameters, this does no harm: whatever a parameter meets is what the
substitution puts in its place, so it meets the same type wherever it occurs. Such a substitution
puts no wildcard anywhere, and no wildcard has to be captured.

A parameter adds its own dimensions to those of the type in its place. If the sum does not fit in 32
bits, fewer dimensions are stored than the parameter has, and there unification fails.

* `Substitution.standsFor`: what a substitution puts in the place of a parameter.
* `Inference.Follows`: bindings that agree with a substitution, as far as they go.
* `Inference.Ends`: how a run ends that starts with such bindings.
* `unify_subst`: every run ends so.
* **`infer_complete`**: bindings that exist are found, unless dimensions overflow.
-/

namespace FluentGrammar

/-! ## Substitutions of types -/

namespace Substitution

variable {s : Substitution}

/-- Names are bound to types and not to wildcards. -/
def BindsTypes (s : Substitution) : Prop :=
  ∀ name arg, s.get? name = some (some arg) → arg.isWildcard = false

/-- What is put in the place of a parameter, which is the parameter itself if it is unresolved. -/
def standsFor (s : Substitution) (name : String) : TypeArg :=
  (s.value name).getD (.plain (.named name))

/-- What names are bound to is stored as it is. -/
def Fits (s : Substitution) : Prop :=
  ∀ name arg, s.get? name = some (some arg) → arg.Fits

theorem forall_value {p : TypeArg → Prop} (h : ∀ name arg, s.get? name = some (some arg) → p arg)
    {name : String} {arg : TypeArg} (harg : s.value name = some arg) : p arg := by
  unfold value lookup at harg
  rcases hget : s.get? name with _ | _ | bound
  · simp [hget] at harg
  · simp [hget] at harg
  · simp only [hget, Option.map_some, Option.join_some, Option.some.injEq, follow] at harg
    subst harg
    cases bound with
    | plain t =>
      dsimp only
      split
      · -- The name of a captured wildcard stands for what is bound to it.
        rcases hcapture : s.get? t.name with _ | _ | other
        · exact h name _ hget
        · exact h name _ hget
        · exact h t.name other hcapture
      · exact h name _ hget
    | any | upper | lower => exact h name _ hget

theorem BindsTypes.exists_value (h : s.BindsTypes) {name : String} {arg : TypeArg}
    (harg : s.value name = some arg) : ∃ t, arg = .plain t := by
  have hwildcard := forall_value h harg
  cases arg with
  | plain t => exact ⟨t, rfl⟩
  | any | upper | lower => cases hwildcard

theorem Fits.standsFor (h : s.Fits) (name : String) : (s.standsFor name).Fits := by
  unfold Substitution.standsFor
  cases hvalue : s.value name with
  | none => rfl
  | some arg => exact forall_value h hvalue

/-- A parameter without arguments becomes what it stands for, with its own dimensions added. -/
theorem BindsTypes.subst_parameter (h : s.BindsTypes) (name : String) (dims : Nat) :
    ∃ t, s.standsFor name = .plain t ∧
      TypeExpr.subst s.value ⟨name, [], dims⟩ = t.arrayOf dims := by
  cases hvalue : s.value name with
  | none =>
    refine ⟨.named name, by rw [standsFor, hvalue, Option.getD_none], ?_⟩
    rw [TypeExpr.subst_of_none hvalue]
    simp [TypeExpr.arrayOf, TypeExpr.named]
  | some arg =>
    obtain ⟨t, rfl⟩ := h.exists_value hvalue
    refine ⟨t, by rw [standsFor, hvalue, Option.getD_some], ?_⟩
    rw [TypeExpr.subst_of_some hvalue]
    rfl

theorem BindsTypes.subst_plain (h : s.BindsTypes) (t : TypeExpr) :
    (TypeArg.plain t).subst s.value = .plain (t.subst s.value) := by
  by_cases hnone : t.isBare = true → s.value t.name = none
  · exact TypeArg.subst_plain_of_none hnone
  · push Not at hnone
    obtain ⟨hbare, hne⟩ := hnone
    obtain ⟨arg, hvalue⟩ := Option.ne_none_iff_exists'.mp hne
    obtain ⟨u, rfl⟩ := h.exists_value hvalue
    have hdims : t.dims = 0 := by
      simp only [TypeExpr.isBare, Bool.and_eq_true, beq_iff_eq] at hbare
      exact hbare.2
    rw [TypeArg.subst_plain_of_some hbare hvalue, TypeExpr.subst_of_some hvalue, hdims,
      TypeExpr.arrayOf_zero]
    rfl

end Substitution

/-! ## Bindings that agree with a substitution -/

namespace Inference

variable {s : Substitution} {i : Inference}

/-- The bindings have the names of `s`, and what is bound is bound to what it stands for in `s`. -/
structure Follows (s : Substitution) (i : Inference) : Prop where
  names : ∀ name, i.bindings.contains name = s.contains name
  bound : ∀ {name arg}, i.bindings.get? name = some (some arg) → arg = s.standsFor name

theorem Follows.start {names : List String} (h : ∀ name, s.contains name = true ↔ name ∈ names) :
    Follows s ⟨.unresolved names, 0⟩ := by
  refine ⟨fun name => ?_, fun {name arg} hget => ?_⟩
  · rw [Bool.eq_iff_iff, h, Substitution.contains, Substitution.get?_unresolved]
    split <;> simp_all
  · rw [Substitution.get?_unresolved] at hget
    split at hget <;> cases hget

/-- A parameter that meets what it stands for has not been bound to anything else. -/
theorem Follows.meet (hi : i.Follows s) {name : String} {dims : Nat} {t : TypeExpr}
    {entry : Option TypeArg} (hentry : i.bindings.get? name = some entry)
    (ht : s.standsFor name = .plain t) :
    ∃ j, i.meet ⟨name, [], dims⟩ (t.arrayOf dims) entry = .ok j ∧ j.Follows s := by
  have hdims : ¬ (t.arrayOf dims).dims < dims := by
    simp only [TypeExpr.arrayOf]
    omega
  -- The dimensions that the parameter brings along are taken off again.
  have harg : TypeArg.plain { t.arrayOf dims with dims := (t.arrayOf dims).dims - dims } =
      s.standsFor name := by
    rw [ht]
    simp only [TypeExpr.arrayOf, Nat.add_sub_cancel]
    cases t
    rfl
  unfold Inference.meet
  rw [if_neg (by simp), if_neg hdims]
  dsimp only
  rw [harg]
  cases entry with
  | none =>
    refine ⟨_, rfl, fun other => ?_, fun {other arg} hget => ?_⟩
    · rw [← hi.names, Substitution.contains, Substitution.contains, Substitution.get?_set]
      split
      · rename_i hother
        rw [hother, hentry]
        rfl
      · rfl
    · rw [Substitution.get?_set] at hget
      split at hget
      · rename_i hother
        rw [hother]
        exact (Option.some.inj (Option.some.inj hget)).symm
      · exact hi.bound hget
  | some bound => exact ⟨i, if_pos (hi.bound hentry), hi⟩

/-- A run ends with bindings that agree with `s` if what it compares fits. If not, it ends where a
parameter has more dimensions than are stored. -/
def Ends (s : Substitution) (fits : Prop) (x : Except ModelFault Inference) : Prop :=
  fits ∧ (∃ j, x = .ok j ∧ j.Follows s) ∨
    ¬ fits ∧ ∃ f a, x = .error (.unification f a .tooFewDimensions)

theorem Follows.meet_wrapped (hi : i.Follows s) (hs : s.Fits) {name : String} {dims : Nat}
    {t : TypeExpr} {entry : Option TypeArg} (hentry : i.bindings.get? name = some entry)
    (ht : s.standsFor name = .plain t) (hdims : dims < UInt32.size) :
    Ends s (t.arrayOf dims).Fits (i.meet ⟨name, [], dims⟩ (t.arrayOf dims).wrapped entry) := by
  by_cases hfits : (t.arrayOf dims).Fits
  · refine .inl ⟨hfits, ?_⟩
    rw [show (t.arrayOf dims).wrapped = t.arrayOf dims from hfits]
    exact hi.meet hentry ht
  · refine .inr ⟨hfits, ⟨name, [], dims⟩, (t.arrayOf dims).wrapped, ?_⟩
    have htype : t.Fits := TypeArg.fits_plain.mp (ht ▸ hs.standsFor name)
    obtain ⟨tname, args, tdims⟩ := t
    obtain ⟨hargs, htdims⟩ := TypeExpr.fits_mk_iff.mp htype
    have hsum : UInt32.size ≤ tdims + dims := by
      by_contra hlt
      exact hfits (TypeExpr.fits_mk_iff.mpr ⟨hargs, Nat.lt_of_not_le hlt⟩)
    have hfew : (TypeExpr.arrayOf ⟨tname, args, tdims⟩ dims).wrapped.dims < dims := by
      change (tdims + dims) % UInt32.size < dims
      rw [Nat.mod_eq_sub_mod hsum, Nat.mod_eq_of_lt (by omega)]
      omega
    unfold Inference.meet
    rw [if_neg (by simp), if_pos hfew]

end Inference

/-! ## Runs of unification -/

section Runs

variable {s : Substitution} {i : Inference}

/-- The type meets what is stored of what `s` makes of it, whatever bindings of `s` have been found
before. -/
def TypeExpr.Meets (s : Substitution) (f : TypeExpr) : Prop :=
  ∀ {i : Inference}, i.Follows s → f.Fits → (∀ name ∈ f.applied, s.contains name = false) →
    Inference.Ends s (f.subst s.value).Fits (unify f (f.subst s.value).wrapped i)

theorem unifyArg_subst (hs : s.BindsTypes) (owners : TypeExpr × TypeExpr) {f : TypeArg}
    (hf : ∀ t, f.type? = some t → t.Meets s) (hi : i.Follows s) (hfits : f.Fits)
    (happlied : ∀ name ∈ f.applied, s.contains name = false) :
    Inference.Ends s (f.subst s.value).Fits (unifyArg owners f (f.subst s.value).wrapped i) := by
  cases f with
  | plain t =>
    rw [hs.subst_plain, TypeArg.fits_plain]
    exact hf t rfl hi (TypeArg.fits_plain.mp hfits) happlied
  | any => exact .inl ⟨rfl, i, rfl, hi⟩
  | upper t =>
    rw [TypeArg.subst, TypeArg.fits_upper]
    exact hf t rfl hi (TypeArg.fits_upper.mp hfits) happlied
  | lower t =>
    rw [TypeArg.subst, TypeArg.fits_lower]
    exact hf t rfl hi (TypeArg.fits_lower.mp hfits) happlied

theorem unifyArgs_subst (hs : s.BindsTypes) (owners : TypeExpr × TypeExpr) {fs : List TypeArg}
    (hfs : ∀ f ∈ fs, ∀ t, f.type? = some t → t.Meets s) (hi : i.Follows s)
    (hfits : TypeArg.wrappedAll fs = fs)
    (happlied : ∀ name ∈ TypeArg.appliedAll fs, s.contains name = false) :
    Inference.Ends s (TypeArg.wrappedAll (TypeArg.substAll s.value fs) = TypeArg.substAll s.value fs)
      (unifyArgs owners fs (TypeArg.wrappedAll (TypeArg.substAll s.value fs)) i) := by
  induction fs generalizing i with
  | nil => exact .inl ⟨rfl, i, rfl, hi⟩
  | cons f fs ih =>
    obtain ⟨hf, hfs⟩ := List.forall_mem_cons.mp hfs
    obtain ⟨hfit, hfits⟩ := TypeArg.wrappedAll_cons_eq_iff.mp hfits
    obtain ⟨hhead, htail⟩ := List.forall_mem_append.mp happlied
    rw [TypeArg.substAll, TypeArg.wrappedAll_cons_eq_iff, TypeArg.wrappedAll, unifyArgs]
    rcases unifyArg_subst hs owners hf hi hfit hhead with ⟨hfirst, j, hj, hfollows⟩ | ⟨hfirst, hfew⟩
    · rw [hj]
      rcases ih hfs hfollows hfits htail with ⟨hrest, hlast⟩ | ⟨hrest, hfew⟩
      · exact .inl ⟨⟨hfirst, hrest⟩, hlast⟩
      · exact .inr ⟨fun h => hrest h.2, hfew⟩
    · obtain ⟨g, a, herror⟩ := hfew
      rw [herror]
      exact .inr ⟨fun h => hfirst h.1, g, a, rfl⟩

/-- **Every type meets what a substitution of types makes of it.** -/
theorem unify_subst (hs : s.BindsTypes) (hsfits : s.Fits) (f : TypeExpr) : f.Meets s := by
  induction f using TypeExpr.induction with
  | step name args dims ih =>
    intro i hi hfits happlied
    obtain ⟨hargs, hdims⟩ := TypeExpr.fits_mk_iff.mp hfits
    cases hget : i.bindings.get? name with
    | some entry =>
      have hname : s.contains name = true := by
        rw [← hi.names]
        exact Substitution.contains_of_get? hget
      obtain rfl : args = [] := by
        by_contra hargs
        have hfalse := happlied name (by simp [TypeExpr.applied, hargs])
        rw [hname] at hfalse
        cases hfalse
      obtain ⟨t, ht, hsubst⟩ := hs.subst_parameter name dims
      rw [unify_of_get?_eq_some hget, hsubst]
      exact hi.meet_wrapped hsfits hget ht hdims
    | none =>
      have hname : s.contains name = false := by
        rw [← hi.names, Substitution.contains, hget]
        rfl
      have hvalue : s.value name = none := by
        rw [Substitution.value, Substitution.lookup_eq_none_iff.mpr hname]
        rfl
      have hrest : ∀ n ∈ TypeArg.appliedAll args, s.contains n = false := fun n hn =>
        happlied n (List.mem_append_right _ hn)
      rw [TypeExpr.subst, hvalue, TypeExpr.fits_mk_iff, TypeExpr.wrapped, Nat.mod_eq_of_lt hdims,
        unify, hget]
      have hlength : args.length = (TypeArg.wrappedAll (TypeArg.substAll s.value args)).length := by
        rw [TypeArg.length_wrappedAll, TypeArg.substAll_eq_map, List.length_map]
      simp only [ne_eq, not_true_eq_false, if_false, hlength, hdims, and_true]
      exact unifyArgs_subst hs _ ih hi hargs hrest

end Runs

/-! ## Inferred bindings -/

/-- **Completeness of inference.** If a substitution that binds parameters to types turns the formal
type into the actual one, and all numbers of dimensions fit in 32 bits, bindings are inferred, and a
parameter that the formal type mentions is bound to what the substitution puts in its place: to what
it is looked up as, or to itself if it is unresolved. If numbers of the actual type do not fit, what
is stored of it has too few dimensions somewhere, and nothing is inferred. Unless a parameter has the
name of a captured wildcard, a name is looked up as what it is bound to. -/
theorem infer_complete (ps : TypeParams) (formal actual : TypeExpr) (s : Substitution)
    (hf : formal.Written) (hfits : formal.Fits)
    (hnames : ∀ name, s.contains name = true ↔ name ∈ ps.names)
    (htypes : ∀ name arg, s.get? name = some (some arg) → arg.isWildcard = false ∧ arg.Fits)
    (h : formal.replace s = .ok actual) :
    (actual.Fits → ∃ u, ps.infer formal actual = .ok u ∧
      ∀ p ∈ ps.names, formal.mentions p = true →
        (s.lookup p = some none → u.get? p = some (some (.plain (.named p)))) ∧
        ∀ arg, s.lookup p = some (some arg) → u.get? p = some (some arg)) ∧
    (¬ actual.Fits →
      ∃ f a, ps.infer formal actual.wrapped = .error (.unification f a .tooFewDimensions)) ∧
    ((∀ name ∈ ps.names, isCapture name = false) → ∀ p, s.lookup p = s.get? p) := by
  obtain ⟨happlied, rfl⟩ := formal.replace_eq_ok_iff.mp h
  have hrun := unify_subst (fun name arg hget => (htypes name arg hget).1)
    (fun name arg hget => (htypes name arg hget).2) formal (.start hnames) hfits happlied
  refine ⟨fun hactual => ?_, fun hactual => ?_, fun hps => ?_⟩
  · obtain ⟨_, j, hj, hfollows⟩ := hrun.resolve_right fun hover => hover.1 hactual
    have hinfer : ps.infer formal (formal.subst s.value) = .ok j.bindings := by
      rw [show (formal.subst s.value).wrapped = formal.subst s.value from hactual] at hj
      rw [TypeParams.infer, hj]
      rfl
    refine ⟨j.bindings, hinfer, fun p hp hm => ?_⟩
    obtain ⟨bound, hbound⟩ :=
      Substitution.isBound_iff.mp (isBound_of_infer hf (hf p hm) hp hm hinfer)
    rw [hbound, hfollows.bound hbound, Substitution.standsFor, Substitution.value]
    constructor
    · intro hlookup
      rw [hlookup]
      rfl
    · intro arg hlookup
      rw [hlookup]
      rfl
  · obtain ⟨_, f, a, herror⟩ := hrun.resolve_left fun hfit => hactual hfit.1
    refine ⟨f, a, ?_⟩
    rw [TypeParams.infer, herror]
    rfl
  · refine Substitution.lookup_of_uncaptured fun name hcapture => ?_
    by_contra hget
    have hname := (hnames name).mp (Option.isSome_iff_ne_none.mpr hget)
    rw [hps name hname] at hcapture
    cases hcapture

/-- `Map<T[], Pair<? extends List<T>, U>>` becomes
`Map<String[][], Pair<? extends List<String[]>, U>>` for `T := String[]`, with `U` and `V`
unresolved. From the two, `T` and `U` are inferred. -/
theorem infer_complete_repeated :
    let ps := TypeParams.ofNames ["T", "U", "V"]
    let formal := TypeExpr.generic "Map" [.plain ⟨"T", [], 1⟩, .plain (.generic "Pair"
      [.upper (.generic "List" [.plain (.named "T")]), .plain (.named "U")])]
    let actual := TypeExpr.generic "Map" [.plain ⟨"String", [], 2⟩, .plain (.generic "Pair"
      [.upper (.generic "List" [.plain ⟨"String", [], 1⟩]), .plain (.named "U")])]
    let s : Substitution := ⟨[("T", some (.plain ⟨"String", [], 1⟩)), ("U", none), ("V", none)]⟩
    formal.replace s = .ok actual ∧ ∃ u, ps.infer formal actual = .ok u ∧
      u.get? "T" = some (some (.plain ⟨"String", [], 1⟩)) ∧
      u.get? "U" = some (some (.plain (.named "U"))) := by
  intro ps formal actual s
  have hreplace : formal.replace s = .ok actual := by decide +kernel
  have hnames : ∀ name, s.contains name = true ↔ name ∈ ps.names := by
    intro name
    rw [← Substitution.mem_names_iff]
    exact Iff.rfl
  have htypes : ∀ name arg, s.get? name = some (some arg) → arg.isWildcard = false ∧ arg.Fits := by
    intro name arg hget
    have hall : ∀ e ∈ s.entries, ∀ arg ∈ e.2, arg.isWildcard = false ∧ arg.Fits := by decide
    obtain ⟨before, after, hentries, _⟩ := List.lookup_eq_some_iff.mp hget
    exact hall (name, some arg) (by rw [hentries]; simp) arg rfl
  obtain ⟨hcomplete, _⟩ :=
    infer_complete ps formal actual s (by decide) (by decide) hnames htypes hreplace
  obtain ⟨u, hu, hbound⟩ := hcomplete (by decide)
  exact ⟨hreplace, u, hu, (hbound "T" (by decide) (by decide)).2 _ (by decide),
    (hbound "U" (by decide) (by decide)).1 (by decide)⟩

/-- **Dimensions that overflow are lost.** `T[]` becomes an array of 2^32 dimensions for `T := X[]…[]`
with one dimension less. All of them are lost in 32 bits, and from `T[]` and the stored type `X`
nothing is inferred. -/
theorem infer_complete_overflow :
    let ps := TypeParams.ofNames ["T"]
    let formal : TypeExpr := ⟨"T", [], 1⟩
    let s : Substitution := ⟨[("T", some (.plain ⟨"X", [], 4294967295⟩))]⟩
    formal.Written ∧ formal.Fits ∧ (∀ name, s.contains name = true ↔ name ∈ ps.names) ∧
      TypeExpr.Fits ⟨"X", [], 4294967295⟩ ∧
      (formal.replace s).map TypeExpr.wrapped = .ok (.named "X") ∧
      ps.infer formal (.named "X") =
        .error (.unification formal (.named "X") .tooFewDimensions) := by
  intro ps formal s
  refine ⟨by decide, by decide, fun name => ?_, by decide, by decide +kernel,
    by decide +kernel⟩
  rw [← Substitution.mem_names_iff]
  exact Iff.rfl

end FluentGrammar
