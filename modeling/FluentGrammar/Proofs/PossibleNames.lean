import FluentGrammar.Proofs.ConversionStep
import FluentGrammar.Proofs.MethodOutline
import FluentGrammar.Proofs.Replacement

/-!
# Names that types can have

Replacing type parameters brings no names but those of the arguments, that of the top type and, where
a parameter is named like a captured wildcard, those of captured wildcards. So a set of names that
has these and all those of the hierarchy and of the targets of conversions has the names of all
ancestors, and it keeps them while a class gains interfaces.

* `TypeExpr.Among`: a type whose names are all in a set.
* `unify_captures_le`: how many wildcards are captured.
* `among_of_infer`: inference brings no names but those of the actual type.
* `among_of_infer_captures`: the same for any parameters and a set that has the captured names.
* `Registry.AmongOn.ancestorsVia`: ancestors have the names of the hierarchy.
* **`applyConversion_among`**: a class that gains an interface stays within the names.
-/

namespace FluentGrammar

/-- All names that the type mentions are in the set. -/
def TypeExpr.Among (S : Set String) (t : TypeExpr) : Prop :=
  ∀ name, t.mentions name = true → name ∈ S

@[inherit_doc TypeExpr.Among]
def TypeArg.Among (S : Set String) (a : TypeArg) : Prop :=
  ∀ name, a.mentions name = true → name ∈ S

/-- What the substitution puts in the place of names is in the set. -/
def Substitution.Among (S : Set String) (s : Substitution) : Prop :=
  ∀ name arg, s.value name = some arg → arg.Among S

section Replacement

variable {S : Set String} {s : Substitution} {t u : TypeExpr}

theorem TypeExpr.Among.name (h : t.Among S) : t.name ∈ S :=
  h t.name t.mentions_name

theorem TypeExpr.Among.arg (h : t.Among S) {a : TypeArg} (ha : a ∈ t.args) : a.Among S :=
  fun name hn => h name (mentions_of_mem_args ha hn)

theorem TypeExpr.Among.replace (htop : TypeExpr.topName ∈ S) (ht : t.Among S) (hs : s.Among S)
    (h : t.replace s = .ok u) : u.Among S := by
  obtain ⟨_, rfl⟩ := TypeExpr.replace_eq_ok_iff t |>.mp h
  intro name hn
  rcases t.mentions_subst hn with ⟨hn, _⟩ | ⟨x, arg, _, harg, hn⟩ | rfl
  · exact ht name hn
  · exact hs x arg harg name hn
  · exact htop

theorem Substitution.exists_get?_of_value {name : String} {arg : TypeArg}
    (h : s.value name = some arg) : ∃ other, s.get? other = some (some arg) :=
  exists_get?_of_lookup (Option.join_eq_some_iff.mp h)

theorem among_of_bind {ps : TypeParams} {owner : String} {args : List TypeArg}
    (ha : ∀ a ∈ args, a.Among S) (h : ps.bind owner args = .ok s) : s.Among S := by
  intro name arg hvalue
  obtain ⟨other, hother⟩ := Substitution.exists_get?_of_value hvalue
  rw [Substitution.get?_of_bind h] at hother
  split at hother
  · exact ha arg (mem_of_bound (Option.some.inj hother)).2
  · cases hother

end Replacement

/-! ## Inference -/

/-- An argument that a parameter may be bound to: one in the set, or a captured wildcard. -/
def Inference.Binds (S : Set String) (i : Inference) (arg : TypeArg) : Prop :=
  arg.Among S ∨ ∃ k < i.captures, arg = .plain (.named (captureMark ++ toString (k + 1))) ∧
    i.bindings.contains (captureMark ++ toString (k + 1)) = true

/-- Captured wildcards are in the set, unless a parameter in `params` has their name, and all names
are bound to what is in the set or to captured wildcards. -/
structure Inference.Among (params : List String) (S : Set String) (i : Inference) : Prop where
  captured : ∀ name ∉ params, isCapture name = true → ∀ entry, i.bindings.get? name = some entry →
    ∃ w, entry = some w ∧ w.Among S
  bound : ∀ name arg, i.bindings.get? name = some (some arg) → i.Binds S arg

namespace Inference.Among

variable {params : List String} {S : Set String} {i j : Inference} {f a : TypeExpr}

theorem start (params : List String) (S : Set String) :
    Inference.Among params S ⟨.unresolved params, 0⟩ := by
  constructor
  · intro name hn _ entry he
    rw [Substitution.get?_unresolved, if_neg hn] at he
    cases he
  · intro name arg he
    rw [Substitution.get?_unresolved] at he
    split at he <;> cases he

theorem set (hi : i.Among params S) {name : String} {new : TypeArg}
    (hn : name ∉ params → isCapture name = true → new.Among S) (hnew : i.Binds S new)
    {captures : Nat} (hle : i.captures ≤ captures) :
    Inference.Among params S ⟨i.bindings.set name new, captures⟩ := by
  have hset := i.bindings.get?_set name
  have hmore : ∀ {arg}, i.Binds S arg →
      Inference.Binds S ⟨i.bindings.set name new, captures⟩ arg :=
    Or.imp_right fun ⟨k, hk, harg, hsome⟩ => ⟨k, hk.trans_le hle, harg, by
      rw [Substitution.contains, hset]
      split
      · rfl
      · exact hsome⟩
  constructor
  · intro other hfree hother entry he
    rw [hset] at he
    split at he
    · rename_i heq
      cases he
      exact ⟨new, rfl, hn (heq ▸ hfree) (heq ▸ hother)⟩
    · exact hi.captured other hfree hother entry he
  · intro other arg he
    rw [hset] at he
    split at he
    · cases he
      exact hmore hnew
    · exact hmore (hi.bound other arg he)

theorem capture (hi : i.Among params S) {w : TypeArg} (hw : w.Among S) :
    (i.capture w).Among params S :=
  hi.set (fun _ _ => hw) (.inl hw) (Nat.le_succ _)

theorem meet (hi : i.Among params S) {entry : Option TypeArg}
    (he : i.bindings.get? f.name = some entry) (ha : i.Binds S (.plain a))
    (h : i.meet f a entry = .ok j) : j.Among params S := by
  obtain ⟨name, args, dims⟩ := a
  obtain ⟨_, _, ⟨_, rfl⟩ | ⟨rfl, rfl⟩⟩ := meet_cases h
  · exact hi
  · -- The parameter is unresolved, so it is none of the captured wildcards.
    refine hi.set (fun hfree hc => ?_) (ha.imp (fun ha => ?_) ?_) le_rfl
    · obtain ⟨w, hw, _⟩ := hi.captured f.name hfree hc _ he
      cases hw
    · exact ha
    · rintro ⟨k, hk, harg, hrest⟩
      refine ⟨k, hk, ?_, hrest⟩
      cases harg
      simp [TypeExpr.named]

theorem follow (hi : i.Among params S) (hparams : ∀ name ∈ params, isCapture name = false)
    {arg : TypeArg} (harg : i.Binds S arg) : (i.bindings.follow arg).Among S := by
  have hcaptured : ∀ {name}, isCapture name = true → name ∉ params := fun hc hn => by
    simp [hparams _ hn] at hc
  rcases harg with harg | ⟨k, _, rfl, hsome⟩
  · unfold Substitution.follow
    split
    · rename_i t
      split
      · rename_i hc
        cases he : i.bindings.get? t.name with
        | none => exact harg
        | some entry =>
          have hc := (Bool.and_eq_true_iff.mp hc).1
          obtain ⟨w, rfl, hw⟩ := hi.captured t.name (hcaptured hc) hc entry he
          exact hw
      · exact harg
    · exact harg
  · have hc := isCapture_captureMark_append (toString (k + 1))
    generalize captureMark ++ toString (k + 1) = capture at hc hsome ⊢
    obtain ⟨entry, he⟩ := Option.isSome_iff_exists.mp hsome
    obtain ⟨w, rfl, hw⟩ := hi.captured capture (hcaptured hc) hc entry he
    simpa [Substitution.follow, TypeExpr.named, TypeExpr.isBare, hc, he] using hw

end Inference.Among

theorem TypeExpr.length_allNames (t : TypeExpr) :
    t.allNames.length = (TypeArg.allNamesOf t.args).length + 1 := by
  obtain ⟨name, args, dims⟩ := t
  rfl

theorem Inference.captures_of_meet {i j : Inference} {f a : TypeExpr} {entry : Option TypeArg}
    (h : i.meet f a entry = .ok j) : j.captures = i.captures := by
  obtain ⟨_, _, ⟨_, rfl⟩ | ⟨_, rfl⟩⟩ := meet_cases h <;> rfl

mutual

/-- Unification captures no more wildcards than there are names in the arguments of the formal type:
each has an argument of its own to meet. -/
theorem unify_captures_le : (f a : TypeExpr) → {i j : Inference} → unify f a i = .ok j →
    j.captures ≤ i.captures + (TypeArg.allNamesOf f.args).length
  | ⟨name, args, dims⟩, a, i, j, h => by
    cases hn : i.bindings.get? name with
    | some entry =>
      rw [unify_of_get?_eq_some hn] at h
      rw [Inference.captures_of_meet h]
      exact Nat.le_add_right _ _
    | none =>
      obtain ⟨_, _, _, h⟩ := unify_of_get?_eq_none hn h
      exact unifyArgs_captures_le _ args a.args h

theorem unifyArg_captures_le : (owners : TypeExpr × TypeExpr) → (f a : TypeArg) →
    {i j : Inference} → unifyArg owners f a i = .ok j →
    j.captures ≤ i.captures + f.allNames.length
  | _, .plain f, .plain a, i, j, h | _, .upper f, .upper a, i, j, h
  | _, .lower f, .lower a, i, j, h => by
    rw [unifyArg] at h
    have := unify_captures_le f a h
    rw [TypeArg.allNames, f.length_allNames]
    omega
  | _, .plain f, .any, i, j, h | _, .plain f, .upper _, i, j, h
  | _, .plain f, .lower _, i, j, h => by
    rw [unifyArg] at h
    · have : j.captures ≤ i.captures + 1 + _ := unify_captures_le f _ h
      rw [TypeArg.allNames, f.length_allNames]
      omega
    · simp
  | _, .any, .any, i, j, h => by
    rw [unifyArg] at h
    exact Except.ok.inj h ▸ Nat.le_add_right _ _
  | _, .any, .plain _, _, _, h | _, .any, .upper _, _, _, h | _, .any, .lower _, _, _, h
  | _, .upper _, .plain _, _, _, h | _, .upper _, .any, _, _, h | _, .upper _, .lower _, _, _, h
  | _, .lower _, .plain _, _, _, h | _, .lower _, .any, _, _, h
  | _, .lower _, .upper _, _, _, h => by cases h

theorem unifyArgs_captures_le : (owners : TypeExpr × TypeExpr) → (fs as : List TypeArg) →
    {i j : Inference} → unifyArgs owners fs as i = .ok j →
    j.captures ≤ i.captures + (TypeArg.allNamesOf fs).length
  | _, [], _, i, j, h => by
    rw [unifyArgs] at h
    · exact Except.ok.inj h ▸ Nat.le_add_right _ _
    · simp
  | _, _ :: _, [], i, j, h => by
    rw [unifyArgs] at h
    · exact Except.ok.inj h ▸ Nat.le_add_right _ _
    · simp
  | owners, f :: fs, a :: as, i, j, h => by
    rw [unifyArgs] at h
    cases hk : unifyArg owners f a i with
    | error e => simp [hk] at h
    | ok k =>
      rw [hk] at h
      have hf := unifyArg_captures_le owners f a hk
      have hfs := unifyArgs_captures_le owners fs as h
      rw [TypeArg.allNamesOf, List.length_append]
      omega

end

mutual

theorem unify_among {params : List String} {S : Set String} : (f a : TypeExpr) →
    {i j : Inference} → i.Among params S → i.Binds S (.plain a) → unify f a i = .ok j →
    j.Among params S
  | ⟨name, args, dims⟩, a, i, j, hi, ha, h => by
    cases hn : i.bindings.get? name with
    | some entry =>
      rw [unify_of_get?_eq_some hn] at h
      exact hi.meet hn ha h
    | none =>
      obtain ⟨_, _, _, h⟩ := unify_of_get?_eq_none hn h
      refine unifyArgs_among _ args a.args hi (fun arg harg => ?_) h
      rcases ha with ha | ⟨k, _, hk, _⟩
      · exact fun name hn => ha name (TypeExpr.mentions_of_mem_args harg hn)
      · cases hk
        cases harg

theorem unifyArg_among {params : List String} {S : Set String} :
    (owners : TypeExpr × TypeExpr) → (f a : TypeArg) → {i j : Inference} → i.Among params S →
    a.Among S → unifyArg owners f a i = .ok j → j.Among params S
  | _, .plain f, .plain a, i, j, hi, ha, h => unify_among f a hi (.inl ha) h
  | _, .plain f, .any, i, j, hi, ha, h
  | _, .plain f, .upper _, i, j, hi, ha, h
  | _, .plain f, .lower _, i, j, hi, ha, h => by
    rw [unifyArg] at h
    · refine unify_among f _ (hi.capture ha) (.inr ⟨i.captures, Nat.lt_succ_self _, rfl, ?_⟩) h
      rw [Substitution.contains, ← Inference.nextCapture, i.get?_capture, if_pos rfl]
      rfl
    · simp
  | _, .any, .any, i, j, hi, _, h => by
    rw [unifyArg] at h
    exact Except.ok.inj h ▸ hi
  | _, .upper f, .upper a, i, j, hi, ha, h => unify_among f a hi (.inl ha) h
  | _, .lower f, .lower a, i, j, hi, ha, h => unify_among f a hi (.inl ha) h
  | _, .any, .plain _, _, _, _, _, h | _, .any, .upper _, _, _, _, _, h
  | _, .any, .lower _, _, _, _, _, h | _, .upper _, .plain _, _, _, _, _, h
  | _, .upper _, .any, _, _, _, _, h | _, .upper _, .lower _, _, _, _, _, h
  | _, .lower _, .plain _, _, _, _, _, h | _, .lower _, .any, _, _, _, _, h
  | _, .lower _, .upper _, _, _, _, _, h => by cases h

theorem unifyArgs_among {params : List String} {S : Set String} :
    (owners : TypeExpr × TypeExpr) → (fs as : List TypeArg) → {i j : Inference} →
    i.Among params S → (∀ a ∈ as, a.Among S) → unifyArgs owners fs as i = .ok j →
    j.Among params S
  | _, [], _, i, j, hi, _, h => by
    rw [unifyArgs] at h
    · exact Except.ok.inj h ▸ hi
    · simp
  | _, _ :: _, [], i, j, hi, _, h => by
    rw [unifyArgs] at h
    · exact Except.ok.inj h ▸ hi
    · simp
  | owners, f :: fs, a :: as, i, j, hi, ha, h => by
    rw [unifyArgs] at h
    cases hk : unifyArg owners f a i with
    | error e => simp [hk] at h
    | ok k =>
      rw [hk] at h
      obtain ⟨ha₁, ha₂⟩ := List.forall_mem_cons.mp ha
      exact unifyArgs_among owners fs as (unifyArg_among owners f a hi ha₁ hk) ha₂ h

end

theorem among_of_infer {S : Set String} {ps : TypeParams} {formal actual : TypeExpr}
    {s : Substitution} (hps : ∀ name ∈ ps.names, isCapture name = false) (ha : actual.Among S)
    (h : ps.infer formal actual = .ok s) : s.Among S := by
  obtain ⟨j, hj, rfl⟩ := Except.map_eq_ok_iff.mp h
  have hamong := unify_among formal actual (.start ps.names S) (.inl ha) hj
  intro name arg hvalue
  obtain ⟨entry, hget, he⟩ := Option.map_eq_some_iff.mp (Option.join_eq_some_iff.mp hvalue)
  obtain ⟨bound, rfl, rfl⟩ := Option.map_eq_some_iff.mp he
  exact hamong.follow hps (hamong.bound name bound hget)

/-- A parameter that is named like a captured wildcard may be bound to one and hide it at the same
time. Then the captured name itself takes the place of the parameter. -/
theorem among_of_infer_captures {S : Set String} {ps : TypeParams} {formal actual : TypeExpr}
    {s : Substitution}
    (hS : ∀ k < (TypeArg.allNamesOf formal.args).length, captureMark ++ toString (k + 1) ∈ S)
    (ha : actual.Among S) (h : ps.infer formal actual = .ok s) : s.Among S := by
  obtain ⟨j, hj, rfl⟩ := Except.map_eq_ok_iff.mp h
  intro name arg hvalue
  obtain ⟨other, hother⟩ := Substitution.exists_get?_of_value hvalue
  rcases (unify_among formal actual (.start ps.names S) (.inl ha) hj).bound other arg hother with
    harg | ⟨k, hk, rfl, _⟩
  · exact harg
  · have hle : j.captures ≤ 0 + _ := unify_captures_le formal actual hj
    intro n hn
    obtain rfl := List.mem_singleton.mp ((TypeExpr.mem_allNames n (.named _)).mpr hn)
    exact hS k (by omega)

/-! ## Ancestors -/

namespace Registry

variable {N S : Set String} {r : Registry} {context : String} {trail : List String}

/-- All types that definitions inherit from are in the set. -/
def Among (S : Set String) (r : Registry) : Prop :=
  ∀ name d, r.get? name = some d → ∀ t ∈ d.supertypes, t.Among S

/-- The same for the definitions with names in `N`, whose parents have names in `N` as well. -/
def AmongOn (N S : Set String) (r : Registry) : Prop :=
  ∀ name ∈ N, ∀ d, r.get? name = some d → ∀ t ∈ d.supertypes, t.name ∈ N ∧ t.Among S

theorem Among.on (h : r.Among S) : r.AmongOn Set.univ S :=
  fun name _ d hd t ht => ⟨trivial, h name d hd t ht⟩

theorem among_of_throughParent (htop : TypeExpr.topName ∈ S) {parent : TypeExpr} {d : Definition}
    {inherited types : List TypeExpr} (hp : parent.Among S) (hi : ∀ t ∈ inherited, t.Among S)
    (h : throughParent parent d inherited = .ok types) : ∀ t ∈ types, t.Among S := by
  obtain ⟨s, us, hbind, hreplace, rfl⟩ := throughParent_eq_ok_iff.mp h
  have hs : s.Among S := among_of_bind (fun a ha => hp.arg ha) hbind
  have hus : ∀ u ∈ us, u.Among S := by
    unfold replaceDistinct at hreplace
    split at hreplace
    · exact Except.ok.inj hreplace ▸ hi
    · obtain ⟨vs, hvs, rfl⟩ := Except.map_eq_ok_iff.mp hreplace
      intro u hu
      obtain ⟨t, ht, htu⟩ := Except.exists_of_mem_mapM hvs u (mem_firstOccurrences.mp hu)
      exact (hi t ht).replace htop hs htu
  exact List.forall_mem_cons.mpr ⟨hp, fun u hu => hus u (List.mem_of_mem_filter hu)⟩

theorem AmongOn.ancestorsVia (hr : r.AmongOn N S) (htop : TypeExpr.topName ∈ S)
    {parents types : List TypeExpr} (h : r.ancestorsVia context trail parents = .ok types)
    (hp : ∀ t ∈ parents, t.name ∈ N ∧ t.Among S) : ∀ t ∈ types, t.Among S := by
  revert hp
  refine ancestorsVia_induction (motive := fun _ parents types =>
    (∀ t ∈ parents, t.name ∈ N ∧ t.Among S) → ∀ t ∈ types, t.Among S) ?_ ?_ h
  · exact fun _ _ t ht => absurd ht List.not_mem_nil
  · intro _ parent rest d inherited ts others hd _ _ hthrough ihd ihrest hp
    obtain ⟨hparent, hrest⟩ := List.forall_mem_cons.mp hp
    have hts := among_of_throughParent htop hparent.2 (ihd (hr parent.name hparent.1 d hd)) hthrough
    intro t ht
    rcases List.mem_append.mp ht with ht | ht
    · exact hts t ht
    · exact ihrest hrest t (List.mem_of_mem_filter ht)

theorem Among.ancestorsVia (hr : r.Among S) (htop : TypeExpr.topName ∈ S)
    {parents types : List TypeExpr} (h : r.ancestorsVia context trail parents = .ok types)
    (hp : ∀ t ∈ parents, t.Among S) : ∀ t ∈ types, t.Among S :=
  hr.on.ancestorsVia htop h fun t ht => ⟨trivial, hp t ht⟩

end Registry

/-! ## Conversions -/

section Conversions

variable {N S : Set String} {base r r' : Registry} {name utility : String} {d : Definition}
  {types gained : List TypeExpr} {via target : TypeExpr} {c : Conversion}

theorem Table.mem_keys_insertNew {α : Type} (t : Table α) (key : String) (value : α) {n : String} :
    n ∈ (t.insertNew key value).keys ↔ n ∈ t.keys ∨ n = key := by
  unfold insertNew
  split
  · rename_i hk
    exact ⟨.inl, fun hn => hn.elim id fun he => he ▸ contains_iff.mp hk⟩
  · rename_i hk
    rw [keys_insert, if_neg fun hm => hk (contains_iff.mpr hm), List.mem_append,
      List.mem_singleton]

theorem mem_keys_foldl_insertNew (path : TypeExpr → ConversionPath) (gained : List TypeExpr)
    (paths : Table ConversionPath) {n : String} :
    n ∈ (gained.foldl (fun paths t => paths.insertNew t.name (path t)) paths).keys ↔
      n ∈ paths.keys ∨ n ∈ gained.map TypeExpr.name := by
  induction gained generalizing paths with
  | nil => simp
  | cons t ts ih =>
    rw [List.foldl_cons, ih, Table.mem_keys_insertNew, List.map_cons, List.mem_cons, or_assoc]

theorem gainInterface_among (hb : base.AmongOn N S) (htop : TypeExpr.topName ∈ S)
    (hr : ClassAt base name r d types) (hd : ∀ t ∈ d.supertypes, t.name ∈ N ∧ t.Among S)
    (ht : target.name ∈ N ∧ target.Among S)
    (h : gainInterface name utility via target c r = .ok gained r') :
    (∀ t ∈ gained, t.Among S) ∧ ∃ d' types', ClassAt base name r' d' types' ∧
      (∀ t ∈ d'.supertypes, t.name ∈ N ∧ t.Among S) ∧
      ∀ n, n ∈ d'.paths.keys ↔ n ∈ d.paths.keys ∨ n ∈ gained.map TypeExpr.name := by
  obtain ⟨types₁, redundant, d', types', hr₁, rfl, _, hr', hshape⟩ := gainInterface_cases hr h
  have hd₁ : ∀ t ∈ (d.addInterface target).supertypes, t.name ∈ N ∧ t.Among S := by
    intro t hm
    rcases List.mem_append.mp (Definition.supertypes_addInterface_subset target hr.named hm) with
      hm | hm
    · exact hd t hm
    · exact List.mem_singleton.mp hm ▸ ht
  refine ⟨fun t hm => ?_, d', types', hr', fun t hm => ?_, fun n => ?_⟩
  · exact hb.ancestorsVia htop hr₁.ancestorsVia hd₁ t (List.mem_of_mem_filter hm)
  · rw [Definition.supertypes, hshape] at hm
    exact hd₁ t (Definition.supertypes_removeInterfaces_addPaths _ _ _ hm)
  · rw [paths_of_gainInterface hr.named hshape, mem_keys_foldl_insertNew]

/-- All names that the conversion itself can bring are in the set: those of its target and those of
the wildcards that it captures. -/
structure Conversion.Among (S : Set String) (c : Conversion) : Prop where
  target : c.target.Among S
  captures : ∀ k < (TypeArg.allNamesOf c.source.args).length, captureMark ++ toString (k + 1) ∈ S

/-- **A conversion brings no name from elsewhere.** Where the names of the hierarchy, of an ancestor
and of a conversion are in a set, so are those of all types that a class gains, and its new paths
lead to these. -/
theorem applyConversion_among (hb : base.Among S) (htop : TypeExpr.topName ∈ S)
    (hc : c.Among S) (hr : ClassAt base name r d types) (hd : ∀ t ∈ d.supertypes, t.Among S)
    (hvia : via.Among S) (h : applyConversion name utility via c r = .ok gained r') :
    (∀ t ∈ gained, t.Among S) ∧ ∃ d' types', ClassAt base name r' d' types' ∧
      (∀ t ∈ d'.supertypes, t.Among S) ∧
      ∀ n, n ∈ d'.paths.keys ↔ n ∈ d.paths.keys ∨ n ∈ gained.map TypeExpr.name := by
  rcases applyConversion_cases hr h with ⟨rfl, rfl, _⟩ | ⟨s, target, hs, htarget, _, _, hgain⟩
  · exact ⟨by simp, d, types, hr, hd, by simp⟩
  · have ht := hc.target.replace htop (among_of_infer_captures hc.captures hvia hs) htarget
    obtain ⟨hgained, d', types', hr', hparents, hpaths⟩ := gainInterface_among hb.on htop hr
      (fun t ht => ⟨trivial, hd t ht⟩) ⟨trivial, ht⟩ hgain
    exact ⟨hgained, d', types', hr', fun t ht => (hparents t ht).2, hpaths⟩

theorem topName_mem_possibleNames (r : Registry) (conversions : List Conversion) :
    TypeExpr.topName ∈ possibleNames r conversions :=
  mem_firstOccurrences.mpr (List.mem_append_left _ List.mem_cons_self)

theorem Conversion.among_possibleNames {conversions : List Conversion} (hc : c ∈ conversions) :
    c.Among {n | n ∈ possibleNames r conversions} := by
  refine ⟨fun n hn => ?_, fun k hk => ?_⟩
  · refine mem_firstOccurrences.mpr (List.mem_append_right _ (List.mem_append_left _
      (List.mem_flatMap.mpr ⟨c.target, List.mem_append_right _ (List.mem_map_of_mem hc), ?_⟩)))
    exact (c.target.mem_allNames n).mpr hn
  · refine mem_firstOccurrences.mpr (List.mem_append_right _ (List.mem_append_right _
      (List.mem_flatMap.mpr ⟨c, hc, ?_⟩)))
    exact List.mem_map_of_mem (List.mem_range.mpr hk)

theorem Registry.among_possibleNames (r : Registry) (conversions : List Conversion) :
    r.Among {n | n ∈ possibleNames r conversions} := by
  intro name d hd t ht n hn
  refine mem_firstOccurrences.mpr (List.mem_append_right _ (List.mem_append_left _
    (List.mem_flatMap.mpr ⟨t, List.mem_append_left _
      (List.mem_flatMap.mpr ⟨d, List.mem_of_find?_eq_some hd, ht⟩), ?_⟩)))
  exact (t.mem_allNames n).mpr hn

end Conversions

end FluentGrammar
