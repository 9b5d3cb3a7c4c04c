import FluentGrammar.Proofs.MethodOutline
import FluentGrammar.Proofs.Replacement
import FluentGrammar.TypeExpr.Order

/-!
# Types of stubs

The types of a stub are those of the method with names replaced: type parameters of the method by
their new names, and type parameters of the owner by the arguments of the ancestor type. This is so
where types are *clean* with respect to a class of fresh names: those that are mentioned are in
scope, none is applied to arguments, and there are no captured wildcards.

* `TypeExpr.CleanIn`: clean types.
* `realizes_of_ownerBindings`, `exists_ownerBindings`: the bindings of the owner's parameters.
* `Method.frame`: what is put in the place of a name when a stub is made.
* `Method.Neat`: the types of a method are clean.
* **`Method.types_of_stub`**: the types of a stub, and that it is neat again.
* **`Method.exists_stub`**: neat methods have stubs.
-/

namespace FluentGrammar

/-! ## Clean types -/

/-- Of the mentioned names none belongs to a captured wildcard, fresh ones are among those given,
and no fresh name is applied to arguments. -/
structure CleanNames (fresh : String → Prop) (names : List String) (mentions : String → Bool)
    (applied : List String) : Prop where
  written : ∀ name, mentions name = true → isCapture name = false
  inScope : ∀ name, mentions name = true → fresh name → name ∈ names
  unapplied : ∀ name ∈ applied, ¬ fresh name

/-- The names of the type are clean. -/
abbrev TypeExpr.CleanIn (fresh : String → Prop) (names : List String) (t : TypeExpr) : Prop :=
  CleanNames fresh names (fun name => t.mentions name) t.applied

/-- The names of the argument are clean. -/
abbrev TypeArg.CleanIn (fresh : String → Prop) (names : List String) (a : TypeArg) : Prop :=
  CleanNames fresh names (fun name => a.mentions name) a.applied

section Clean

variable {fresh : String → Prop} {names names' : List String} {f : String → Option TypeArg}

theorem CleanNames.mono {mentions : String → Bool} {applied : List String}
    (h : CleanNames fresh names mentions applied) (hsub : names ⊆ names') :
    CleanNames fresh names' mentions applied :=
  ⟨h.written, fun name hn hfresh => hsub (h.inScope name hn hfresh), h.unapplied⟩

theorem CleanNames.subst {mentions mentions' : String → Bool} {applied applied' : List String}
    (hf : FreshNames fresh) (h : CleanNames fresh names mentions applied)
    (hcover : ∀ name ∈ names, f name = none → name ∈ names')
    (hvalues : ∀ name arg, f name = some arg → arg.CleanIn fresh names')
    (hmentions : ∀ name, mentions' name = true → MentionedAfter f mentions name)
    (happlied : ∀ name ∈ applied', AppliedAfter f mentions applied name) :
    CleanNames fresh names' mentions' applied' := by
  refine ⟨fun name hn => ?_, fun name hn hfresh => ?_, fun name hn => ?_⟩
  · rcases hmentions name hn with ⟨hm, _⟩ | ⟨x, arg, _, harg, hm⟩ | rfl
    · exact h.written name hm
    · exact (hvalues x arg harg).written name hm
    · decide
  · rcases hmentions name hn with ⟨hm, hnone⟩ | ⟨x, arg, _, harg, hm⟩ | rfl
    · exact hcover name (h.inScope name hm hfresh) hnone
    · exact (hvalues x arg harg).inScope name hm hfresh
    · exact absurd hfresh hf.top
  · rcases happlied name hn with ⟨hm, _⟩ | ⟨x, arg, _, harg, hm⟩
    · exact h.unapplied name hm
    · exact (hvalues x arg harg).unapplied name hm

theorem TypeExpr.cleanIn_subst {t : TypeExpr} (hf : FreshNames fresh) (ht : t.CleanIn fresh names)
    (hcover : ∀ name ∈ names, f name = none → name ∈ names')
    (hvalues : ∀ name arg, f name = some arg → arg.CleanIn fresh names') :
    (t.subst f).CleanIn fresh names' :=
  CleanNames.subst hf ht hcover hvalues (fun _ => t.mentions_subst) fun _ => t.applied_subst

theorem TypeArg.cleanIn_subst {a : TypeArg} (hf : FreshNames fresh) (ha : a.CleanIn fresh names)
    (hcover : ∀ name ∈ names, f name = none → name ∈ names')
    (hvalues : ∀ name arg, f name = some arg → arg.CleanIn fresh names') :
    (a.subst f).CleanIn fresh names' :=
  CleanNames.subst hf ha hcover hvalues (fun _ => a.mentions_subst) fun _ => a.applied_subst

theorem TypeArg.cleanIn_of_mem_args {t : TypeExpr} (ht : t.CleanIn fresh names) {a : TypeArg}
    (ha : a ∈ t.args) : a.CleanIn fresh names :=
  ⟨fun n hn => ht.written n (TypeExpr.mentions_of_mem_args ha hn),
    fun n hn => ht.inScope n (TypeExpr.mentions_of_mem_args ha hn),
    fun n hn => ht.unapplied n (TypeExpr.mem_applied_of_mem_args ha hn)⟩

theorem TypeArg.cleanIn_named {name : String} (hc : isCapture name = false) (hn : name ∈ names) :
    (TypeArg.plain (.named name)).CleanIn fresh names := by
  have hmentions : ∀ n, (TypeArg.plain (.named name)).mentions n = true → name = n := by
    intro n h
    simpa [TypeArg.mentions, TypeExpr.named, TypeExpr.mentions, TypeArg.anyMentions] using h
  refine ⟨fun n h => hmentions n h ▸ hc, fun n h _ => hmentions n h ▸ hn, fun n h => ?_⟩
  simp [TypeArg.applied, TypeExpr.named, TypeExpr.applied, TypeArg.appliedAll] at h

end Clean

/-- Apart from captured wildcards, the substitution has the given names and puts for each what `f`
gives. -/
structure Substitution.Realizes (s : Substitution) (names : List String)
    (f : String → Option TypeArg) : Prop where
  contains : ∀ name, isCapture name = false → s.contains name = decide (name ∈ names)
  value : ∀ name, isCapture name = false → s.value name = f name

/-- Clean types can be replaced, if all names to be replaced are fresh. -/
theorem Substitution.Realizes.replace_eq_ok {s : Substitution} {names scope : List String}
    {f : String → Option TypeArg} {fresh : String → Prop} (hs : s.Realizes names f)
    (hfresh : ∀ name ∈ names, fresh name) {t : TypeExpr} (ht : t.CleanIn fresh scope) :
    t.replace s = .ok (t.subst f) := by
  refine (TypeExpr.replace_eq_ok_iff t).mpr ⟨fun name hn => ?_, ?_⟩
  · rw [hs.contains name (ht.written name (TypeExpr.mentions_of_applied hn)), decide_eq_false]
    exact fun hnames => ht.unapplied name hn (hfresh name hnames)
  · exact TypeExpr.subst_congr t fun name hn => hs.value name (ht.written name hn)

/-! ## Bindings of the owner's parameters -/

section Bindings

variable {owner : Owner} {ancestor : TypeExpr} {s : Substitution}

theorem Substitution.exists_value_of_isBound {name : String} (h : s.isBound name = true) :
    ∃ arg, s.value name = some arg := by
  obtain ⟨arg, harg⟩ := isBound_iff.mp h
  exact ⟨s.follow arg, by simp [value, lookup, harg]⟩

theorem realizes_of_ownerBindings (hc : ∀ name ∈ owner.typeParams, isCapture name = false)
    (ha : ∀ a ∈ ancestor.args, a.Written) (hraw : owner.typeParams ≠ [] → ancestor.args ≠ [])
    (h : Method.ownerBindings owner ancestor = .ok s) :
    ancestor.dims = 0 ∧ ancestor.args.length = owner.typeParams.length ∧
      s.Realizes owner.typeParams (bound owner.typeParams ancestor.args) := by
  have hbound := (ownerBindings_spec h).1
  unfold Method.ownerBindings at h
  split at h
  · rename_i hempty
    simp only [Bool.and_eq_true, List.isEmpty_iff, Bool.not_eq_true', List.isEmpty_eq_false_iff]
      at hempty
    exact absurd hempty.1 (hraw hempty.2)
  obtain ⟨j, rfl, hdims, hl, hj⟩ := unifyArgs_of_infer_selfType h
  have hwritten : ∀ f ∈ owner.typeParams.map fun x => TypeArg.plain (.named x), f.Written := by
    intro f hf
    obtain ⟨x, hx, rfl⟩ := List.mem_map.mp hf
    exact (TypeArg.cleanIn_named (hc x hx) hx : TypeArg.CleanIn (fun _ => False) _ _).written
  have hi := Inference.Fresh.start owner.typeParams
  have hl' : (owner.typeParams.map fun x => TypeArg.plain (.named x)).length =
      ancestor.args.length := by rw [List.length_map, hl]
  have hreaches := unifyArgs_reaches _ _ _ hwritten hi hj hl'
  have hargs := ((TypeArg.replaceAll_eq_ok_iff _).mp
    (replaceAll_of_unifyArgs _ _ _ hwritten ha hi hj (.refl _) hl')).2
  rw [TypeArg.substAll_eq_map, List.map_map] at hargs
  have hcontains : ∀ name, isCapture name = false →
      j.bindings.contains name = decide (name ∈ owner.typeParams) := by
    intro name hn
    rw [hreaches.extension.names hn, Substitution.contains, Substitution.get?_unresolved]
    split <;> simp [*]
  refine ⟨hdims, hl.symm, hcontains, fun name hn => ?_⟩
  by_cases hm : name ∈ owner.typeParams
  · obtain ⟨arg, harg⟩ := Substitution.exists_value_of_isBound (hbound name hm)
    rw [← hargs, bound_map_self hm, harg, Function.comp_apply,
      TypeArg.subst_plain_of_some (t := .named name) rfl harg]
  · rw [bound_eq_none_of_not_mem hm, Substitution.value, Substitution.lookup_eq_none_iff.mpr]
    · rfl
    · rw [hcontains name hn, decide_eq_false hm]

/-- An unresolved name can be unified with any argument, and other names keep their entries. -/
theorem exists_unifyArg_named (owners : TypeExpr × TypeExpr) {x : String} {i : Inference}
    (a : TypeArg) (hc : isCapture x = false) (hx : i.bindings.get? x = some none) :
    ∃ j, unifyArg owners (.plain (.named x)) a i = .ok j ∧
      ∀ name, name ≠ x → isCapture name = false → j.bindings.get? name = i.bindings.get? name := by
  have hmeet : ∀ (k : Inference) (t : TypeExpr), k.bindings.get? x = some none →
      ∃ j, unify (.named x) t k = .ok j ∧
        ∀ name, name ≠ x → j.bindings.get? name = k.bindings.get? name := by
    intro k t hk
    rw [unify_of_get?_eq_some (f := .named x) hk]
    refine ⟨_, rfl, fun name hn => ?_⟩
    exact (Substitution.get?_set ..).trans (if_neg hn)
  have hcapture : ∀ name, isCapture name = false →
      (i.capture a).bindings.get? name = i.bindings.get? name := by
    intro name hn
    rw [Inference.get?_capture, if_neg]
    rintro rfl
    rw [i.isCapture_nextCapture] at hn
    cases hn
  cases a with
  | plain t =>
    obtain ⟨j, hj, hkeep⟩ := hmeet i t hx
    exact ⟨j, hj, fun name hn _ => hkeep name hn⟩
  | any | upper _ | lower _ =>
    obtain ⟨j, hj, hkeep⟩ := hmeet _ (.named i.nextCapture) ((hcapture x hc).trans hx)
    exact ⟨j, hj, fun name hn hname => (hkeep name hn).trans (hcapture name hname)⟩

theorem exists_unifyArgs_named (owners : TypeExpr × TypeExpr) :
    ∀ (xs : List String) (as : List TypeArg) {i : Inference}, xs.Nodup →
      (∀ x ∈ xs, isCapture x = false ∧ i.bindings.get? x = some none) →
      ∃ j, unifyArgs owners (xs.map fun x => .plain (.named x)) as i = .ok j
  | [], _, i, _, _ => ⟨i, by rw [List.map_nil, unifyArgs]; simp⟩
  | _ :: _, [], i, _, _ => ⟨i, by rw [unifyArgs]; simp⟩
  | x :: xs, a :: as, i, hn, hx => by
    obtain ⟨hnot, hn⟩ := List.nodup_cons.mp hn
    obtain ⟨⟨hc, hget⟩, hxs⟩ := List.forall_mem_cons.mp hx
    obtain ⟨k, hk, hkeep⟩ := exists_unifyArg_named owners a hc hget
    obtain ⟨j, hj⟩ := exists_unifyArgs_named owners xs as hn fun y hy =>
      ⟨(hxs y hy).1, (hkeep y (fun he => hnot (he ▸ hy)) (hxs y hy).1).trans (hxs y hy).2⟩
    exact ⟨j, by rw [List.map_cons, unifyArgs, hk]; exact hj⟩

theorem exists_ownerBindings (hn : owner.typeParams.Nodup)
    (hc : ∀ name ∈ owner.typeParams, isCapture name = false) (ho : owner.name ∉ owner.typeParams)
    (hname : ancestor.name = owner.name) (hdims : ancestor.dims = 0)
    (hlen : ancestor.args.length = owner.typeParams.length) :
    ∃ s, Method.ownerBindings owner ancestor = .ok s := by
  unfold Method.ownerBindings
  split
  · exact ⟨_, rfl⟩
  obtain ⟨j, hj⟩ := exists_unifyArgs_named (owner.selfType, ancestor) owner.typeParams ancestor.args
    (i := ⟨.unresolved owner.typeParams, 0⟩) hn fun x hx =>
      ⟨hc x hx, by rw [Substitution.get?_unresolved, if_pos hx]⟩
  have hself : owner.selfType = ⟨owner.name, owner.typeParams.map fun x => .plain (.named x), 0⟩ := by
    rw [← owner.args_selfType]
    rfl
  refine ⟨j.bindings, ?_⟩
  rw [TypeParams.infer, TypeParams.names_ofNames, hself, unify]
  rw [hself] at hj
  simp only [Substitution.get?_unresolved, if_neg ho, hname, hdims, hlen, List.length_map, ne_eq,
    not_true_eq_false, if_false, hj]
  rfl

end Bindings

/-! ## Stubs -/

namespace Method

variable {m b : Method} {name : String} {rename : String → String} {args : List TypeArg}

/-- What stands for a name in a copy of a method: type parameters of the method are renamed, those
of its owner are bound to arguments. -/
def frame (m : Method) (rename : String → String) (args : List TypeArg) (name : String) :
    Option TypeArg :=
  if name ∈ m.typeParams.names then some (.plain (.named (rename name)))
  else bound m.owner.typeParams args name

theorem frame_of_mem (h : name ∈ m.typeParams.names) :
    m.frame rename args name = some (.plain (.named (rename name))) :=
  if_pos h

theorem frame_of_not_mem (h : name ∉ m.typeParams.names) :
    m.frame rename args name = bound m.owner.typeParams args name :=
  if_neg h

theorem frame_eq_none (h : name ∉ m.scope) : m.frame rename args name = none := by
  rw [scope, List.mem_append, not_or] at h
  rw [frame_of_not_mem h.1, bound_eq_none_of_not_mem h.2]

theorem frame_ne_none (hlen : args.length = m.owner.typeParams.length) (h : name ∈ m.scope) :
    m.frame rename args name ≠ none := by
  by_cases hn : name ∈ m.typeParams.names
  · rw [frame_of_mem hn]
    exact Option.some_ne_none _
  · obtain ⟨arg, harg⟩ := exists_bound hlen ((List.mem_append.mp h).resolve_left hn)
    rw [frame_of_not_mem hn, harg]
    exact Option.some_ne_none _

/-- All types that a method is declared with. -/
def types (m : Method) : List TypeExpr :=
  m.result :: (m.params.map Param.type ++ m.throws.toList ++ m.typeParams.flatMap TypeParam.bounds)

theorem mem_types {t : TypeExpr} : t ∈ m.types ↔ t = m.result ∨ (∃ p ∈ m.params, p.type = t) ∨
    t ∈ m.throws.toList ∨ ∃ p ∈ m.typeParams, t ∈ p.bounds := by
  simp [types]

/-- The second method is declared with the types of the first, with names replaced. -/
structure Rewritten (f : String → Option TypeArg) (m b : Method) : Prop where
  result : b.result = m.result.subst f
  params : b.params.map Param.callType = m.params.map fun p => p.callType.subst f
  throws : ∀ t, t ∈ b.throws.toList ↔ ∃ u ∈ m.throws.toList, u.subst f = t

/-- The type parameters in scope have fresh names, and all types are clean. -/
structure Neat (fresh : String → Prop) (m : Method) : Prop where
  nodup : m.typeParams.names.Nodup
  scope : ∀ name ∈ m.scope, fresh name
  types : ∀ t ∈ m.types, t.CleanIn fresh m.scope

namespace Neat

variable {fresh : String → Prop} {s : Substitution}

theorem uncaptured (hf : FreshNames fresh) (hm : m.Neat fresh) :
    ∀ name ∈ m.owner.typeParams, isCapture name = false :=
  fun name hn => hf.uncaptured name (hm.scope name (List.mem_append_right _ hn))

theorem result (hm : m.Neat fresh) : m.result.CleanIn fresh m.scope :=
  hm.types _ (mem_types.mpr (.inl rfl))

theorem type (hm : m.Neat fresh) {p : Param} (hp : p ∈ m.params) : p.type.CleanIn fresh m.scope :=
  hm.types _ (mem_types.mpr (.inr (.inl ⟨p, hp, rfl⟩)))

theorem callType (hm : m.Neat fresh) {p : Param} (hp : p ∈ m.params) :
    p.callType.CleanIn fresh m.scope := by
  have htype := hm.type hp
  unfold Param.callType
  split
  · simpa only [TypeExpr.CleanIn, TypeExpr.mentions_arrayOf, TypeExpr.applied_arrayOf] using htype
  · exact htype

theorem throws (hm : m.Neat fresh) {t : TypeExpr} (ht : t ∈ m.throws.toList) :
    t.CleanIn fresh m.scope :=
  hm.types t (mem_types.mpr (.inr (.inr (.inl ht))))

theorem bounds (hm : m.Neat fresh) {p : TypeParam} (hp : p ∈ m.typeParams) {t : TypeExpr}
    (ht : t ∈ p.bounds) : t.CleanIn fresh m.scope :=
  hm.types t (mem_types.mpr (.inr (.inr (.inr ⟨p, hp, ht⟩))))

theorem mapM_replace (hm : m.Neat fresh) (hs : s.Realizes m.scope (m.frame rename args))
    {types : List TypeExpr} (ht : ∀ t ∈ types, t.CleanIn fresh m.scope) :
    types.mapM (TypeExpr.replace s) = .ok (types.map (TypeExpr.subst (m.frame rename args))) :=
  Except.mapM_eq_ok_map fun t htypes => hs.replace_eq_ok hm.scope (ht t htypes)

end Neat

theorem Replaces.rewritten {fresh : String → Prop} {s : Substitution} (h : m.Replaces s b)
    (hm : m.Neat fresh) (hs : s.Realizes m.scope (m.frame rename args)) :
    m.Rewritten (m.frame rename args) b ∧ b.throws.toList.Nodup ∧
      ∀ t ∈ b.types, ∃ u ∈ m.types, u.subst (m.frame rename args) = t := by
  have hresult : b.result = m.result.subst (m.frame rename args) :=
    Except.ok.inj (h.result.symm.trans (hs.replace_eq_ok hm.scope hm.result))
  have hparams : List.Forall₂ (fun p q : Param => q.type = p.type.subst (m.frame rename args) ∧
      q.variadic = p.variadic) m.params b.params := by
    refine ((List.forall₂_and_left _ _).mpr ⟨fun _ => id, h.params⟩).imp ?_
    rintro p q ⟨hp, hpq⟩
    obtain ⟨t, ht, hq⟩ := Except.bind_eq_ok_iff.mp hpq
    obtain rfl := Except.pure_eq_ok_iff.mp hq
    exact ⟨Except.ok.inj (ht.symm.trans (hs.replace_eq_ok hm.scope (hm.type hp))), rfl⟩
  obtain ⟨types, htypes, hofList⟩ := h.throws
  rw [hm.mapM_replace hs fun _ => hm.throws] at htypes
  have hthrows : ∀ t, t ∈ b.throws.toList ↔
      ∃ u ∈ m.throws.toList, u.subst (m.frame rename args) = t := by
    intro t
    rw [← OrderedSet.mem_def, hofList, OrderedSet.mem_ofList, ← Except.ok.inj htypes, List.mem_map]
  refine ⟨⟨hresult, ?_, hthrows⟩, b.throws.nodup, fun t ht => ?_⟩
  · rw [← List.forall₂_eq_eq_eq, List.forall₂_map_left_iff, List.forall₂_map_right_iff]
    refine hparams.flip.imp ?_
    rintro q p ⟨htype, hvariadic⟩
    rw [Param.callType, Param.callType, hvariadic, htype]
    split
    · rw [TypeExpr.subst_arrayOf]
    · rfl
  · rcases mem_types.mp ht with rfl | ⟨q, hq, rfl⟩ | ht | ⟨q, hq, ht⟩
    · exact ⟨_, mem_types.mpr (.inl rfl), hresult.symm⟩
    · obtain ⟨p, hp, hpq⟩ := exists_left_of_forall₂ hparams q hq
      exact ⟨_, mem_types.mpr (.inr (.inl ⟨p, hp, rfl⟩)), hpq.1.symm⟩
    · obtain ⟨u, hu, hut⟩ := (hthrows t).mp ht
      exact ⟨u, mem_types.mpr (.inr (.inr (.inl hu))), hut⟩
    · obtain ⟨p, hp, hpq⟩ := exists_left_of_forall₂ h.bounds q hq
      rw [hm.mapM_replace hs fun _ => hm.bounds hp] at hpq
      rw [← Except.ok.inj hpq] at ht
      obtain ⟨u, hu, hut⟩ := List.mem_map.mp ht
      exact ⟨u, mem_types.mpr (.inr (.inr (.inr ⟨p, hp, hu⟩))), hut⟩

section Stub

variable {fresh : String → Prop} {target : Owner} {ancestor : TypeExpr}
  {bindings s : Substitution}

theorem realizes_of_stub (hf : FreshNames fresh) (hm : m.Neat fresh)
    (hbindings : bindings.Realizes m.owner.typeParams (bound m.owner.typeParams ancestor.args))
    (hs : ∀ name, s.get? name = if name ∈ m.typeParams.names
      then some (some (.plain (.named (uncapturedName target.typeParams m.typeParams.names name))))
      else bindings.get? name) :
    s.Realizes m.scope
      (m.frame (uncapturedName target.typeParams m.typeParams.names) ancestor.args) := by
  refine ⟨fun name hn => ?_, fun name hn => ?_⟩
  · by_cases hmem : name ∈ m.typeParams.names
    · rw [Substitution.contains_of_get? ((hs name).trans (if_pos hmem))]
      exact (decide_eq_true (List.mem_append_left _ hmem)).symm
    · rw [Substitution.contains, hs, if_neg hmem, ← Substitution.contains,
        hbindings.contains name hn]
      simp [scope, hmem]
  · by_cases hmem : name ∈ m.typeParams.names
    · have hnew := hf.uncapturedName target.typeParams m.typeParams.names
        (hm.scope name (List.mem_append_left _ hmem))
      rw [Substitution.value, Substitution.lookup_of_written ((hs name).trans (if_pos hmem))
        (hf.uncaptured _ hnew), frame_of_mem hmem]
      rfl
    · have hlookup : s.lookup name = bindings.lookup name := by
        refine Substitution.lookup_congr (fun x hx => (hs x).trans (if_neg fun hx' => ?_))
          ((hs name).trans (if_neg hmem))
        rw [hf.uncaptured x (hm.scope x (List.mem_append_left _ hx'))] at hx
        cases hx
      rw [Substitution.value, hlookup, frame_of_not_mem hmem]
      exact hbindings.value name hn

/-- **The types of a stub** are those of the method with names replaced. -/
theorem types_of_stub (hf : FreshNames fresh) (hm : m.Neat fresh)
    (ha : ∀ a ∈ ancestor.args, a.Written) (hraw : m.owner.typeParams ≠ [] → ancestor.args ≠ [])
    (h : m.stub target ancestor = .ok b) :
    ancestor.dims = 0 ∧ ancestor.args.length = m.owner.typeParams.length ∧
      m.Rewritten (m.frame (uncapturedName target.typeParams m.typeParams.names) ancestor.args) b ∧
      b.throws.toList.Nodup ∧
      ∀ t ∈ b.types, ∃ u ∈ m.types,
        u.subst (m.frame (uncapturedName target.typeParams m.typeParams.names) ancestor.args) = t := by
  obtain ⟨_, bindings, s, hb, hs, hreplaces⟩ := stub_eq_ok h
  obtain ⟨hdims, hlen, hbindings⟩ := realizes_of_ownerBindings (hm.uncaptured hf) ha hraw hb
  exact ⟨hdims, hlen, hreplaces.rewritten hm (realizes_of_stub hf hm hbindings hs)⟩

/-- **Neat methods have stubs** on every definition with a proper ancestor type. -/
theorem exists_stub (hf : FreshNames fresh) (hm : m.Neat fresh)
    (ha : ∀ a ∈ ancestor.args, a.Written) (hn : m.owner.typeParams.Nodup)
    (ho : m.owner.name ∉ m.owner.typeParams) (hname : ancestor.name = m.owner.name)
    (hdims : ancestor.dims = 0) (hlen : ancestor.args.length = m.owner.typeParams.length) :
    ∃ b, m.stub target ancestor = .ok b := by
  obtain ⟨bindings, hb⟩ := exists_ownerBindings hn (hm.uncaptured hf) ho hname hdims hlen
  have hraw : m.owner.typeParams ≠ [] → ancestor.args ≠ [] := by
    intro hne hargs
    rw [hargs, List.length_nil] at hlen
    exact hne (List.length_eq_zero_iff.mp hlen.symm)
  have hs := realizes_of_stub hf hm (realizes_of_ownerBindings (hm.uncaptured hf) ha hraw hb).2.2
    (get?_renameApart target.typeParams m.typeParams.names m.typeParams bindings)
  have hbounds : ∀ p ∈ m.typeParams, ∀ name, (p.rename name).replace _ =
      .ok ⟨name, p.bounds.map (TypeExpr.subst _)⟩ := fun p hp name =>
    Except.bind_eq_ok_iff.mpr ⟨_, hm.mapM_replace hs fun _ => hm.bounds hp, rfl⟩
  have hparams : ∀ p ∈ m.params, p.replace _ = .ok { p with type := p.type.subst _ } := fun p hp =>
    Except.bind_eq_ok_iff.mpr ⟨_, hs.replace_eq_ok hm.scope (hm.type hp), rfl⟩
  -- The bounds, the result, the parameters and the thrown types are replaced one after the other.
  refine Except.exists_bind_eq_ok hb (Except.exists_bind_eq_ok
    (Except.mapM_eq_ok_iff.mpr (List.forall₂_map_left_iff.mpr (List.forall₂_map_right_iff.mpr
      (List.forall₂_same.mpr fun p hp => hbounds p hp _)))) ?_)
  refine Except.exists_bind_eq_ok (hs.replace_eq_ok hm.scope hm.result) ?_
  refine Except.exists_bind_eq_ok (Except.mapM_eq_ok_map hparams) ?_
  exact Except.exists_bind_eq_ok (hm.mapM_replace hs fun _ => hm.throws) ⟨_, rfl⟩

end Stub

end Method

end FluentGrammar
