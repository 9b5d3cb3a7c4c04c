import Mathlib.Data.List.Nodup
import Mathlib.Data.List.Perm.Subperm
import FluentGrammar.Method.Stub
import FluentGrammar.Proofs.Run
import FluentGrammar.Proofs.Unification

/-!
# Outlines of methods

The *outline* of a method is its name and, for each parameter, the head of its type, where all type
parameters of the method look the same. It decides the signature of the method, and that of every
stub made of it later. Two methods of one contract have the same outline, unless a name that a type
parameter was given happens to be that of an ordinary type.

Such accidents are excluded for a class of *fresh* names, closed under the appending of numbers:
methods are *tame* when their type parameters have fresh names and no other type has.

* `Method.outline`, `Method.signature_eq_of_outline`: outlines and signatures.
* `exists_isFirstFree`: fresh names are made by the first number that is free.
* **`Method.outline_of_stub`**: the outline of a stub depends on that of the method only.
* **`Method.outline_of_matchesContract`**: one contract, one outline.
-/

namespace FluentGrammar

/-! ## Outlines and signatures -/

namespace Method

variable {m m' : Method}

/-- The head of the type of a parameter: its name, unless that is a type parameter of the method,
and its dimensions. -/
def head (m : Method) (t : TypeExpr) : Option String × Nat :=
  (if t.name ∈ m.typeParams.names then none else some t.name, t.dims)

/-- The name of a method and the heads of its parameters. -/
def outline (m : Method) : String × List (Option String × Nat) :=
  (m.name, m.params.map fun p => m.head p.callType)

/-- The erased type with a given head on an owner with the given type parameters. -/
def erasedHead (outer : List String) (head : Option String × Nat) : String :=
  (match head.1 with
    | some name => if name ∈ outer then TypeExpr.topName else name
    | none => TypeExpr.topName) ++ brackets head.2

theorem erasure_eq_erasedHead (m : Method) (t : TypeExpr) :
    t.erasure m.scope = erasedHead m.owner.typeParams (m.head t) := by
  unfold TypeExpr.erasure erasedHead head scope
  by_cases ht : t.name ∈ m.typeParams.names <;> simp [ht]

theorem signature_eq (m : Method) :
    m.signature = m.outline.1 ++ "(" ++
      Text.joinWith "," (m.outline.2.map (erasedHead m.owner.typeParams)) ++ ")" := by
  unfold signature signatureOf outline
  simp only [List.map_map, Function.comp_def, erasure_eq_erasedHead]

theorem signature_eq_of_outline (ho : m.owner.typeParams = m'.owner.typeParams)
    (h : m.outline = m'.outline) : m.signature = m'.signature := by
  rw [signature_eq, signature_eq, ho, h]

theorem outline_eq_of_signature (ho : m.owner.typeParams = m'.owner.typeParams)
    (hs : m.signature = m'.signature) (h : m.outline.2 = m'.outline.2) :
    m.outline = m'.outline := by
  rw [signature_eq, signature_eq, ho, h, String.append_left_inj, String.append_left_inj,
    String.append_left_inj] at hs
  exact Prod.ext hs h

end Method

/-! ## Fresh names -/

theorem numberedNames_nodup (base : String) (n : Nat) : (numberedNames base n).Nodup := by
  refine List.nodup_range.map fun i j h => ?_
  have := append_toString_injective h
  omega

/-- The first positive number that makes `base` a name that is not taken. -/
structure IsFirstFree (taken : List String) (base : String) (k : Nat) : Prop where
  pos : 0 < k
  free : base ++ toString k ∉ taken
  first : ∀ i, 0 < i → i < k → base ++ toString i ∈ taken

theorem IsFirstFree.eq {taken : List String} {base : String} {i j : Nat}
    (hi : IsFirstFree taken base i) (hj : IsFirstFree taken base j) : i = j := by
  by_contra hne
  rcases Nat.lt_or_gt_of_ne hne with hlt | hlt
  · exact hi.free (hj.first i hi.pos hlt)
  · exact hj.free (hi.first j hj.pos hlt)

theorem exists_isFirstFree (base : String) (taken : List String) :
    ∃ k, IsFirstFree taken base k ∧ freshName base taken = base ++ toString k := by
  have hsome : ((numberedNames base (taken.length + 1)).find? (· ∉ taken)).isSome = true := by
    rw [List.find?_isSome]
    by_contra hall
    have hsub : numberedNames base (taken.length + 1) ⊆ taken := by
      intro n hn
      by_contra hnot
      exact hall ⟨n, hn, by simpa using hnot⟩
    have hlen := ((numberedNames_nodup base _).subperm hsub).length_le
    rw [numberedNames, List.length_map, List.length_range] at hlen
    omega
  obtain ⟨name, hname⟩ := Option.isSome_iff_exists.mp hsome
  have hfresh : freshName base taken = name := by rw [freshName, hname]; rfl
  rw [numberedNames, List.find?_map, Option.map_eq_some_iff] at hname
  obtain ⟨k, hk, rfl⟩ := hname
  obtain ⟨hfree, -, hfirst⟩ := List.find?_range_eq_some.mp hk
  refine ⟨k + 1, ⟨k.succ_pos, by simpa using hfree, fun i hpos hi => ?_⟩, hfresh⟩
  have hprev := hfirst (i - 1) (by omega)
  rw [Function.comp_apply, Nat.sub_add_cancel hpos] at hprev
  simpa using hprev

theorem freshName_spec (base : String) (taken : List String) :
    freshName base taken ∉ taken ∧ ∃ k : Nat, freshName base taken = base ++ toString k := by
  obtain ⟨k, hk, hname⟩ := exists_isFirstFree base taken
  exact ⟨hname ▸ hk.free, k, hname⟩

/-- Names that type parameters of methods can get: with each of them also those it is made into by
numbers, but neither the top type nor captured wildcards. -/
structure FreshNames (fresh : String → Prop) : Prop where
  numbered : ∀ name (k : Nat), fresh name → fresh (name ++ toString k)
  top : ¬ fresh TypeExpr.topName
  uncaptured : ∀ name, fresh name → isCapture name = false

theorem Method.uncapturedName_not_mem (outer inner : List String) (name : String) :
    uncapturedName outer inner name ∉ outer := by
  unfold uncapturedName
  split
  · exact fun hm => (freshName_spec name (outer ++ inner)).1 (List.mem_append_left _ hm)
  · assumption

/-- Two type parameters get the same name only if both collide. -/
theorem Method.uncapturedName_eq_iff {outer inner : List String} {x y : String} (hx : x ∈ inner)
    (hy : y ∈ inner) (hne : x ≠ y) :
    uncapturedName outer inner x = uncapturedName outer inner y ↔
      x ∈ outer ∧ y ∈ outer ∧ freshName x (outer ++ inner) = freshName y (outer ++ inner) := by
  have hnx := (freshName_spec x (outer ++ inner)).1
  have hny := (freshName_spec y (outer ++ inner)).1
  unfold uncapturedName
  split <;> split <;> rename_i hxo hyo
  · simp [hxo, hyo]
  · simp only [hyo, false_and, and_false, iff_false]
    exact fun he => hnx (List.mem_append_right _ (he ▸ hy))
  · simp only [hxo, false_and, iff_false]
    exact fun he => hny (List.mem_append_right _ (he ▸ hx))
  · simp [hxo, hne]

theorem FreshNames.uncapturedName {fresh : String → Prop} (h : FreshNames fresh)
    (outer inner : List String) {name : String} (hn : fresh name) :
    fresh (Method.uncapturedName outer inner name) := by
  unfold Method.uncapturedName
  split
  · obtain ⟨_, k, hk⟩ := freshName_spec name (outer ++ inner)
    exact hk ▸ h.numbered name k hn
  · exact hn

/-! ## Heads after replacement -/

/-- The head that a type with a given head has after replacement. -/
def Substitution.replaceHead (s : Substitution) : Option String × Nat → Option String × Nat
  | (none, dims) => (none, dims)
  | (some name, dims) =>
    match s.lookup name with
    | some (some arg) => (some arg.toType.name, arg.toType.dims + dims)
    | _ => (some name, dims)

theorem TypeExpr.head_of_replace {s : Substitution} {t u : TypeExpr} (h : t.replace s = .ok u) :
    s.replaceHead (some t.name, t.dims) = (some u.name, u.dims) := by
  obtain ⟨name, args, dims⟩ := t
  rw [TypeExpr.replace] at h
  simp only [Substitution.replaceHead]
  cases hl : s.lookup name with
  | none =>
    simp only [hl] at h ⊢
    split at h
    · exact Except.ok.inj h ▸ rfl
    · cases h
  | some entry =>
    simp only [hl] at h ⊢
    split at h
    · cases entry with
      | none => exact Except.ok.inj h ▸ rfl
      | some arg => exact Except.ok.inj h ▸ rfl
    · cases h

theorem Substitution.replaceHead_cases (s : Substitution) (name : String) (dims : Nat) :
    (∃ arg, s.lookup name = some (some arg) ∧
      s.replaceHead (some name, dims) = (some arg.toType.name, arg.toType.dims + dims)) ∨
    (s.isBound name = false ∧ s.replaceHead (some name, dims) = (some name, dims)) := by
  simp only [replaceHead, lookup, isBound]
  cases s.get? name with
  | none => exact .inr ⟨rfl, rfl⟩
  | some entry =>
    cases entry with
    | none => exact .inr ⟨rfl, rfl⟩
    | some arg => exact .inl ⟨_, rfl, rfl⟩

theorem Substitution.replaceHead_add (s : Substitution) (name : String) (dims k : Nat) :
    s.replaceHead (some name, dims + k) =
      ((s.replaceHead (some name, dims)).1, (s.replaceHead (some name, dims)).2 + k) := by
  simp only [replaceHead]
  cases s.lookup name with
  | none => rfl
  | some entry =>
    cases entry with
    | none => rfl
    | some arg => simp only [Nat.add_assoc]

theorem Substitution.follow_congr {s t : Substitution}
    (h : ∀ name, isCapture name = true → s.get? name = t.get? name) (arg : TypeArg) :
    s.follow arg = t.follow arg := by
  unfold follow
  cases arg with
  | plain u =>
    cases hc : isCapture u.name with
    | false => simp [hc]
    | true => simp [hc, h u.name hc]
  | any | upper _ | lower _ => rfl

theorem Substitution.lookup_congr {s t : Substitution}
    (h : ∀ name, isCapture name = true → s.get? name = t.get? name) {name : String}
    (hn : s.get? name = t.get? name) : s.lookup name = t.lookup name := by
  rw [lookup, lookup, hn, funext (follow_congr h)]

theorem Substitution.exists_get?_of_lookup {s : Substitution} {name : String} {arg : TypeArg}
    (h : s.lookup name = some (some arg)) : ∃ other, s.get? other = some (some arg) := by
  unfold lookup at h
  obtain ⟨entry, he, hentry⟩ := Option.map_eq_some_iff.mp h
  obtain ⟨bound, rfl, hbound⟩ := Option.map_eq_some_iff.mp hentry
  unfold follow at hbound
  split at hbound
  · rename_i t
    split at hbound
    · cases hc : s.get? t.name with
      | none =>
        obtain rfl : TypeArg.plain t = arg := by simpa [hc] using hbound
        exact ⟨name, he⟩
      | some entry =>
        cases entry with
        | none =>
          obtain rfl : TypeArg.plain t = arg := by simpa [hc] using hbound
          exact ⟨name, he⟩
        | some wildcard => exact ⟨t.name, by simpa [hc] using hbound⟩
    · exact ⟨name, hbound ▸ he⟩
  · exact ⟨name, hbound ▸ he⟩

theorem Param.callType_name (p : Param) : p.callType.name = p.type.name := by
  unfold callType
  split <;> rfl

theorem Param.head_of_replace {s : Substitution} {p q : Param} (h : p.replace s = .ok q) :
    s.replaceHead (some p.callType.name, p.callType.dims) =
      (some q.callType.name, q.callType.dims) := by
  obtain ⟨t, ht, hq⟩ := Except.bind_eq_ok_iff.mp h
  obtain rfl := Except.pure_eq_ok_iff.mp hq
  have hhead := TypeExpr.head_of_replace ht
  unfold callType
  cases p.variadic with
  | false => exact hhead
  | true =>
    change s.replaceHead (some p.type.name, p.type.dims + 1) = (some t.name, t.dims + 1)
    rw [Substitution.replaceHead_add, hhead]

/-! ## Bindings of the owner's parameters -/

/-- A bare name that is unified with a type is bound to it if it is a parameter, and nothing else
changes. -/
theorem get?_of_unify_named {x : String} {a : TypeExpr} {i j : Inference}
    (h : unify (.named x) a i = .ok j) (name : String) :
    j.bindings.get? name =
      if name = x ∧ i.bindings.contains x = true then some (some (.plain a))
      else i.bindings.get? name := by
  cases hx : i.bindings.get? x with
  | none =>
    obtain ⟨_, _, hl, h⟩ := unify_of_get?_eq_none (f := .named x) hx h
    have hargs : a.args = [] := List.eq_nil_of_length_eq_zero hl.symm
    rw [hargs] at h
    have hj : j = i := (Except.ok.inj h).symm
    simp [hj, Substitution.contains, hx]
  | some entry =>
    rw [unify_of_get?_eq_some (f := .named x) hx] at h
    obtain ⟨_, _, hj⟩ := Inference.get?_of_meet hx h
    have hcontains : i.bindings.contains x = true := Substitution.contains_of_get? hx
    by_cases hname : name = x
    · rw [if_pos ⟨hname, hcontains⟩]
      cases a
      exact (hj name).trans (if_pos hname)
    · rw [if_neg fun h => hname h.1]
      exact (hj name).trans (if_neg hname)

/-- A bare name that is unified with an argument is bound to it if it is a parameter. A wildcard is
captured before. -/
theorem get?_of_unifyArg_named {owners : TypeExpr × TypeExpr} {x : String} {a : TypeArg}
    {i j : Inference} (h : unifyArg owners (.plain (.named x)) a i = .ok j) :
    ∃ k arg, ((k = i ∧ arg = a) ∨ (k = i.capture a ∧ arg = .plain (.named i.nextCapture))) ∧
      ∀ name, j.bindings.get? name =
        if name = x ∧ k.bindings.contains x = true then some (some arg)
        else k.bindings.get? name := by
  cases a with
  | plain t => exact ⟨i, _, .inl ⟨rfl, rfl⟩, get?_of_unify_named h⟩
  | any | upper _ | lower _ => exact ⟨_, _, .inr ⟨rfl, rfl⟩, get?_of_unify_named h⟩

theorem Inference.get?_capture (i : Inference) (wildcard : TypeArg) (name : String) :
    (i.capture wildcard).bindings.get? name =
      if name = i.nextCapture then some (some wildcard) else i.bindings.get? name :=
  Substitution.get?_set ..

/-- The bindings go on from `i` to `j` when the names `xs` are unified with arguments: entries and
bindings stay, the parameters among `xs` are bound, and whatever is bound has an allowed head. -/
structure Inference.Advances (allowed : String → Prop) (xs : List String) (i j : Inference) :
    Prop where
  contains : ∀ name, i.bindings.contains name = true → j.bindings.contains name = true
  bound : ∀ name, i.bindings.isBound name = true → j.bindings.isBound name = true
  binds : ∀ x ∈ xs, i.bindings.contains x = true → j.bindings.isBound x = true
  heads : (∀ name arg, i.bindings.get? name = some (some arg) → allowed arg.toType.name) →
    ∀ name arg, j.bindings.get? name = some (some arg) → allowed arg.toType.name

theorem advances_of_unifyArg {allowed : String → Prop} {owners : TypeExpr × TypeExpr} {x : String}
    {a : TypeArg} {i j : Inference} (hc : ∀ name, isCapture name = true → allowed name)
    (ha : allowed a.toType.name) (h : unifyArg owners (.plain (.named x)) a i = .ok j) :
    i.Advances allowed [x] j := by
  obtain ⟨k, arg, hk, hj⟩ := get?_of_unifyArg_named h
  have hkeep : ∀ name, i.bindings.contains name = true → k.bindings.contains name = true := by
    rcases hk with ⟨rfl, _⟩ | ⟨rfl, _⟩
    · exact fun _ => id
    · intro name hn
      rw [Substitution.contains, Inference.get?_capture]
      split
      · rfl
      · exact hn
  have hbound : ∀ name, i.bindings.isBound name = true → k.bindings.isBound name = true := by
    rcases hk with ⟨rfl, _⟩ | ⟨rfl, _⟩
    · exact fun _ => id
    · intro name hn
      rw [Substitution.isBound, Inference.get?_capture]
      split
      · rfl
      · exact hn
  have harg : allowed arg.toType.name := by
    rcases hk with ⟨_, rfl⟩ | ⟨_, rfl⟩
    · exact ha
    · exact hc _ i.isCapture_nextCapture
  refine ⟨fun name hn => ?_, fun name hn => ?_, fun y hy hn => ?_, fun hi name old hn => ?_⟩
  · rw [Substitution.contains, hj]
    split
    · rfl
    · exact hkeep name hn
  · rw [Substitution.isBound, hj]
    split
    · rfl
    · exact hbound name hn
  · obtain rfl := List.mem_singleton.mp hy
    rw [Substitution.isBound, hj, if_pos ⟨rfl, hkeep y hn⟩]
    rfl
  · rw [hj] at hn
    split at hn
    · obtain rfl : arg = old := by simpa using hn
      exact harg
    · rcases hk with ⟨rfl, _⟩ | ⟨rfl, _⟩
      · exact hi name old hn
      · rw [Inference.get?_capture] at hn
        split at hn
        · obtain rfl : a = old := by simpa using hn
          exact ha
        · exact hi name old hn

theorem advances_of_unifyArgs {allowed : String → Prop} {owners : TypeExpr × TypeExpr}
    (hc : ∀ name, isCapture name = true → allowed name) :
    ∀ (xs : List String) (as : List TypeArg) {i j : Inference}, xs.length = as.length →
      (∀ a ∈ as, allowed a.toType.name) →
      unifyArgs owners (xs.map fun x => .plain (.named x)) as i = .ok j → i.Advances allowed xs j
  | [], [], i, j, _, _, h => by
    obtain rfl := Except.ok.inj h
    exact ⟨fun _ => id, fun _ => id, by simp, id⟩
  | x :: xs, a :: as, i, j, hl, ha, h => by
    rw [List.map_cons, unifyArgs] at h
    cases hk : unifyArg owners (.plain (.named x)) a i with
    | error e => simp [hk] at h
    | ok k =>
      rw [hk] at h
      have h₁ := advances_of_unifyArg hc (ha a List.mem_cons_self) hk
      have h₂ := advances_of_unifyArgs hc xs as (by simpa using hl)
        (fun b hb => ha b (List.mem_cons_of_mem _ hb)) h
      refine ⟨fun n hn => h₂.contains n (h₁.contains n hn), fun n hn => h₂.bound n (h₁.bound n hn),
        fun y hy hn => ?_, fun hi => h₂.heads (h₁.heads hi)⟩
      rcases List.mem_cons.mp hy with rfl | hy
      · exact h₂.bound y (h₁.binds y (by simp) hn)
      · exact h₂.binds y hy (h₁.contains y hn)

/-- Names that the owner's parameters can become under an ancestor type. -/
def TypeExpr.headOfArgs (ancestor : TypeExpr) (name : String) : Prop :=
  name = TypeExpr.topName ∨ isCapture name = true ∨ ∃ a ∈ ancestor.args, a.toType.name = name

theorem get?_foldl_set_top (names : List String) (name : String) :
    (names.foldl (fun s name => s.set name (.plain .top)) (Substitution.unresolved names)).get?
      name = if name ∈ names then some (some (.plain .top)) else none := by
  split
  · rename_i hn
    obtain ⟨_, _, _, he⟩ := Substitution.exists_get?_foldl_set id (fun _ => .plain .top) names
      (.unresolved names) ((List.map_id names).symm ▸ hn)
    exact he
  · rename_i hn
    have hu := Substitution.get?_unresolved names name
    rw [if_neg hn] at hu
    have hne : ∀ e ∈ names, id e ≠ name := by
      rintro e he rfl
      exact hn he
    exact (Substitution.get?_foldl_set id (fun _ => .plain .top) names _ hne).trans hu

theorem TypeParams.names_ofNames (names : List String) : (TypeParams.ofNames names).names = names := by
  simp [TypeParams.ofNames, TypeParams.names, Function.comp_def]

theorem Owner.args_selfType (owner : Owner) :
    owner.selfType.args = owner.typeParams.map fun x => .plain (.named x) := by
  simp [Owner.selfType, TypeExpr.generic, TypeParams.asArgs, TypeParams.ofNames,
    Function.comp_def]

theorem unifyArgs_of_infer_selfType {owner : Owner} {ancestor : TypeExpr} {s : Substitution}
    (h : (TypeParams.ofNames owner.typeParams).infer owner.selfType ancestor = .ok s) :
    ∃ j : Inference, j.bindings = s ∧ ancestor.dims = 0 ∧
      owner.typeParams.length = ancestor.args.length ∧
      unifyArgs (owner.selfType, ancestor) (owner.typeParams.map fun x => .plain (.named x))
        ancestor.args ⟨.unresolved owner.typeParams, 0⟩ = .ok j := by
  obtain ⟨j, hj, rfl⟩ := Except.map_eq_ok_iff.mp h
  rw [TypeParams.names_ofNames] at hj
  have hargs := owner.args_selfType
  cases hn : (Substitution.unresolved owner.typeParams).get? owner.selfType.name with
  | some entry =>
    -- A parameter takes no arguments, and without parameters there is no entry.
    rw [unify_of_get?_eq_some (i := ⟨.unresolved owner.typeParams, 0⟩) hn] at hj
    obtain ⟨hnil, _⟩ := Inference.get?_of_meet (i := ⟨.unresolved owner.typeParams, 0⟩) hn hj
    rw [hargs, List.map_eq_nil_iff] at hnil
    rw [hnil, Substitution.get?_unresolved] at hn
    simp at hn
  | none =>
    obtain ⟨_, hdims, hl, hj⟩ :=
      unify_of_get?_eq_none (i := ⟨.unresolved owner.typeParams, 0⟩) hn hj
    rw [hargs] at hl hj
    exact ⟨j, rfl, hdims.symm, by simpa using hl, hj⟩

/-- All parameters of the owner are bound, to arguments of the ancestor type or the top type. -/
theorem ownerBindings_spec {owner : Owner} {ancestor : TypeExpr} {s : Substitution}
    (h : Method.ownerBindings owner ancestor = .ok s) :
    (∀ name ∈ owner.typeParams, s.isBound name = true) ∧
      ∀ name arg, s.get? name = some (some arg) → ancestor.headOfArgs arg.toType.name := by
  unfold Method.ownerBindings at h
  split at h
  · rw [← Except.ok.inj h]
    refine ⟨fun name hn => ?_, fun name arg hget => ?_⟩
    · rw [Substitution.isBound, get?_foldl_set_top, if_pos hn]
      rfl
    · rw [get?_foldl_set_top] at hget
      split at hget
      · obtain rfl : TypeArg.plain .top = arg := by simpa using hget
        exact .inl rfl
      · cases hget
  · obtain ⟨j, rfl, _, hl, hj⟩ := unifyArgs_of_infer_selfType h
    have hadv : Inference.Advances ancestor.headOfArgs owner.typeParams
        ⟨.unresolved owner.typeParams, 0⟩ j :=
      advances_of_unifyArgs (fun name hc => .inr (.inl hc)) owner.typeParams ancestor.args hl
        (fun a ha => .inr (.inr ⟨a, ha, rfl⟩)) hj
    refine ⟨fun name hn => hadv.binds name hn ?_, hadv.heads fun name arg hget => ?_⟩
    · rw [Substitution.contains, Substitution.get?_unresolved, if_pos hn]
      rfl
    · rw [Substitution.get?_unresolved] at hget
      split at hget <;> simp at hget

/-! ## Stubs -/

theorem TypeParams.names_of_replace {s : Substitution} {ps qs : TypeParams}
    (h : TypeParams.replace s ps = .ok qs) : qs.names = ps.names := by
  have hf := Except.mapM_eq_ok_iff.mp h
  clear h
  induction hf with
  | nil => rfl
  | cons hpq _ ih =>
    obtain ⟨bounds, _, hq⟩ := Except.bind_eq_ok_iff.mp hpq
    obtain rfl := Except.pure_eq_ok_iff.mp hq
    exact congrArg (_ :: ·) ih

namespace Method

variable {m b : Method} {target : Owner} {ancestor : TypeExpr}

theorem names_renameApart (outer inner : List String) (ps : TypeParams) (s : Substitution) :
    (renameApart outer inner ps s).1.names = ps.names.map (uncapturedName outer inner) := by
  simp [renameApart, TypeParams.names, TypeParam.rename, Function.comp_def]

theorem get?_renameApart (outer inner : List String) (ps : TypeParams) (s : Substitution)
    (name : String) :
    (renameApart outer inner ps s).2.get? name =
      if name ∈ ps.names then some (some (.plain (.named (uncapturedName outer inner name))))
      else s.get? name := by
  have hzip : ps.zip (ps.map fun p => p.rename (uncapturedName outer inner p.name)) =
      ps.map fun p => (p, p.rename (uncapturedName outer inner p.name)) := by
    have h := List.zip_map' (f := id)
      (g := fun p : TypeParam => p.rename (uncapturedName outer inner p.name)) (l := ps)
    rwa [List.map_id] at h
  have hkeys : (ps.map fun p => (p, p.rename (uncapturedName outer inner p.name))).map
      (fun e => e.1.name) = ps.names := by
    simp [TypeParams.names, Function.comp_def]
  simp only [renameApart, hzip]
  split
  · rename_i hn
    obtain ⟨e, he, hk, hget⟩ := Substitution.exists_get?_foldl_set
      (fun e : TypeParam × TypeParam => e.1.name) (fun e => .plain (.named e.2.name)) _ s
      (hkeys.symm ▸ hn)
    obtain ⟨p, _, rfl⟩ := List.mem_map.mp he
    rw [hget, ← hk]
    rfl
  · rename_i hn
    refine Substitution.get?_foldl_set (fun e : TypeParam × TypeParam => e.1.name)
      (fun e => .plain (.named e.2.name)) _ s fun e he heq => hn ?_
    exact hkeys ▸ List.mem_map.mpr ⟨e, he, heq⟩

/-- The parts of a stub that do not depend on types. -/
structure IsStub (m : Method) (target : Owner) (b : Method) : Prop where
  name : b.name = m.name
  owner : b.owner = target
  origin : b.origin = m.origin
  access : b.access = m.inheritedAccess target.kind
  modifiers : b.modifiers = m.inheritedModifiers target.kind
  isAbstract : b.isAbstract = target.kind.isAbstract b.modifiers
  state : b.state = .placeholder
  body : b.body = none
  typeParams : b.typeParams.names =
    m.typeParams.names.map (uncapturedName target.typeParams m.typeParams.names)

/-- The types of a stub are those of the method after replacement. -/
structure Replaces (s : Substitution) (m b : Method) : Prop where
  bounds : List.Forall₂ (fun p q : TypeParam => p.bounds.mapM (TypeExpr.replace s) = .ok q.bounds)
    m.typeParams b.typeParams
  result : m.result.replace s = .ok b.result
  params : List.Forall₂ (fun p q => p.replace s = .ok q) m.params b.params
  throws : ∃ types, m.throws.toList.mapM (TypeExpr.replace s) = .ok types ∧
    b.throws = .ofList types

/-- A stub comes about by replacement: type parameters of the method get their new names, and those
of its owner what they are bound to. -/
theorem stub_eq_ok (h : m.stub target ancestor = .ok b) :
    m.IsStub target b ∧ ∃ bindings s, ownerBindings m.owner ancestor = .ok bindings ∧
      (∀ name, s.get? name = if name ∈ m.typeParams.names
        then some (some (.plain (.named (uncapturedName target.typeParams m.typeParams.names name))))
        else bindings.get? name) ∧ m.Replaces s b := by
  unfold stub at h
  simp only [Except.bind_eq_ok_iff, Except.pure_eq_ok_iff] at h
  obtain ⟨bindings, hb, typeParams, htp, result, hresult, params, hparams, throws, hthrows, rfl⟩ := h
  refine ⟨⟨rfl, rfl, rfl, rfl, rfl, rfl, rfl, rfl, ?_⟩, bindings, _, hb, get?_renameApart _ _ _ _,
    ⟨?_, hresult, Except.mapM_eq_ok_iff.mp hparams, throws, hthrows, rfl⟩⟩
  · exact (TypeParams.names_of_replace htp).trans (names_renameApart _ _ _ _)
  · refine (List.forall₂_map_left_iff.mp (Except.mapM_eq_ok_iff.mp htp)).imp fun p q hpq => ?_
    obtain ⟨bounds, hbounds, hq⟩ := Except.bind_eq_ok_iff.mp hpq
    obtain rfl := Except.pure_eq_ok_iff.mp hq
    exact hbounds

/-- The type parameters of the method have fresh names, and so has no other type of a parameter,
unless it is a type parameter of the owner. -/
structure Tame (fresh : String → Prop) (m : Method) : Prop where
  typeParams : ∀ name ∈ m.typeParams.names, fresh name
  params : ∀ p ∈ m.params, fresh p.type.name → p.type.name ∈ m.scope

section Tame

variable {fresh : String → Prop} {bindings s : Substitution} {p q : Param}

theorem IsStub.typeParams_spec (hf : FreshNames fresh) (ht : m.Tame fresh)
    (hstub : m.IsStub target b) :
    ∀ name ∈ b.typeParams.names, fresh name ∧ name ∉ target.typeParams := by
  intro name hn
  rw [hstub.typeParams] at hn
  obtain ⟨old, hold, rfl⟩ := List.mem_map.mp hn
  exact ⟨hf.uncapturedName _ _ (ht.typeParams old hold), uncapturedName_not_mem _ _ _⟩

/-- Where no type parameter of the method stands, a stub has no fresh names but type parameters of
the target. -/
theorem mem_of_fresh (hf : FreshNames fresh) (ht : m.Tame fresh)
    (ha : ∀ a ∈ ancestor.args, fresh a.toType.name → a.toType.name ∈ target.typeParams)
    (hb : ownerBindings m.owner ancestor = .ok bindings) (hp : p ∈ m.params)
    (hn : p.type.name ∉ m.typeParams.names) {name : String} {dims dims' : Nat}
    (hhead : bindings.replaceHead (some p.type.name, dims) = (some name, dims'))
    (hfresh : fresh name) : name ∈ target.typeParams := by
  obtain ⟨hbound, hheads⟩ := ownerBindings_spec hb
  rcases bindings.replaceHead_cases p.type.name dims with ⟨arg, hl, he⟩ | ⟨hl, he⟩
  · obtain ⟨rfl, _⟩ : arg.toType.name = name ∧ _ := by simpa using he.symm.trans hhead
    obtain ⟨other, hget⟩ := Substitution.exists_get?_of_lookup hl
    rcases hheads other arg hget with htop | hcapture | ⟨a, ham, hname⟩
    · exact absurd (htop ▸ hfresh) hf.top
    · simp [hf.uncaptured _ hfresh] at hcapture
    · exact hname ▸ ha a ham (hname.symm ▸ hfresh)
  · obtain ⟨rfl, _⟩ : p.type.name = name ∧ _ := by simpa using he.symm.trans hhead
    have hmem := ht.params p hp hfresh
    rw [scope, List.mem_append] at hmem
    rw [hbound _ (hmem.resolve_left hn)] at hl
    cases hl

theorem head_of_stub (hf : FreshNames fresh) (ht : m.Tame fresh)
    (ha : ∀ a ∈ ancestor.args, fresh a.toType.name → a.toType.name ∈ target.typeParams)
    (hstub : m.IsStub target b) (hb : ownerBindings m.owner ancestor = .ok bindings)
    (hs : ∀ name, s.get? name = if name ∈ m.typeParams.names
      then some (some (.plain (.named (uncapturedName target.typeParams m.typeParams.names name))))
      else bindings.get? name)
    (hp : p ∈ m.params) (hq : p.replace s = .ok q) :
    b.head q.callType = bindings.replaceHead (m.head p.callType) ∧
      (fresh q.type.name → q.type.name ∈ b.scope) := by
  have hhead := Param.head_of_replace hq
  have hcall := p.callType_name
  by_cases hn : p.type.name ∈ m.typeParams.names
  · -- A type parameter of the method becomes one of the stub.
    have hnew := hf.uncapturedName target.typeParams m.typeParams.names (ht.typeParams _ hn)
    have hl := Substitution.lookup_of_written ((hs p.type.name).trans (if_pos hn))
      (hf.uncaptured _ hnew)
    rw [hcall] at hhead
    simp only [Substitution.replaceHead, hl, TypeArg.toType, TypeExpr.named, Prod.mk.injEq,
      Option.some.injEq, Nat.zero_add] at hhead
    have hmem : q.callType.name ∈ b.typeParams.names := by
      rw [hstub.typeParams, ← hhead.1]
      exact List.mem_map.mpr ⟨_, hn, rfl⟩
    refine ⟨?_, fun _ => List.mem_append_left _ (q.callType_name ▸ hmem)⟩
    rw [head, head, if_pos hmem, hcall, if_pos hn, ← hhead.2]
    rfl
  · have hl : s.lookup p.type.name = bindings.lookup p.type.name := by
      refine Substitution.lookup_congr (fun name hc => ?_) ((hs _).trans (if_neg hn))
      refine (hs name).trans (if_neg fun hm => ?_)
      simp [hf.uncaptured _ (ht.typeParams _ hm)] at hc
    have hreplace : bindings.replaceHead (some p.type.name, p.callType.dims) =
        (some q.callType.name, q.callType.dims) := by
      rw [← hhead, hcall, Substitution.replaceHead, Substitution.replaceHead, hl]
    have htarget : fresh q.callType.name → q.callType.name ∈ target.typeParams :=
      mem_of_fresh hf ht ha hb hp hn hreplace
    have hnot : q.callType.name ∉ b.typeParams.names := fun hm =>
      have hspec := hstub.typeParams_spec hf ht _ hm
      hspec.2 (htarget hspec.1)
    refine ⟨?_, fun hfresh => ?_⟩
    · rw [head, head, if_neg hnot, hcall, if_neg hn, hreplace]
    · rw [← q.callType_name] at hfresh ⊢
      exact List.mem_append_right _ (hstub.owner ▸ htarget hfresh)

/-- **The outline of a stub** depends on that of the method only, and the stub is tame again. -/
theorem outline_of_stub (hf : FreshNames fresh) (ht : m.Tame fresh)
    (ha : ∀ a ∈ ancestor.args, fresh a.toType.name → a.toType.name ∈ target.typeParams)
    (h : m.stub target ancestor = .ok b) (hb : ownerBindings m.owner ancestor = .ok bindings) :
    b.outline = (m.outline.1, m.outline.2.map bindings.replaceHead) ∧ b.Tame fresh := by
  obtain ⟨hstub, bindings', s, hb', hs, hreplaces⟩ := stub_eq_ok h
  cases hb.symm.trans hb'
  have hheads : List.Forall₂ (fun p q =>
      b.head q.callType = bindings.replaceHead (m.head p.callType) ∧
        (fresh q.type.name → q.type.name ∈ b.scope)) m.params b.params :=
    ((List.forall₂_and_left m.params b.params).mpr ⟨fun _ => id, hreplaces.params⟩).imp
      fun _ _ hpq => head_of_stub hf ht ha hstub hb hs hpq.1 hpq.2
  refine ⟨Prod.ext hstub.name ?_, fun name hn => (hstub.typeParams_spec hf ht name hn).1,
    fun q hq => ?_⟩
  · rw [outline, outline, List.map_map, ← List.forall₂_eq_eq_eq, List.forall₂_map_left_iff,
      List.forall₂_map_right_iff]
    exact (hheads.imp fun _ _ hpq => hpq.1).flip
  · obtain ⟨p, _, hpq⟩ := exists_left_of_forall₂ hheads q hq
    exact hpq.2

end Tame

/-! ## Contracts -/

section Contract

variable {e : Method} {fresh : String → Prop}

theorem agrees_iff {rename : Substitution} {mine theirs : TypeExpr} :
    agrees rename mine theirs = true ↔ theirs.replace rename = .ok mine := by
  unfold agrees
  cases theirs.replace rename with
  | ok t => simp [eq_comm]
  | error e => simp

theorem matchesContract_spec (h : e.matchesContract b = true) :
    e.signature = b.signature ∧ e.typeParams.length = b.typeParams.length ∧
      List.Forall₂ (fun p q : Param => q.callType.replace (renameTo e b) = .ok p.callType)
        e.params b.params ∧
      b.result.replace (renameTo e b) = .ok e.result ∧ e.throws.size = b.throws.size ∧
      ∀ t ∈ b.throws.toList, ∃ u ∈ e.throws.toList, t.replace (renameTo e b) = .ok u := by
  simp only [matchesContract, Bool.and_eq_true, decide_eq_true_eq, List.all_eq_true] at h
  obtain ⟨⟨⟨⟨⟨⟨hs, ht⟩, hl⟩, hsize⟩, hresult⟩, hparams⟩, hthrows⟩ := h
  refine ⟨hs, ht, List.forall₂_iff_zip.mpr ⟨hl, fun hpq => agrees_iff.mp (hparams _ hpq)⟩,
    agrees_iff.mp hresult, hsize, fun t htb => ?_⟩
  have hmem := hthrows t htb
  split at hmem
  · rename_i u hu
    exact ⟨u, of_decide_eq_true hmem, hu⟩
  · cases hmem

theorem get?_renameTo_of_mem (hl : e.typeParams.length = b.typeParams.length) {name : String}
    (hn : name ∈ b.typeParams.names) :
    ∃ new ∈ e.typeParams.names, (renameTo e b).get? name = some (some (.plain (.named new))) := by
  have hkeys : (e.typeParams.names.zip b.typeParams.names).map Prod.snd = b.typeParams.names :=
    List.map_snd_zip (by simp [TypeParams.names, hl])
  obtain ⟨f, hf, _, hget⟩ := Substitution.exists_get?_foldl_set
    (Prod.snd : String × String → String) (fun f => .plain (.named f.1)) _
    (.unresolved b.typeParams.names) (hkeys.symm ▸ hn)
  exact ⟨f.1, (List.of_mem_zip hf).1, hget⟩

theorem get?_renameTo_of_not_mem {name : String} (hn : name ∉ b.typeParams.names) :
    (renameTo e b).get? name = none := by
  have hne : ∀ f ∈ e.typeParams.names.zip b.typeParams.names, f.2 ≠ name := by
    rintro f hf rfl
    exact hn (List.of_mem_zip hf).2
  have hu := Substitution.get?_unresolved b.typeParams.names name
  rw [if_neg hn] at hu
  exact (Substitution.get?_foldl_set _ (fun f : String × String => .plain (.named f.1)) _ _
    hne).trans hu

/-- **One contract, one outline.** The type parameters of the first method have to be apart from
those of the owner. -/
theorem outline_of_matchesContract (hf : FreshNames fresh) (he : ∀ name ∈ e.typeParams.names,
    fresh name ∧ name ∉ e.owner.typeParams) (hb : b.Tame fresh) (ho : e.owner = b.owner)
    (h : e.matchesContract b = true) : e.outline = b.outline := by
  obtain ⟨hs, hl, hparams, _⟩ := matchesContract_spec h
  refine outline_eq_of_signature (by rw [ho]) hs ?_
  rw [outline, outline, ← List.forall₂_eq_eq_eq, List.forall₂_map_left_iff,
    List.forall₂_map_right_iff]
  have hmem := (List.forall₂_and_left b.params e.params).mpr ⟨fun _ => id, hparams.flip⟩
  refine (hmem.imp fun q p hqp => ?_).flip
  obtain ⟨hq, hreplace⟩ := hqp
  change e.head p.callType = b.head q.callType
  have hhead := TypeExpr.head_of_replace hreplace
  by_cases hn : q.callType.name ∈ b.typeParams.names
  · obtain ⟨new, hnew, hget⟩ := get?_renameTo_of_mem hl hn
    simp only [Substitution.replaceHead, Substitution.lookup_of_written hget
      (hf.uncaptured _ (he new hnew).1), TypeArg.toType, TypeExpr.named, Prod.mk.injEq,
      Option.some.injEq, Nat.zero_add] at hhead
    rw [head, head, if_pos hn, ← hhead.1, if_pos hnew, hhead.2]
  · simp only [Substitution.replaceHead, Substitution.lookup_eq_none (get?_renameTo_of_not_mem hn),
      Prod.mk.injEq, Option.some.injEq] at hhead
    have hnot : p.callType.name ∉ e.typeParams.names := fun hm => by
      obtain ⟨hfresh, hout⟩ := he _ hm
      rw [← hhead.1, Param.callType_name] at hfresh
      have hscope := hb.params q hq hfresh
      rw [scope, List.mem_append, ← Param.callType_name] at hscope
      exact hout (hhead.1 ▸ ho ▸ hscope.resolve_left hn)
    rw [head, head, if_neg hn, if_neg hnot, hhead.1, hhead.2]

end Contract

end Method

end FluentGrammar
