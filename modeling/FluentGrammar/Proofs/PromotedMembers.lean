import FluentGrammar.Proofs.ExplicitMethods
import FluentGrammar.Proofs.Hygiene
import FluentGrammar.Proofs.MemberInstances

/-!
# Members of interfaces made of explicit methods

The parameters of an interface are matched with the arguments of the receiver, and the renaming that
is read off the other way around turns the type of the receiver into that of the interface. Type
parameters of the method that the receiver does not mention are renamed apart. Every type parameter
so becomes one that is in scope on the interface, and signatures do not tell them apart. The member
therefore has the reduced signature of the method, and members of different unambiguous methods have
different ones.

* `RenamesReceiver`, `renamesReceiver_of_some`: what the renaming does.
* `get?_of_unifyArgs_named`: parameters are bound to the arguments in their places.
* `Method.BecomesMember`: a method that becomes a member.
* `Method.BecomesMember.exists_parameter`: type parameters become type parameters.
* `Method.BecomesMember.signature_eq_reducedSignature`, `Method.BecomesMember.replace_receiver`:
  signatures and receivers.
* **`interfaceMember_instance`**: the member that an interface gets.
-/

namespace FluentGrammar

/-! ## The renaming of a receiver -/

section Renaming

variable {names : List String} {s s' : Substitution} {entries : List (String × Option TypeArg)}

/-- The substitution `s'` extends `s` by a renaming of the names that the parameters in `entries`
are bound to; these are bare, different and among the given ones. -/
structure RenamesReceiver (names : List String) (s : Substitution)
    (entries : List (String × Option TypeArg)) (s' : Substitution) : Prop where
  keeps : ∀ name, s.isBound name = true → s'.get? name = s.get? name
  changes : ∀ name, s'.get? name = s.get? name ∨ name ∈ names ∧
    ∃ param ∈ entries.map Prod.fst, s'.get? name = some (some (.plain (.named param)))
  renames : ∀ param t, (param, some (.plain t)) ∈ entries → isCapture t.name = false →
    t.isBare = true ∧ t.name ∈ names ∧ s'.get? t.name = some (some (.plain (.named param)))

theorem RenamesReceiver.skip {e : String × Option TypeArg} (h : RenamesReceiver names s entries s')
    (he : ∀ t, e.2 = some (.plain t) → isCapture t.name = true) :
    RenamesReceiver names s (e :: entries) s' := by
  refine ⟨h.keeps, fun name => ?_, fun param t hmem hc => ?_⟩
  · refine (h.changes name).imp_right fun hnew => ⟨hnew.1, ?_⟩
    obtain ⟨-, param, hparam, hget⟩ := hnew
    exact ⟨param, List.mem_cons_of_mem _ hparam, hget⟩
  · rcases List.mem_cons.mp hmem with rfl | hmem
    · simp [he t rfl] at hc
    · exact h.renames param t hmem hc

theorem RenamesReceiver.step {param : String} {t : TypeExpr} (hbare : t.isBare = true)
    (hn : t.name ∈ names) (hfree : s.isBound t.name = false)
    (h : RenamesReceiver names (s.set t.name (.plain (.named param))) entries s') :
    RenamesReceiver names s ((param, some (.plain t)) :: entries) s' := by
  have hset := s.get?_set t.name
  have hbound : (s.set t.name (.plain (.named param))).isBound t.name = true := by
    rw [Substitution.isBound_iff]
    exact ⟨_, by rw [hset, if_pos rfl]⟩
  have hself : s'.get? t.name = some (some (.plain (.named param))) := by
    rw [h.keeps _ hbound, hset, if_pos rfl]
  refine ⟨fun name hb => ?_, fun name => ?_, fun param' t' hmem hc => ?_⟩
  · have hne : name ≠ t.name := fun he => by simp [he, hfree] at hb
    have hsame : (s.set t.name (.plain (.named param))).get? name = s.get? name := by
      rw [hset, if_neg hne]
    rw [h.keeps name (by rw [Substitution.isBound, hsame]; exact hb), hsame]
  · by_cases he : name = t.name
    · subst he
      exact .inr ⟨hn, param, List.mem_cons_self, hself⟩
    · refine (h.changes name).imp (fun hsame => ?_) fun hnew => ⟨hnew.1, ?_⟩
      · rw [hsame, hset, if_neg he]
      · obtain ⟨-, param', hparam', hget⟩ := hnew
        exact ⟨param', List.mem_cons_of_mem _ hparam', hget⟩
  · rcases List.mem_cons.mp hmem with he | hmem
    · simp only [Prod.mk.injEq, Option.some.injEq, TypeArg.plain.injEq] at he
      obtain ⟨rfl, rfl⟩ := he
      exact ⟨hbare, hn, hself⟩
    · exact h.renames param' t' hmem hc

theorem renamesReceiver_of_some (h : receiverRenaming? names s entries = some s') :
    RenamesReceiver names s entries s' := by
  fun_induction receiverRenaming? names s entries with
  | case1 s =>
    cases h
    exact ⟨fun _ _ => rfl, fun _ => .inl rfl, by simp⟩
  | case2 s param rest ih => exact (ih h).skip (by simp)
  | case3 s param t rest hc ih => exact (ih h).skip (by simpa using hc)
  | case4 s param t rest hc hok ih =>
    simp only [Bool.and_eq_true, decide_eq_true_eq, Bool.not_eq_true'] at hok
    exact (ih h).step hok.1.1 hok.1.2 hok.2
  | case5 => cases h
  | case6 => cases h

end Renaming

/-! ## The arguments of the receiver -/

theorem get?_of_unifyArgs_named {owners : TypeExpr × TypeExpr} {xs : List String}
    {as : List TypeArg} {i j : Inference} (hn : xs.Nodup) (hlen : xs.length = as.length)
    (has : ∀ a ∈ as, a.isWildcard = false) (hi : ∀ x ∈ xs, i.bindings.contains x = true)
    (h : unifyArgs owners (xs.map fun x => .plain (.named x)) as i = .ok j) :
    (∀ name, name ∉ xs → j.bindings.get? name = i.bindings.get? name) ∧
      List.Forall₂ (fun x a => j.bindings.get? x = some (some a)) xs as := by
  induction xs generalizing as i with
  | nil =>
    obtain rfl := List.eq_nil_of_length_eq_zero hlen.symm
    cases h
    exact ⟨fun _ _ => rfl, .nil⟩
  | cons x xs ih =>
    obtain ⟨a, as, rfl⟩ := List.exists_cons_of_length_eq_add_one hlen.symm
    obtain ⟨hx, hn⟩ := List.nodup_cons.mp hn
    obtain ⟨ha, htail⟩ := List.forall_mem_cons.mp has
    obtain ⟨hix, hi⟩ := List.forall_mem_cons.mp hi
    rw [List.map_cons, unifyArgs] at h
    split at h
    · rename_i k hk
      obtain ⟨t, rfl⟩ : ∃ t, a = .plain t := by
        cases a with
        | plain t => exact ⟨t, rfl⟩
        | any | upper _ | lower _ => cases ha
      have hk := get?_of_unify_named hk
      have hother : ∀ name, name ≠ x → k.bindings.get? name = i.bindings.get? name :=
        fun name hne => by rw [hk, if_neg fun h => hne h.1]
      have hself : k.bindings.get? x = some (some (.plain t)) := by
        rw [hk, if_pos ⟨rfl, hix⟩]
      obtain ⟨hrest, hforall⟩ := ih hn (Nat.succ.inj hlen) htail (fun y hy => by
        rw [Substitution.contains, hother y fun he => hx (he ▸ hy)]
        exact hi y hy) h
      refine ⟨fun name hname => ?_, .cons ?_ hforall⟩
      · rw [List.mem_cons, not_or] at hname
        rw [hrest name hname.2, hother name hname.1]
      · rw [hrest x hx, hself]
    · cases h

/-- A receiver without wildcards that suits a definition has its name, and an argument for each of
its parameters. -/
theorem receiver_of_infer {d : Definition} {receiver : TypeExpr} {bindings : Substitution}
    (hn : d.typeParams.names.Nodup) (hwild : ∀ a ∈ receiver.args, a.isWildcard = false)
    (h : d.typeParams.infer d.selfType receiver = .ok bindings) :
    receiver.name = d.name ∧ receiver.dims = 0 ∧
      List.Forall₂ (fun x a => bindings.get? x = some (some a)) d.typeParams.names
        receiver.args := by
  obtain ⟨j, hj, rfl⟩ := exists_unify_of_infer h
  have hargs : d.selfType.args = d.typeParams.names.map fun x => .plain (.named x) := by
    rw [Definition.selfType, TypeExpr.generic, TypeParams.asArgs, TypeParams.names, List.map_map]
    rfl
  have hget := Substitution.get?_unresolved d.typeParams.names d.name
  by_cases hmem : d.name ∈ d.typeParams.names
  · rw [if_pos hmem] at hget
    rw [unify_of_get?_eq_some (f := d.selfType) hget] at hj
    have hnil := (Inference.get?_of_meet (f := d.selfType) hget hj).1
    rw [hargs, List.map_eq_nil_iff] at hnil
    simp [hnil] at hmem
  · rw [if_neg hmem] at hget
    obtain ⟨hname, hdims, hlen, hj⟩ := unify_of_get?_eq_none (f := d.selfType) hget hj
    rw [hargs] at hlen hj
    rw [List.length_map] at hlen
    refine ⟨hname.symm, hdims.symm, (get?_of_unifyArgs_named hn hlen hwild (fun x hx => ?_) hj).2⟩
    rw [Substitution.contains, Substitution.get?_unresolved, if_pos hx]
    rfl

/-! ## Members -/

theorem TypeExpr.mem_applied_cases {t : TypeExpr} {name : String} (h : name ∈ t.applied) :
    name = t.name ∨ ∃ a ∈ t.args, name ∈ a.applied := by
  obtain ⟨n, args, dims⟩ := t
  rw [applied, List.mem_append, TypeArg.mem_appliedAll] at h
  refine h.imp_left fun hn => ?_
  split at hn
  · cases hn
  · exact List.mem_singleton.mp hn

theorem TypeParams.mem_names_distinct {ps : TypeParams} {name : String} :
    name ∈ ps.distinct.names ↔ name ∈ ps.names := by
  induction ps with
  | nil => rfl
  | cons p ps ih =>
    have hfilter : ∀ qs : TypeParams, name ∈ names (qs.filter (·.name ≠ p.name)) ↔
        name ∈ qs.names ∧ name ≠ p.name := by
      intro qs
      simp only [names, List.mem_map, List.mem_filter, decide_eq_true_eq]
      grind
    change name ∈ p.name :: names (List.filter _ (distinct ps)) ↔ name ∈ p.name :: names ps
    rw [List.mem_cons, List.mem_cons, hfilter, ih]
    by_cases he : name = p.name <;> simp [he]

theorem TypeParams.distinct_eq_self {ps : TypeParams} (h : ps.names.Nodup) : ps.distinct = ps := by
  induction ps with
  | nil => rfl
  | cons p ps ih =>
    obtain ⟨hp, hps⟩ := List.nodup_cons.mp h
    rw [distinct, ih hps, List.filter_eq_self.mpr fun q hq => ?_]
    exact decide_eq_true fun he => hp (List.mem_map.mpr ⟨q, hq, he⟩)

namespace Method

variable {d : Definition} {e member : Method} {receiver : TypeExpr} {utility : String}
  {s : Substitution} {name : String}

/-- The type parameters of the method that its receiver does not mention. -/
def openUnder (e : Method) (s : Substitution) : TypeParams :=
  TypeParams.distinct (e.typeParams.filter fun p => !s.isBound p.name)

theorem mem_openUnder (e : Method) (s : Substitution) (name : String) :
    name ∈ (e.openUnder s).names ↔ name ∈ e.typeParams.names ∧ s.isBound name = false := by
  rw [openUnder, TypeParams.mem_names_distinct]
  simp only [TypeParams.names, List.mem_map, List.mem_filter, Bool.not_eq_true']
  grind

/-- What the types of the method are replaced by on the interface. -/
def memberSubstitution (d : Definition) (e : Method) (s : Substitution) : Substitution :=
  (renameApart d.typeParams.names e.typeParams.names (e.openUnder s) s).2

/-- The member is made of the method, whose receiver is renamed by `s`. -/
structure BecomesMember (d : Definition) (e : Method) (receiver : TypeExpr) (s : Substitution)
    (member : Method) : Prop where
  receiver : ∃ bindings, d.typeParams.infer d.selfType receiver = .ok bindings ∧
    RenamesReceiver e.typeParams.names (.unresolved e.typeParams.names) bindings.ordinary s
  params : (e.params.drop 1).mapM (Param.replace (e.memberSubstitution d s)) = .ok member.params
  result : e.result.replace (e.memberSubstitution d s) = .ok member.result
  throws : ∃ thrown, e.throws.toList.mapM (TypeExpr.replace (e.memberSubstitution d s)) =
    .ok thrown ∧ member.throws = .ofList thrown
  name : member.name = e.name
  owner : member.owner = d.owner
  typeParams : member.typeParams.names = (e.openUnder s).names.map
    (uncapturedName d.typeParams.names e.typeParams.names)

theorem memberUnder_of_interfaceMember?
    (h : interfaceMember? d e receiver utility = .ok (some member)) :
    ∃ bindings s, d.typeParams.infer d.selfType receiver = .ok bindings ∧
      receiverRenaming? e.typeParams.names (.unresolved e.typeParams.names) bindings.ordinary =
        some s ∧ memberUnder d e utility s = .ok member := by
  unfold interfaceMember? at h
  split at h
  · cases h
  rename_i bindings hinfer
  dsimp only at h
  split at h
  · cases h
  rename_i s hs
  obtain ⟨m, hm, he⟩ := Except.map_eq_ok_iff.mp h
  cases he
  exact ⟨bindings, s, hinfer, hs, hm⟩

theorem becomesMember_of_memberUnder {bindings : Substitution}
    (hinfer : d.typeParams.infer d.selfType receiver = .ok bindings)
    (hs : receiverRenaming? e.typeParams.names (.unresolved e.typeParams.names) bindings.ordinary =
      some s) (hm : memberUnder d e utility s = .ok member) :
    e.BecomesMember d receiver s member := by
  unfold memberUnder at hm
  simp only [Except.bind_eq_ok_iff, Except.pure_eq_ok_iff] at hm
  obtain ⟨params, hparams, thrown, hthrown, result, hresult, typeParams, htypeParams, rfl⟩ := hm
  have hnames := (TypeParams.names_of_replace htypeParams).trans (names_renameApart _ _ _ _)
  exact ⟨⟨bindings, hinfer, renamesReceiver_of_some hs⟩, hparams, hresult, ⟨thrown, hthrown, rfl⟩,
    rfl, rfl, hnames⟩

theorem exists_becomesMember (h : interfaceMember? d e receiver utility = .ok (some member)) :
    ∃ s, e.BecomesMember d receiver s member := by
  obtain ⟨bindings, s, hinfer, hs, hm⟩ := memberUnder_of_interfaceMember? h
  exact ⟨s, becomesMember_of_memberUnder hinfer hs hm⟩

/-- Names do not get in each other's way on the interface: its parameters are different, there are
no names of captured wildcards, and a name in the types of the method that is none of its type
parameters is no type parameter of the interface or of the member. -/
structure KeepsApart (d : Definition) (e member : Method) : Prop where
  nodup : d.typeParams.names.Nodup
  uncaptured : ∀ name ∈ d.name :: d.typeParams.names, isCapture name = false
  written : e.Written
  concrete : ∀ t ∈ e.types, ∀ name, t.mentions name = true → name ∉ e.typeParams.names →
    name ∉ d.typeParams.names ∧ name ∉ member.typeParams.names

instance (d : Definition) (e member : Method) : Decidable (e.KeepsApart d member) :=
  decidable_of_iff (d.typeParams.names.Nodup ∧
    (∀ name ∈ d.name :: d.typeParams.names, isCapture name = false) ∧
    ((∀ name ∈ e.typeParams.names, isCapture name = false) ∧ ∀ t ∈ e.types, t.Written) ∧
    ∀ t ∈ e.types, ∀ name ∈ t.allNames, name ∉ e.typeParams.names →
      name ∉ d.typeParams.names ∧ name ∉ member.typeParams.names)
    ⟨fun h => ⟨h.1, h.2.1, ⟨h.2.2.1.1, h.2.2.1.2⟩, fun t ht name hn =>
        h.2.2.2 t ht name ((t.mem_allNames name).mpr hn)⟩,
      fun h => ⟨h.nodup, h.uncaptured, ⟨h.written.names, h.written.types⟩, fun t ht name hn =>
        h.concrete t ht name ((t.mem_allNames name).mp hn)⟩⟩

theorem written_selfType (h : ∀ name ∈ d.name :: d.typeParams.names, isCapture name = false) :
    d.selfType.Written := by
  intro name hn
  rw [Definition.selfType, TypeExpr.generic, TypeExpr.mentions, TypeArg.anyMentions_eq_any,
    Bool.or_eq_true, beq_iff_eq, List.any_eq_true] at hn
  rcases hn with rfl | ⟨a, ha, hn⟩
  · exact h _ List.mem_cons_self
  · obtain ⟨p, hp, rfl⟩ := List.mem_map.mp ha
    refine h name (List.mem_cons_of_mem _ (List.mem_map.mpr ⟨p, hp, ?_⟩))
    simpa [TypeArg.mentions, TypeExpr.named, TypeExpr.mentions, TypeArg.anyMentions] using hn

theorem isCapture_uncapturedName (outer inner : List String) (h : isCapture name = false) :
    isCapture (uncapturedName outer inner name) = false := by
  unfold uncapturedName
  split
  · obtain ⟨-, k, hk⟩ := freshName_spec name (outer ++ inner)
    rw [hk]
    exact ((IsNumbered.refl name).append k).isCapture_eq_false h
  · exact h

theorem KeepsApart.value_argument (hk : e.KeepsApart d member) (hwritten : receiver.Written)
    {bindings : Substitution} (hrenames : RenamesReceiver e.typeParams.names
      (.unresolved e.typeParams.names) bindings.ordinary s)
    {x : String} {t : TypeExpr} (hx : x ∈ d.typeParams.names)
    (ht : .plain t ∈ receiver.args) (hget : bindings.get? x = some (some (.plain t))) :
    t.isBare = true ∧ (e.memberSubstitution d s).value t.name = some (.plain (.named x)) := by
  have hc := hk.uncaptured x (List.mem_cons_of_mem _ hx)
  have hordinary : (x, some (.plain t)) ∈ bindings.ordinary := by
    refine List.mem_filter.mpr ⟨?_, by simp [hc]⟩
    obtain ⟨before, after, he, -⟩ := List.lookup_eq_some_iff.mp hget
    rw [he]
    simp
  obtain ⟨hbare, -, hs⟩ := hrenames.renames x t hordinary
    (hwritten.args _ ht t.name t.mentions_name)
  have hlookup : (e.memberSubstitution d s).lookup t.name = some (some (.plain (.named x))) := by
    refine Substitution.lookup_of_written ?_ hc
    rw [memberSubstitution, get?_renameApart_of_isBound (e.mem_openUnder s)
      (Substitution.isBound_iff.mpr ⟨_, hs⟩), hs]
  exact ⟨hbare, by rw [Substitution.value, hlookup]; rfl⟩

namespace BecomesMember

variable (h : e.BecomesMember d receiver s member)
include h

theorem mem_scope : name ∈ member.scope ↔
    name ∈ member.typeParams.names ∨ name ∈ d.typeParams.names := by
  rw [scope, List.mem_append, h.owner]
  rfl

theorem get?_eq_none (hn : name ∉ e.typeParams.names) :
    (e.memberSubstitution d s).get? name = none := by
  obtain ⟨bindings, -, hrenames⟩ := h.receiver
  rw [memberSubstitution, get?_renameApart_of_not_mem (e.mem_openUnder s) hn]
  rcases hrenames.changes name with hsame | ⟨hmem, -⟩
  · rw [hsame, Substitution.get?_unresolved, if_neg hn]
  · exact absurd hmem hn

variable (hk : e.KeepsApart d member)
include hk

theorem exists_get?_of_isBound (hb : s.isBound name = true) :
    ∃ new ∈ d.typeParams.names, s.get? name = some (some (.plain (.named new))) := by
  obtain ⟨bindings, hinfer, hrenames⟩ := h.receiver
  rcases hrenames.changes name with hsame | ⟨-, param, hparam, hget⟩
  · rw [Substitution.isBound, hsame, Substitution.get?_unresolved] at hb
    split at hb <;> cases hb
  · obtain ⟨hcontains, hc⟩ := Substitution.mem_ordinary_names.mp hparam
    refine ⟨param, ?_, hget⟩
    by_contra hnot
    have hnone := get?_eq_none_of_infer (written_selfType hk.uncaptured) hc hnot hinfer
    simp [Substitution.contains, hnone] at hcontains

/-- **Type parameters become type parameters**, of the interface or of the member. -/
theorem exists_parameter (hn : name ∈ e.typeParams.names) :
    ∃ new ∈ member.scope,
      (e.memberSubstitution d s).lookup name = some (some (.plain (.named new))) := by
  by_cases hb : s.isBound name = true
  · obtain ⟨new, hnew, hget⟩ := h.exists_get?_of_isBound hk hb
    refine ⟨new, h.mem_scope.mpr (.inr hnew), Substitution.lookup_of_written ?_
      (hk.uncaptured new (List.mem_cons_of_mem _ hnew))⟩
    rw [memberSubstitution, get?_renameApart_of_isBound (e.mem_openUnder s) hb, hget]
  · have hopen : name ∈ (e.openUnder s).names :=
      (e.mem_openUnder s name).mpr ⟨hn, Bool.eq_false_of_not_eq_true hb⟩
    refine ⟨uncapturedName d.typeParams.names e.typeParams.names name, h.mem_scope.mpr (.inl ?_),
      Substitution.lookup_of_written ?_ (isCapture_uncapturedName _ _ (hk.written.names name hn))⟩
    · rw [h.typeParams]
      exact List.mem_map_of_mem hopen
    · rw [memberSubstitution, get?_renameApart, if_pos hopen]

/-- Erasure does not tell type parameters apart, so it is the same before and after. -/
theorem erasure_eq (ho : e.owner.typeParams = []) {p q : Param} (hp : p ∈ e.params)
    (hpq : p.replace (e.memberSubstitution d s) = .ok q) :
    q.callType.erasure member.scope = p.callType.erasure e.scope := by
  have hhead := Param.head_of_replace hpq
  have hscope : p.callType.name ∈ e.scope ↔ p.callType.name ∈ e.typeParams.names := by
    rw [scope, ho, List.append_nil]
  rw [TypeExpr.erasure, TypeExpr.erasure]
  by_cases hn : p.callType.name ∈ e.typeParams.names
  · obtain ⟨new, hnew, hlookup⟩ := h.exists_parameter hk hn
    simp only [Substitution.replaceHead, hlookup, TypeArg.toType, TypeExpr.named, Prod.mk.injEq,
      Option.some.injEq, Nat.zero_add] at hhead
    rw [if_pos (hscope.mpr hn), ← hhead.1, if_pos hnew, hhead.2]
  · simp only [Substitution.replaceHead, Substitution.lookup_eq_none (h.get?_eq_none hn),
      Prod.mk.injEq, Option.some.injEq] at hhead
    have hmentions : p.type.mentions p.callType.name = true := by
      rw [Param.callType_name]
      exact p.type.mentions_name
    obtain ⟨hd, hmember⟩ := hk.concrete _ (mem_types.mpr (.inr (.inl ⟨p, hp, rfl⟩))) _ hmentions hn
    have hnot : p.callType.name ∉ member.scope := fun hmem =>
      (h.mem_scope.mp hmem).elim hmember hd
    rw [if_neg (mt hscope.mp hn), ← hhead.1, if_neg hnot, hhead.2]

/-- **The member has the reduced signature of the method.** -/
theorem signature_eq_reducedSignature (ho : e.owner.typeParams = []) :
    member.signature = e.reducedSignature := by
  have herased : member.params.map (fun q => q.callType.erasure member.scope) =
      (e.params.drop 1).map fun p => p.callType.erasure e.scope := by
    rw [← List.forall₂_eq_eq_eq, List.forall₂_map_left_iff, List.forall₂_map_right_iff]
    have hforall := (List.forall₂_and_left (e.params.drop 1) member.params).mpr
      ⟨fun p hp => List.mem_of_mem_drop hp, Except.mapM_eq_ok_iff.mp h.params⟩
    exact hforall.flip.imp fun q p hpq => h.erasure_eq hk ho hpq.1 hpq.2
  rw [signature, reducedSignature, signatureOf, signatureOf, herased, h.name]

/-- **The receiver becomes the interface with its own parameters.** -/
theorem replace_receiver (hwritten : receiver.Written) (hn : receiver.name ∉ e.typeParams.names)
    (hwild : ∀ a ∈ receiver.args, a.isWildcard = false) :
    receiver.replace (e.memberSubstitution d s) = .ok d.selfType := by
  obtain ⟨bindings, hinfer, hrenames⟩ := h.receiver
  obtain ⟨hname, hdims, hargs⟩ := receiver_of_infer hk.nodup hwild hinfer
  have hnone := h.get?_eq_none hn
  have hboth : List.Forall₂ (fun x a => a.applied = [] ∧
      a.subst (e.memberSubstitution d s).value = .plain (.named x)) d.typeParams.names
      receiver.args := by
    have hmem := (List.forall₂_and_left _ _).mpr ⟨fun _ => id, forall₂_and_mem_right hargs⟩
    refine hmem.imp fun x a hxa => ?_
    obtain ⟨hx, hget, ha⟩ := hxa
    cases a with
    | any | upper _ | lower _ => cases hwild _ ha
    | plain t =>
      obtain ⟨hbare, hvalue⟩ := hk.value_argument hwritten hrenames hx ha hget
      exact ⟨TypeExpr.applied_of_isBare hbare, TypeArg.subst_plain_of_some hbare hvalue⟩
  have hvalue : (e.memberSubstitution d s).value receiver.name = none := by
    rw [Substitution.value, Substitution.lookup_eq_none hnone]
    rfl
  refine receiver.replace_eq_ok_iff.mpr ⟨fun name hname => ?_, ?_⟩
  · rcases TypeExpr.mem_applied_cases hname with rfl | ⟨a, ha, hname⟩
    · simp [Substitution.contains, hnone]
    · obtain ⟨x, -, happlied, -⟩ := exists_left_of_forall₂ hboth a ha
      simp [happlied] at hname
  · have hmap : receiver.args.map (TypeArg.subst (e.memberSubstitution d s).value) =
        d.typeParams.asArgs := by
      rw [TypeParams.names, List.forall₂_map_left_iff] at hboth
      rw [TypeParams.asArgs, ← List.forall₂_eq_eq_eq, List.forall₂_map_left_iff,
        List.forall₂_map_right_iff]
      exact hboth.flip.imp fun _ _ hpa => hpa.2
    rw [TypeExpr.subst_of_none hvalue, hmap, hname, hdims]
    rfl

end BecomesMember

end Method

/-! ## Explicit methods -/

theorem receiver_of_receiverInterface? {r : Registry} {e : Method} {d : Definition}
    {receiver : TypeExpr} (h : receiverInterface? r e = some (d, receiver)) :
    ∃ p rest, e.params = p :: rest ∧ p.callType = receiver ∧
      receiver.name ∉ e.typeParams.names := by
  unfold receiverInterface? at h
  simp only [Option.bind_eq_bind, Option.bind_eq_some_iff, Option.guard_eq_some',
    List.head?_eq_some_iff] at h
  obtain ⟨p, ⟨rest, hp⟩, -, hn, d', -, -, -, he⟩ := h
  cases he
  exact ⟨p, rest, hp, rfl, by simpa [TypeParams.has] using hn⟩

theorem Registry.Noted.eq_of_isUnambiguous {r : Registry} {utility : String} {added : List Method}
    (hr : r.Noted utility added) {e e' : Method} (he : e ∈ r.explicitMethods)
    (he' : e' ∈ r.explicitMethods) (hu : r.isUnambiguous e = true)
    (h : e'.reducedSignature = e.reducedSignature) : e' = e := by
  by_contra hne
  rw [hr.isUnambiguous_iff, ← hr.reduced_explicitMethods, List.count_eq_countP,
    List.countP_map] at hu
  have hpair : [e', e].Subperm r.explicitMethods := by
    refine List.Nodup.subperm (by simp [hne]) fun m hm => ?_
    rcases List.mem_pair.mp hm with rfl | rfl
    · exact he'
    · exact he
  have hcount := hpair.countP_le ((· == e.reducedSignature) ∘ Method.reducedSignature)
  rw [hu] at hcount
  simp [h] at hcount

/-- **A member of an interface is an instance of the explicit method it delegates to.** It has the
reduced signature of the method. If the receiver has no wildcards, one substitution of the type
parameters turns its type into that of the interface and all other types into those of the member.
So different unambiguous methods become members of different signatures. -/
theorem interfaceMember_instance {r : Registry} {utility name : String} {added : List Method}
    (hr : r.Noted utility added) {d : Definition} {e member : Method} {receiver : TypeExpr}
    (he : e ∈ r.explicitMethods) (hreceiver : receiverInterface? r e = some (d, receiver))
    (hmember : interfaceMember? d e receiver name = .ok (some member))
    (hk : e.KeepsApart d member) :
    member.signature = e.reducedSignature ∧
    ((∀ a ∈ receiver.args, a.isWildcard = false) → ∃ s : Substitution,
      s.Instantiates e.typeParams.names ∧ e.TurnsInto s d.selfType member) ∧
    ∀ e' receiver' member', e' ∈ r.explicitMethods → e' ≠ e → r.isUnambiguous e = true →
      r.isUnambiguous e' = true → receiverInterface? r e' = some (d, receiver') →
      interfaceMember? d e' receiver' name = .ok (some member') → e'.KeepsApart d member' →
      member'.signature ≠ member.signature := by
  have howner : ∀ e ∈ r.explicitMethods, e.owner.typeParams = [] := by
    intro e he
    rw [hr.explicitMethods_eq] at he
    obtain ⟨m, -, rfl⟩ := List.mem_map.mp he
    rfl
  obtain ⟨s, hs⟩ := Method.exists_becomesMember hmember
  have hsignature := hs.signature_eq_reducedSignature hk (howner e he)
  refine ⟨hsignature, fun hwild => ?_, ?_⟩
  · obtain ⟨p, rest, hparams, rfl, hn⟩ := receiver_of_receiverInterface? hreceiver
    have hwritten : p.callType.Written := hk.written.callType (hparams ▸ List.mem_cons_self)
    have hrest := hs.params
    rw [hparams, List.drop_one, List.tail_cons] at hrest
    obtain ⟨thrown, hthrown, hthrows⟩ := hs.throws
    refine Method.exists_instance hk.written
      (fun name hn => Method.isBound_renameApart (e.mem_openUnder s) hn)
      (fun name _ hn => hs.get?_eq_none hn) (Method.turnsInto_of_replace hparams
        (hs.replace_receiver hk hwritten hn hwild) hrest hs.result hthrown hthrows)
  · intro e' receiver' member' he' hne hu hu' _ hmember' hk' hsame
    obtain ⟨s', hs'⟩ := Method.exists_becomesMember hmember'
    have hsignature' := hs'.signature_eq_reducedSignature hk' (howner e' he')
    refine hne (hr.eq_of_isUnambiguous he he' hu ?_)
    rw [← hsignature', ← hsignature, hsame]

/-- The interface `Base<B>`. -/
def zipInterface : Definition :=
  { Definition.interface "Base" with typeParams := .ofNames ["B"] }

/-- The explicit method `<A, B> Pair<B, A> zip(Base<A> self, B other, A... rest) throws B`, or the
same with a number in the place of `other`. -/
def zipMethod (other : TypeExpr) : Method :=
  { Method.make (Definition.namedClass "Forms").owner "zip"
      (.generic "Pair" [.plain (.named "B"), .plain (.named "A")])
      [{ type := .generic "Base" [.plain (.named "A")], name := "self" },
       { type := other, name := "other" },
       { type := .named "A", name := "rest", variadic := true }] with
    typeParams := .ofNames ["A", "B"]
    throws := .ofList [.named "B"] }

/-- The registry with the interface and both methods. -/
def zipModel : Registry :=
  (Registry.empty "Forms").after
    [.define zipInterface, .explicit (zipMethod (.named "B")), .explicit (zipMethod (.named "int"))]

theorem noted_zipModel :
    zipModel.Noted "Forms" [zipMethod (.named "B"), zipMethod (.named "int")] := by
  have hgranted : ((Registry.empty "Forms").granted [.define zipInterface,
      .explicit (zipMethod (.named "B")), .explicit (zipMethod (.named "int"))]).filterMap
      Registry.Request.explicit? = [zipMethod (.named "B"), zipMethod (.named "int")] := by
    decide +kernel
  rw [← hgranted]
  refine Registry.noted_after "Forms" _ fun m hm => ?_
  simp only [List.mem_cons, Registry.Request.explicit.injEq, List.not_mem_nil, or_false,
    reduceCtorEq, false_or] at hm
  obtain rfl | rfl := hm <;> rfl

/-- The type parameter `A` is renamed to the `B` of the interface, and `B` makes way for it. -/
theorem interfaceMember_instance_zip :
    ∃ d e e' receiver receiver' member member', zipModel.Noted "Forms"
        [zipMethod (.named "B"), zipMethod (.named "int")] ∧
      zipModel.explicitMethods = [e, e'] ∧
      receiverInterface? zipModel e = some (d, receiver) ∧
      receiverInterface? zipModel e' = some (d, receiver') ∧
      interfaceMember? d e receiver "Forms" = .ok (some member) ∧
      interfaceMember? d e' receiver' "Forms" = .ok (some member') ∧
      d.selfType.text = "Base<B>" ∧
      member.declaration = "<B1> Pair<B1, B> zip(B1 other, B... rest) throws B1" ∧
      member.signature = e.reducedSignature ∧
      (∃ s : Substitution, s.Instantiates ["A", "B"] ∧ e.TurnsInto s d.selfType member) ∧
      member'.signature ≠ member.signature := by
  have hnoted := noted_zipModel
  let e := (zipMethod (.named "B")).reown (Definition.namedClass "Forms").owner
  let e' := (zipMethod (.named "int")).reown (Definition.namedClass "Forms").owner
  have hmethods : zipModel.explicitMethods = [e, e'] := hnoted.explicitMethods_eq
  have hreceiver : receiverInterface? zipModel e =
      some (zipInterface, .generic "Base" [.plain (.named "A")]) := by decide +kernel
  have hreceiver' : receiverInterface? zipModel e' =
      some (zipInterface, .generic "Base" [.plain (.named "A")]) := by decide +kernel
  have hfound : (((interfaceMember? zipInterface e (.generic "Base" [.plain (.named "A")])
      "Forms").toOption.any fun member => member.any fun member =>
        decide (member.declaration = "<B1> Pair<B1, B> zip(B1 other, B... rest) throws B1") &&
          decide (e.KeepsApart zipInterface member)) &&
      (interfaceMember? zipInterface e' (.generic "Base" [.plain (.named "A")])
        "Forms").toOption.any fun member => member.any fun member =>
          decide (e'.KeepsApart zipInterface member)) = true := by
    decide +kernel
  rw [Bool.and_eq_true] at hfound
  obtain ⟨member?, hmember, hany⟩ := Except.exists_of_any hfound.1
  obtain ⟨member, rfl, hfirst⟩ := (Option.any_eq_true _ _).mp hany
  rw [Bool.and_eq_true, decide_eq_true_eq, decide_eq_true_eq] at hfirst
  obtain ⟨member'?, hmember', hany'⟩ := Except.exists_of_any hfound.2
  obtain ⟨member', rfl, hsecond⟩ := (Option.any_eq_true _ _).mp hany'
  obtain ⟨hsignature, hinstance, hapart⟩ := interfaceMember_instance hnoted
    (hmethods ▸ List.mem_cons_self) hreceiver hmember hfirst.2
  exact ⟨zipInterface, e, e', _, _, member, member', hnoted, hmethods, hreceiver, hreceiver',
    hmember, hmember', by decide +kernel, hfirst.1, hsignature, hinstance (by decide),
    hapart e' _ member' (hmethods ▸ by simp) (by decide +kernel) (by decide +kernel)
      (by decide +kernel) hreceiver' hmember' (of_decide_eq_true hsecond)⟩

end FluentGrammar
