import FluentGrammar.Proofs.PossibleNames
import FluentGrammar.Proofs.PromotedTables
import FluentGrammar.Proofs.SelectionOptimum
import FluentGrammar.Proofs.StubTypes

/-!
# Members as instances of explicit methods

A member that is made of an explicit method forwards to it, so it has to be an instance of that
method: one substitution of the type parameters turns the type of the receiver into that of `this`,
and all other types into those of the member. Inference gives the substitution for the parameters
that the receiver mentions. The others are renamed, and wildcards that were captured on the way are
put in the place of their names.

* `Substitution.Instantiates`, `Substitution.exists_instantiates`: substitutions of given names.
* `Method.TurnsInto`: the types of a member are those of the method with names replaced.
* `Method.exists_instance`: captured wildcards are not needed for that.
* `replace_renameApart`: parameters that are renamed apart make no difference to the receiver.
* **`materialize_instance`**: the member that a class gets.
-/

namespace FluentGrammar

/-! ## Substitutions of type parameters -/

namespace Substitution

variable {names : List String} {s : Substitution} {name : String}

/-- The substitution has an argument for each of the names, and nothing else. -/
structure Instantiates (names : List String) (s : Substitution) : Prop where
  keys : ∀ name, s.contains name = true ↔ name ∈ names
  bound : ∀ name ∈ names, s.isBound name = true

theorem get?_eq_none_of_not_contains (h : ¬ s.contains name = true) : s.get? name = none := by
  simpa [contains] using h

theorem Instantiates.lookup_eq_none (h : s.Instantiates names) (hn : name ∉ names) :
    s.lookup name = none :=
  Substitution.lookup_eq_none (get?_eq_none_of_not_contains (mt (h.keys name).mp hn))

theorem follow_eq_self (h : ∀ name, isCapture name = true → s.get? name = none) (arg : TypeArg) :
    s.follow arg = arg := by
  unfold follow
  cases arg with
  | plain t =>
    cases hc : isCapture t.name with
    | false => simp [hc]
    | true => simp [hc, h t.name hc]
  | any | upper _ | lower _ => rfl

/-- What is found under some names can be put there right away. -/
theorem exists_instantiates (hc : ∀ name ∈ names, isCapture name = false)
    (hb : ∀ name ∈ names, s.isBound name = true) :
    ∃ s' : Substitution, s'.Instantiates names ∧
      ∀ name ∈ names, s'.lookup name = s.lookup name := by
  let value : String → TypeArg := fun name => (s.value name).getD .any
  let s' : Substitution := names.foldl (fun s name => s.set name (value name)) ∅
  have hnone : ∀ name, name ∉ names → s'.get? name = none := fun name hn =>
    get?_foldl_set id value names ∅ fun n hm he => hn (he ▸ hm)
  have hsome : ∀ name ∈ names, s'.get? name = some (some (value name)) := by
    intro name hn
    obtain ⟨n, -, rfl, hget⟩ := exists_get?_foldl_set id value names ∅
      (show name ∈ names.map id by rwa [List.map_id])
    exact hget
  refine ⟨s', ⟨fun name => ⟨fun h => ?_, fun hn => contains_of_get? (hsome name hn)⟩,
    fun name hn => isBound_iff.mpr ⟨_, hsome name hn⟩⟩, fun name hn => ?_⟩
  · by_contra hn
    simp [contains, hnone name hn] at h
  · obtain ⟨arg, harg⟩ := isBound_iff.mp (hb name hn)
    have hfollow : s'.follow (value name) = value name := follow_eq_self (fun capture hcapture =>
      hnone capture fun hm => by simp [hc capture hm] at hcapture) _
    have hlookup : s.lookup name = some (some (s.follow arg)) := by
      rw [lookup, harg, Option.map_some, Option.map_some]
    rw [hlookup, lookup, hsome name hn, Option.map_some, Option.map_some, hfollow]
    simp [value, Substitution.value, hlookup]

end Substitution

/-! ## Instances of a method -/

theorem Param.mentions_callType (p : Param) (name : String) :
    p.callType.mentions name = p.type.mentions name := by
  unfold callType
  split
  · rw [TypeExpr.mentions_arrayOf]
  · rfl

/-- The second parameter is the first one with names replaced in its type. -/
structure Param.TurnsInto (s : Substitution) (p q : Param) : Prop where
  type : p.type.replace s = .ok q.type
  callType : p.callType.replace s = .ok q.callType
  name : q.name = p.name
  variadic : q.variadic = p.variadic
  modifiers : q.modifiers = p.modifiers

theorem Param.turnsInto_of_replace {s : Substitution} {p q : Param} (h : p.replace s = .ok q) :
    p.TurnsInto s q := by
  have hcall : p.callType.replace s = .ok q.callType :=
    replace_callType_eq_ok_iff.mpr ⟨q, h, rfl⟩
  rw [Param.replace, Except.bind_eq_ok_iff] at h
  obtain ⟨t, ht, he⟩ := h
  obtain rfl := Except.pure_eq_ok_iff.mp he
  exact ⟨ht, hcall, rfl, rfl, rfl⟩

namespace Method

variable {m member : Method} {s s' : Substitution} {receiver : TypeExpr}

/-- The substitution turns the type of the receiver into the given one, and the types of the
remaining parameters, the result and the thrown types into those of the member. -/
structure TurnsInto (s : Substitution) (m : Method) (receiver : TypeExpr) (member : Method) :
    Prop where
  params : ∃ p rest, m.params = p :: rest ∧ p.callType.replace s = .ok receiver ∧
    List.Forall₂ (Param.TurnsInto s) rest member.params
  result : m.result.replace s = .ok member.result
  throws : ∀ t, t ∈ member.throws ↔ ∃ u ∈ m.throws, u.replace s = .ok t
  thrown : ∀ u ∈ m.throws, ∃ t, u.replace s = .ok t

/-- Neither the type parameters nor the types of the method have names of captured wildcards. -/
structure Written (m : Method) : Prop where
  names : ∀ name ∈ m.typeParams.names, isCapture name = false
  types : ∀ t ∈ m.types, t.Written

theorem Written.callType (hm : m.Written) {p : Param} (hp : p ∈ m.params) : p.callType.Written := by
  intro name hn
  rw [Param.mentions_callType] at hn
  exact hm.types _ (mem_types.mpr (.inr (.inl ⟨p, hp, rfl⟩))) name hn

theorem TurnsInto.congr (h : m.TurnsInto s receiver member)
    (hsame : ∀ t ∈ m.types, ∀ name, t.mentions name = true → s'.lookup name = s.lookup name) :
    m.TurnsInto s' receiver member := by
  have htypes : ∀ t ∈ m.types, t.replace s' = t.replace s := fun t ht =>
    t.replace_congr (hsame t ht)
  have htype : ∀ p ∈ m.params, p.type.replace s' = p.type.replace s := fun p hp =>
    htypes _ (mem_types.mpr (.inr (.inl ⟨p, hp, rfl⟩)))
  have hcallType : ∀ p ∈ m.params, p.callType.replace s' = p.callType.replace s := by
    intro p hp
    refine TypeExpr.replace_congr _ fun name hn => ?_
    rw [Param.mentions_callType] at hn
    exact hsame p.type (mem_types.mpr (.inr (.inl ⟨p, hp, rfl⟩))) name hn
  have hthrown : ∀ u ∈ m.throws, u.replace s' = u.replace s := fun u hu =>
    htypes u (mem_types.mpr (.inr (.inr (.inl hu))))
  obtain ⟨p, rest, hparams, hreceiver, hrest⟩ := h.params
  rw [hparams] at htype hcallType
  refine ⟨⟨p, rest, hparams, ?_, ?_⟩, ?_, fun t => (h.throws t).trans ?_, fun u hu => ?_⟩
  · rw [hcallType p List.mem_cons_self, hreceiver]
  · have hmem := (List.forall₂_and_left rest member.params).mpr ⟨fun _ => id, hrest⟩
    refine hmem.imp fun q q' hq => ⟨?_, ?_, hq.2.name, hq.2.variadic, hq.2.modifiers⟩
    · rw [htype q (List.mem_cons_of_mem _ hq.1), hq.2.type]
    · rw [hcallType q (List.mem_cons_of_mem _ hq.1), hq.2.callType]
  · rw [htypes m.result (mem_types.mpr (.inl rfl)), h.result]
  · exact exists_congr fun u => and_congr_right fun hu => by rw [hthrown u hu]
  · rw [hthrown u hu]
    exact h.thrown u hu

theorem turnsInto_of_replace {p : Param} {rest : List Param} {thrown : List TypeExpr}
    (hparams : m.params = p :: rest) (hreceiver : p.callType.replace s = .ok receiver)
    (hrest : rest.mapM (Param.replace s) = .ok member.params)
    (hresult : m.result.replace s = .ok member.result)
    (hthrown : m.throws.toList.mapM (TypeExpr.replace s) = .ok thrown)
    (hthrows : member.throws = .ofList thrown) : m.TurnsInto s receiver member := by
  have hforall := Except.mapM_eq_ok_iff.mp hthrown
  refine ⟨⟨p, rest, hparams, hreceiver, ?_⟩, hresult, fun t => ?_, fun u hu => ?_⟩
  · exact (Except.mapM_eq_ok_iff.mp hrest).imp fun _ _ => Param.turnsInto_of_replace
  · rw [hthrows, OrderedSet.mem_ofList]
    refine ⟨fun ht => exists_left_of_forall₂ hforall t ht, ?_⟩
    rintro ⟨u, hu, he⟩
    obtain ⟨t', ht', he'⟩ := exists_right_of_forall₂ hforall u hu
    exact Except.ok.inj (he'.symm.trans he) ▸ ht'
  · obtain ⟨t, -, ht⟩ := exists_right_of_forall₂ hforall u hu
    exact ⟨t, ht⟩

/-- **Captured wildcards are not needed**: what they stand for can be put in the place of the type
parameters right away. -/
theorem exists_instance (hm : m.Written)
    (hbound : ∀ name ∈ m.typeParams.names, s.isBound name = true)
    (hnone : ∀ name, isCapture name = false → name ∉ m.typeParams.names → s.get? name = none)
    (h : m.TurnsInto s receiver member) :
    ∃ s' : Substitution, s'.Instantiates m.typeParams.names ∧ m.TurnsInto s' receiver member := by
  obtain ⟨s', hs', hlookup⟩ := Substitution.exists_instantiates hm.names hbound
  refine ⟨s', hs', h.congr fun t ht name hn => ?_⟩
  by_cases hmem : name ∈ m.typeParams.names
  · exact hlookup name hmem
  · rw [hs'.lookup_eq_none hmem,
      Substitution.lookup_eq_none (hnone name (hm.types t ht name hn) hmem)]

/-! ## Parameters that are renamed apart -/

section RenameApart

variable {outer inner names : List String} {remaining : TypeParams} {name : String}
  (hrem : ∀ name, name ∈ remaining.names ↔ name ∈ names ∧ s.isBound name = false)
include hrem

theorem isBound_renameApart (hn : name ∈ names) :
    (renameApart outer inner remaining s).2.isBound name = true := by
  rw [Substitution.isBound, get?_renameApart]
  split
  · rfl
  · rename_i hnot
    rw [hrem] at hnot
    exact Bool.of_not_eq_false fun hb => hnot ⟨hn, hb⟩

theorem get?_renameApart_of_isBound (hb : s.isBound name = true) :
    (renameApart outer inner remaining s).2.get? name = s.get? name := by
  rw [get?_renameApart, if_neg fun hmem => ?_]
  simp [((hrem name).mp hmem).2] at hb

theorem get?_renameApart_of_not_mem (hn : name ∉ names) :
    (renameApart outer inner remaining s).2.get? name = s.get? name := by
  rw [get?_renameApart, if_neg fun hmem => hn ((hrem name).mp hmem).1]

/-- A type that mentions bound parameters only does not see the renamed ones. -/
theorem replace_renameApart (hc : ∀ name ∈ names, isCapture name = false) {t : TypeExpr}
    (ht : ∀ name ∈ names, t.mentions name = true → s.isBound name = true) :
    t.replace (renameApart outer inner remaining s).2 = t.replace s := by
  refine t.replace_congr fun name hn => Substitution.lookup_congr (fun capture hcapture => ?_) ?_
  · refine get?_renameApart_of_not_mem hrem fun hmem => ?_
    simp [hc capture hmem] at hcapture
  · by_cases hmem : name ∈ names
    · exact get?_renameApart_of_isBound hrem (ht name hmem hn)
    · exact get?_renameApart_of_not_mem hrem hmem

end RenameApart

end Method

/-! ## Members of classes -/

section Materialize

variable {d : Definition} {c : Candidate} {utility : String} {member : Method}

/-- The parameters of a selected method that its receiver leaves open. -/
def Candidate.openParams (c : Candidate) : TypeParams :=
  c.method.typeParams.filter fun p => !c.bindings.isBound p.name

theorem Candidate.mem_openParams (c : Candidate) (name : String) :
    name ∈ c.openParams.names ↔
      name ∈ c.method.typeParams.names ∧ c.bindings.isBound name = false := by
  simp only [openParams, TypeParams.names, List.mem_map, List.mem_filter, Bool.not_eq_true']
  grind

/-- What the types of a selected method are replaced by. -/
def Candidate.substitution (d : Definition) (c : Candidate) : Substitution :=
  (Method.renameApart d.typeParams.names c.method.typeParams.names c.openParams c.bindings).2

theorem parts_of_materialize (h : materialize d c utility = .ok member) :
    (c.method.params.drop 1).mapM (Param.replace (c.substitution d)) = .ok member.params ∧
    (∃ thrown, c.method.throws.toList.mapM (TypeExpr.replace (c.substitution d)) = .ok thrown ∧
      member.throws = .ofList thrown) ∧
    c.method.result.replace (c.substitution d) = .ok member.result ∧
    member.typeParams.names = c.openParams.names.map
      (Method.uncapturedName d.typeParams.names c.method.typeParams.names) ∧
    member.name = c.method.name ∧
    member.body = some (member.forward (utility ++ "." ++ c.method.name)
      (some ("(" ++ c.ancestor.text ++ ") this"))) := by
  unfold materialize at h
  simp only [Except.bind_eq_ok_iff, Except.pure_eq_ok_iff] at h
  obtain ⟨params, hparams, thrown, hthrown, result, hresult, typeParams, htypeParams, rfl⟩ := h
  exact ⟨hparams, ⟨thrown, hthrown, rfl⟩, hresult,
    (TypeParams.names_of_replace htypeParams).trans (Method.names_renameApart _ _ _ _), rfl, rfl⟩

theorem accepts_of_select {r : Registry} {ms : List Method}
    (h : select r d ms = .ok (some c)) :
    ∃ ancestors, r.ancestors d = .ok ancestors ∧ ∃ m ∈ ms, Accepts ancestors m c := by
  simp only [select, TableSource.select, Except.bind_eq_ok_iff] at h
  obtain ⟨ancestors, hancestors, scored, hscored, h⟩ := h
  refine ⟨ancestors, hancestors, mem_acceptable.mp ?_⟩
  have hbest : c ∈ richest scored := by
    split at h
    · cases Except.pure_eq_ok_iff.mp h
    · rename_i best he
      cases Except.pure_eq_ok_iff.mp h
      rw [he]
      exact List.mem_singleton_self c
    · cases h
  have hmem : c ∈ scored.map Prod.snd := by
    unfold richest at hbest
    split at hbest
    · obtain ⟨e, he, rfl⟩ := List.mem_map.mp hbest
      exact List.mem_map_of_mem (List.mem_of_mem_filter he)
    · cases hbest
  obtain ⟨e, he, rfl⟩ := List.mem_map.mp hmem
  obtain ⟨c, hc, hpair⟩ := Except.exists_of_mem_mapM hscored e he
  simp only [Except.bind_eq_ok_iff, Except.pure_eq_ok_iff] at hpair
  obtain ⟨k, -, rfl⟩ := hpair
  exact (mem_nearest.mp hc).1

/-- What inference finds out about the receiver is enough to turn its type into the ancestor. -/
theorem replace_receiver {p : Param} {rest : List Param} (hm : c.method.Written)
    (ha : c.ancestor.Written) (hparams : c.method.params = p :: rest)
    (hinfer : c.method.typeParams.infer p.callType c.ancestor = .ok c.bindings) :
    p.callType.replace (c.substitution d) = .ok c.ancestor := by
  have hp : p.callType.Written := hm.callType (hparams ▸ List.mem_cons_self)
  have hbound : ∀ name ∈ c.method.typeParams.names, p.callType.mentions name = true →
      c.bindings.isBound name = true := fun name hn hmentions =>
    isBound_of_infer hp (hm.names name hn) hn hmentions hinfer
  rw [Candidate.substitution, Method.replace_renameApart c.mem_openParams hm.names hbound]
  obtain ⟨j, hj, hbindings⟩ := exists_unify_of_infer hinfer
  exact replace_of_unify p.callType c.ancestor hp ha (.start _) hj (hbindings ▸ .refl _)

end Materialize

/-- **A member of a class is an instance of the explicit method it forwards to.** The receiver is
one of the ancestors of the class, and one substitution of the type parameters turns its type into
this ancestor and all other types into those of the member. So the call in the body has an argument
for each parameter, of the right type. -/
theorem materialize_instance {r : Registry} {d : Definition} {ms : List Method} {c : Candidate}
    {utility : String} {member : Method}
    (hr : ∀ e ∈ r.definitions ++ r.anonymous, ∀ t ∈ e.supertypes, t.Written)
    (hd : d ∈ r.definitions ++ r.anonymous) (hms : ∀ m ∈ ms, m.Written)
    (hselect : select r d ms = .ok (some c)) (hmember : materialize d c utility = .ok member) :
    c.method ∈ ms ∧
    (∃ ancestors, r.ancestors d = .ok ancestors ∧ c.ancestor ∈ ancestors) ∧
    (∃ s : Substitution, s.Instantiates c.method.typeParams.names ∧
      c.method.TurnsInto s c.ancestor member) ∧
    member.name = c.method.name ∧
    member.body = some ((if member.isVoid then "" else "return ") ++
      (utility ++ "." ++ member.name) ++ "(" ++
      Text.joinWith ", " (("(" ++ c.ancestor.text ++ ") this") ::
        c.method.params.tail.map Param.name) ++ ");") := by
  obtain ⟨ancestors, hancestors, m, hmem, rfl, ⟨p, rest, hparams, -, hinfer⟩, before, after, rfl,
    -⟩ := accepts_of_select hselect
  have hm := hms _ hmem
  have ha : c.ancestor ∈ before ++ c.ancestor :: after := by simp
  have hup : r.Among {name | isCapture name = false} := fun name e he =>
    hr e (Registry.mem_of_get? he)
  have hwritten : c.ancestor.Written :=
    hup.ancestorsVia (by decide +kernel) hancestors (hr d hd) c.ancestor ha
  have hp : p.callType.Written := hm.callType (hparams ▸ List.mem_cons_self)
  obtain ⟨hrest, ⟨thrown, hthrown, hthrows⟩, hresult, -, hname, hbody⟩ :=
    parts_of_materialize hmember
  rw [hparams, List.drop_one, List.tail_cons] at hrest
  have hturns : c.method.TurnsInto (c.substitution d) c.ancestor member :=
    Method.turnsInto_of_replace hparams (replace_receiver hm hwritten hparams hinfer) hrest hresult
      hthrown hthrows
  have hnone : ∀ name, isCapture name = false → name ∉ c.method.typeParams.names →
      (c.substitution d).get? name = none := by
    intro name hc hn
    rw [Candidate.substitution, Method.get?_renameApart_of_not_mem c.mem_openParams hn]
    exact get?_eq_none_of_infer hp hc hn hinfer
  refine ⟨hmem, ⟨_, hancestors, ha⟩, ?_, hname, ?_⟩
  · exact Method.exists_instance hm
      (fun name hn => Method.isBound_renameApart c.mem_openParams hn) hnone hturns
  · obtain ⟨p', rest', hparams', -, hforall⟩ := hturns.params
    obtain ⟨rfl, rfl⟩ := List.cons.inj (hparams.symm.trans hparams')
    have hnames : member.params.map Param.name = rest.map Param.name := by
      rw [← List.forall₂_eq_eq_eq, List.forall₂_map_left_iff, List.forall₂_map_right_iff]
      exact hforall.flip.imp fun _ _ hpq => hpq.name
    rw [hbody, Method.forward, hnames, hparams, hname]
    rfl

/-- The explicit method `<T, U> T put(Base<T> self, U key, List<T>... rest) throws Failure, T`. -/
def storing : Method :=
  { Method.make default "put" (.named "T")
      [{ type := .generic "Base" [.plain (.named "T")], name := "self" },
       { type := .named "U", name := "key" },
       { type := .generic "List" [.plain (.named "T")], name := "rest", variadic := true }] with
    typeParams := .ofNames ["T", "U"]
    throws := .ofList [.named "Failure", .named "T"] }

/-- The class `C<U>` implements `Base<?>`. -/
def storeModel : Registry :=
  { Registry.empty "Forms" with
    definitions :=
      [{ Definition.interface "Base" with typeParams := .ofNames ["X"] },
       { (Definition.namedClass "C").implementing (.generic "Base" [.any]) with
          typeParams := .ofNames ["U"] }] }

/-- The wildcard of the ancestor is put in the place of `T`, and `U` is renamed since the class has
a type parameter of this name. -/
theorem materialize_instance_store :
    ∃ d c member, storeModel.get? "C" = some d ∧ select storeModel d [storing] = .ok (some c) ∧
      materialize d c "Forms" = .ok member ∧ c.ancestor = .generic "Base" [.any] ∧
      member.declaration =
        "public final <U1> Object put(U1 key, List<?>... rest) throws Failure, Object" ∧
      member.body = some "return Forms.put((Base<?>) this, key, rest);" ∧
      ∃ s : Substitution, s.Instantiates ["T", "U"] ∧ storing.TurnsInto s c.ancestor member := by
  have hfound : ((storeModel.get? "C").any fun d =>
      (select storeModel d [storing]).toOption.any fun c => c.any fun c =>
        (materialize d c "Forms").toOption.any fun member =>
          decide (c.ancestor = .generic "Base" [.any]) &&
          decide (member.declaration =
            "public final <U1> Object put(U1 key, List<?>... rest) throws Failure, Object") &&
          decide (member.body = some "return Forms.put((Base<?>) this, key, rest);")) = true := by
    decide +kernel
  obtain ⟨d, hd, hfound⟩ := (Option.any_eq_true _ _).mp hfound
  obtain ⟨c?, hselect, hfound⟩ := Except.exists_of_any hfound
  obtain ⟨c, rfl, hfound⟩ := (Option.any_eq_true _ _).mp hfound
  obtain ⟨member, hmember, hfound⟩ := Except.exists_of_any hfound
  simp only [Bool.and_eq_true, decide_eq_true_eq] at hfound
  obtain ⟨⟨hancestor, hdeclaration⟩, hbody⟩ := hfound
  have hwritten : storing.Written := ⟨by decide +kernel, by decide +kernel⟩
  obtain ⟨hmem, -, ⟨s, hs, hturns⟩, -⟩ := materialize_instance
    (show ∀ e ∈ storeModel.definitions ++ storeModel.anonymous, ∀ t ∈ e.supertypes, t.Written by
      decide +kernel)
    (Registry.mem_of_get? hd) (by simpa using hwritten) hselect hmember
  rw [List.mem_singleton.mp hmem] at hs hturns
  exact ⟨d, c, member, hd, hselect, hmember, hancestor, hdeclaration, hbody, s, hs, hturns⟩

end FluentGrammar
