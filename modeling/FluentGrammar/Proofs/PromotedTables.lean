import FluentGrammar.Proofs.ArchetypeMethods
import FluentGrammar.Proofs.Clashes
import FluentGrammar.Proofs.Replacement

/-!
# Tables after promotion

Promotion gives interfaces more methods, and all of these delegate to explicit ones. For the methods
of archetypes it makes no difference: whichever of them the table of an interface has afterwards, it
had a *twin* of it before, which every subtype sees under the same signature. Methods of archetypes
are simple enough for that: they have no type parameters and throw nothing.

* `Method.Simple`, `Method.Twin`: such methods, and two of them with the same types.
* `Method.Twin.exists_stub`, `Method.twin_of_matchesContract`: twins have twin stubs, and methods of
  one contract are twins.
* `Registry.Grounded.forall_mem_allMethods`: what is true of all methods in tables of interfaces.
* `promoteMethods_promotes`: what promotion does to definitions.
* **`Registry.exists_twin`**: the methods of archetypes have twins before promotion.
-/

namespace FluentGrammar

/-! ## Twins -/

theorem Param.replace_callType_eq_ok_iff {s : Substitution} {p : Param} {u : TypeExpr} :
    p.callType.replace s = .ok u ↔ ∃ q, p.replace s = .ok q ∧ q.callType = u := by
  have hreplace : ∀ q, p.replace s = .ok q ↔ ∃ t, p.type.replace s = .ok t ∧
      { p with type := t } = q := fun q => by
    rw [Param.replace, Except.bind_eq_ok_iff]
    simp only [Except.pure_eq_ok_iff]
  simp only [hreplace, TypeExpr.replace_eq_ok_iff, callType]
  cases p.variadic with
  | false => simp
  | true => simp [TypeExpr.applied_arrayOf, TypeExpr.subst_arrayOf]

theorem Param.mapM_callType_eq_ok_iff {s : Substitution} {ps : List Param} {ts : List TypeExpr} :
    (ps.map callType).mapM (TypeExpr.replace s) = .ok ts ↔
      ∃ qs, ps.mapM (Param.replace s) = .ok qs ∧ qs.map callType = ts := by
  simp only [Except.mapM_eq_ok_iff, List.forall₂_map_left_iff, replace_callType_eq_ok_iff]
  constructor
  · intro h
    induction h with
    | nil => exact ⟨[], .nil, rfl⟩
    | cons hp _ ih =>
      obtain ⟨q, hq, rfl⟩ := hp
      obtain ⟨qs, hqs, rfl⟩ := ih
      exact ⟨q :: qs, .cons hq hqs, rfl⟩
  · rintro ⟨qs, hqs, rfl⟩
    exact List.forall₂_map_right_iff.mpr (hqs.imp fun p q hq => ⟨q, hq, rfl⟩)

theorem OrderedSet.eq_empty_of_size {α : Type} [Ord α] {s : OrderedSet α} (h : s.size = 0) :
    s = ∅ := by
  obtain ⟨as, _⟩ := s
  obtain rfl := List.eq_nil_of_length_eq_zero h
  rfl

namespace Method

variable {m n b e : Method} {owner : Owner} {ancestor : TypeExpr}

/-- A method that has no type parameters and throws nothing. -/
structure Simple (m : Method) : Prop where
  typeParams : m.typeParams = []
  throws : m.throws = ∅

/-- Two simple methods of one owner that callers see with the same name and types. -/
structure Twin (m n : Method) : Prop where
  left : m.Simple
  right : n.Simple
  owner : m.owner = n.owner
  name : m.name = n.name
  result : m.result = n.result
  params : m.params.map Param.callType = n.params.map Param.callType

theorem Simple.twin (h : m.Simple) : m.Twin m :=
  ⟨h, h, rfl, rfl, rfl, rfl⟩

theorem Twin.symm (h : m.Twin n) : n.Twin m :=
  ⟨h.right, h.left, h.owner.symm, h.name.symm, h.result.symm, h.params.symm⟩

theorem Twin.trans (h₁ : m.Twin n) (h₂ : n.Twin b) : m.Twin b where
  left := h₁.left
  right := h₂.right
  owner := h₁.owner.trans h₂.owner
  name := h₁.name.trans h₂.name
  result := h₁.result.trans h₂.result
  params := h₁.params.trans h₂.params

theorem Twin.signature_eq (h : m.Twin n) : m.signature = n.signature := by
  have hscope : m.scope = n.scope := by
    rw [scope, h.left.typeParams, h.owner, scope, h.right.typeParams]
  have herased : ∀ ps : List Param, ps.map (fun p => p.callType.erasure n.scope) =
      (ps.map Param.callType).map (·.erasure n.scope) := fun ps => by simp [Function.comp_def]
  rw [signature, signature, signatureOf, hscope, h.name, herased, h.params, ← herased, signatureOf]

theorem Simple.stub (h : m.Simple) (hb : m.stub owner ancestor = .ok b) : b.Simple := by
  obtain ⟨hstub, _, _, _, _, hreplaces⟩ := stub_eq_ok hb
  obtain ⟨types, htypes, hthrows⟩ := hreplaces.throws
  refine ⟨?_, ?_⟩
  · have hbounds := hreplaces.bounds
    rw [h.typeParams] at hbounds
    exact List.forall₂_nil_left_iff.mp hbounds
  · rw [h.throws] at htypes
    rw [hthrows, ← Except.ok.inj htypes]
    rfl

/-- **Twins have twin stubs.** -/
theorem Twin.exists_stub (h : m.Twin n) (hb : n.stub owner ancestor = .ok b) :
    ∃ c, m.stub owner ancestor = .ok c ∧ c.Twin b := by
  have hsimple := h.right.stub hb
  unfold Method.stub at hb
  simp only [Except.bind_eq_ok_iff, Except.pure_eq_ok_iff] at hb
  obtain ⟨bindings, hbindings, typeParams, htypeParams, result, hresult, params, hparams, throws,
    hthrows, rfl⟩ := hb
  rw [h.right.typeParams] at htypeParams hresult hparams hthrows
  have hcall := Param.mapM_callType_eq_ok_iff.mpr ⟨params, hparams, rfl⟩
  rw [← h.params] at hcall
  obtain ⟨params', hparams', hsame⟩ := Param.mapM_callType_eq_ok_iff.mp hcall
  have hc : ∃ c, m.stub owner ancestor = .ok c ∧ c.owner = owner ∧ c.name = m.name ∧
      c.result = result ∧ c.params = params' := by
    unfold Method.stub
    simp only [Except.bind_eq_ok_iff, Except.pure_eq_ok_iff, h.left.typeParams, h.owner, h.result,
      h.left.throws]
    rw [h.right.throws] at hthrows
    exact ⟨_, ⟨bindings, hbindings, typeParams, htypeParams, result, hresult, params', hparams',
      throws, hthrows, rfl⟩, rfl, rfl, rfl, rfl⟩
  obtain ⟨c, hc, howner, hname, hresult', hparams''⟩ := hc
  exact ⟨c, hc, h.left.stub hc, hsimple, howner, hname.trans h.name, hresult',
    hparams'' ▸ hsame⟩

/-- **Methods of one contract are twins**, if one of them is simple. -/
theorem twin_of_matchesContract (hb : b.Simple) (ho : e.owner = b.owner)
    (h : e.matchesContract b = true) : e.Twin b := by
  obtain ⟨hsignature, hlength, hparams, hresult, hthrows, -⟩ := matchesContract_spec h
  have hrename : renameTo e b = ∅ := by
    rw [renameTo, hb.typeParams]
    simp [TypeParams.names, Substitution.unresolved]
  simp only [hrename, TypeExpr.replace_empty, Except.ok.injEq] at hparams hresult
  have hcall : e.params.map Param.callType = b.params.map Param.callType := by
    rw [← List.forall₂_eq_eq_eq, List.forall₂_map_left_iff, List.forall₂_map_right_iff]
    exact hparams.imp fun _ _ => Eq.symm
  have hsimple : e.Simple := by
    rw [hb.typeParams, List.length_nil, List.length_eq_zero_iff] at hlength
    rw [hb.throws] at hthrows
    exact ⟨hlength, OrderedSet.eq_empty_of_size hthrows⟩
  have hheads : e.outline.2 = b.outline.2 := by
    have hhead : e.head = b.head := by
      funext t
      rw [head, hsimple.typeParams, head, hb.typeParams]
    rw [outline, outline, hhead]
    simpa only [List.map_map, Function.comp_def] using congrArg (List.map b.head) hcall
  have houtline := outline_eq_of_signature (by rw [ho]) hsignature hheads
  exact ⟨hsimple, hb, ho, congrArg Prod.fst houtline, hresult.symm, hcall⟩

/-- A method without a word before its type. -/
structure Plain (m : Method) : Prop where
  access : m.access = .packageAccess
  modifiers : m.modifiers = ∅

theorem Plain.isHidden_eq_false (h : m.Plain) : m.isHidden = false := by
  rw [isHidden, isStatic, h.access, h.modifiers]
  rfl

theorem Plain.stub (h : m.Plain) (ho : owner.kind = .interface) (hb : m.IsStub owner b) :
    b.Plain := by
  refine ⟨?_, ?_⟩
  · rw [hb.access, ho]
    exact h.access
  · rw [hb.modifiers, ho]
    exact h.modifiers

end Method

/-! ## Tables of interfaces -/

namespace Registry

variable {settings : Settings} {r r' : Registry} {name : String} {d d' : Definition}
  {t t' : Table Method} {m n b : Method}

theorem Grounded.exists_interface (hg : r.Grounded) (hs : r.Sound) (hd : r.get? name = some d)
    (hk : d.kind = .interface) {parent : TypeExpr} (hp : parent ∈ d.supertypes) :
    ∃ p, r.get? parent.name = some p ∧ p.kind = .interface :=
  hs.hasInterface_iff.mp
    (hg.hasInterface_parent hs (hs.hasInterface_iff.mpr ⟨d, hd, hk⟩) hd parent hp)

/-- What is true of the methods of all interfaces and is inherited by interfaces is true of all
methods in their tables. -/
theorem Grounded.forall_mem_allMethods (hg : r.Grounded) (hs : r.Sound) {P : Method → Prop}
    (own : ∀ name d, r.get? name = some d → d.kind = .interface → ∀ m ∈ d.methods.values, P m)
    (stub : ∀ m b owner ancestor, owner.kind = .interface → m.stub owner ancestor = .ok b → P m →
      P b)
    (hd : r.get? d.name = some d) (hk : d.kind = .interface) (ht : r.allMethods d = .ok t) :
    ∀ m ∈ t.values, P m := by
  have hall : ∀ m ∈ t.values, d.kind = .interface → P m := by
    refine Registry.forall_mem_allMethods (fun _ _ => id)
      (fun d hd m hm hk => own _ d hd hk m hm)
      (fun d parent p m b hd hp hget _ hm _ hb hk => ?_) hd ht
    obtain ⟨_, _, hstub⟩ := Except.bind_eq_ok_iff.mp hb
    obtain ⟨p', hget', hkp⟩ := hg.exists_interface hs hd hk hp
    cases hget.symm.trans hget'
    exact stub m b _ _ hk hstub (hm hkp)
  exact fun m hm => hall m hm hk

theorem Archetyped.of_mem_allMethods (ha : r.Archetyped settings) (hs : r.Sound) (hg : r.Grounded)
    (hd : r.get? d.name = some d) (hk : d.kind = .interface) (ht : r.allMethods d = .ok t)
    (hm : m ∈ t.values) (hreserved : settings.isReserved m.name = true) :
    m.Simple ∧ m.Plain ∧ (archetypeMethodOf? r settings m).isSome = true := by
  refine hg.forall_mem_allMethods hs (P := fun m => settings.isReserved m.name = true →
    m.Simple ∧ m.Plain ∧ (archetypeMethodOf? r settings m).isSome = true)
    (fun name d hd hk m hm hreserved => ?_) (fun m b owner ancestor hk hb hm hreserved => ?_)
    hd hk ht m hm hreserved
  · obtain ⟨method, hmethod, rfl⟩ := (ha name d hd hk).reserved m hm hreserved
    refine ⟨⟨rfl, rfl⟩, ⟨rfl, rfl⟩, isSome_archetypeMethodOf? ?_ hmethod rfl⟩
    exact (congrArg r.get? (name_of_get? hd)).trans hd
  · obtain ⟨hstub, -⟩ := Method.stub_eq_ok hb
    obtain ⟨hsimple, hplain, hsome⟩ := hm (hstub.name ▸ hreserved)
    refine ⟨hsimple.stub hb, hplain.stub hk hstub, ?_⟩
    unfold archetypeMethodOf? at hsome ⊢
    rw [hstub.name, hstub.origin]
    exact hsome

theorem delegate_of_overrideFor (hb : r.overrideFor d m = .ok b) : b.delegate = m.delegate := by
  obtain ⟨_, _, hstub⟩ := Except.bind_eq_ok_iff.mp hb
  unfold Method.stub at hstub
  simp only [Except.bind_eq_ok_iff, Except.pure_eq_ok_iff] at hstub
  obtain ⟨_, _, _, _, _, _, _, _, _, _, rfl⟩ := hstub
  rfl

theorem exists_overrideFor_twin (h : m.Twin n) (hb : r.overrideFor d n = .ok b) :
    ∃ c, r.overrideFor d m = .ok c ∧ c.Twin b := by
  obtain ⟨ancestor, hancestor, hstub⟩ := Except.bind_eq_ok_iff.mp hb
  obtain ⟨c, hc, htwin⟩ := h.exists_stub hstub
  refine ⟨c, Except.bind_eq_ok_iff.mpr ⟨ancestor, ?_, hc⟩, htwin⟩
  rw [h.owner]
  exact hancestor

end Registry

/-! ## Promotion -/

/-- A definition after promotion: what is new delegates to explicit methods. -/
structure Definition.Promotes (d d' : Definition) : Prop where
  frame : d.SameFrame d'
  methods : ∀ m ∈ d'.methods.values, m ∈ d.methods.values ∨ m.Plain ∧ m.delegate ≠ none

theorem Definition.Promotes.refl (d : Definition) : d.Promotes d :=
  ⟨.refl d, fun _ => .inl⟩

theorem Definition.Promotes.trans {d d' d'' : Definition} (h₁ : d.Promotes d')
    (h₂ : d'.Promotes d'') : d.Promotes d'' :=
  ⟨h₁.frame.trans h₂.frame, fun m hm => (h₂.methods m hm).elim (h₁.methods m) .inr⟩

section Promotion

open Registry

variable {settings : Settings} {r r' : Registry}

theorem promoteMethod_promotes {m : Method} {u : Unit} (h : promoteMethod m r = .ok u r') :
    Related Definition.Promotes r r' := by
  rcases promoteMethod_cases h with rfl | ⟨d, receiver, member, hrec, hmember, hadd⟩
  · exact .refl .refl r'
  · have hnote : Related Definition.Promotes r (r.recordPromotion m d.name member) :=
      .of_get?_eq .refl fun _ => rfl
    refine hnote.trans (fun _ _ _ => .trans) (.addMethod .refl (fun e e' hadd => ?_) hadd)
    refine ⟨Definition.sameFrame_of_addMethod hadd, fun n hn => ?_⟩
    obtain ⟨hnew, rfl⟩ := Definition.addMethod_eq_ok_iff.mp hadd
    rw [Table.values, Table.entries_insert_of_not_mem hnew, List.map_append] at hn
    rcases List.mem_append.mp hn with hn | hn
    · exact .inl hn
    · obtain ⟨_, _, _, _, rfl⟩ := interfaceMember?_spec hmember
      obtain rfl := List.mem_singleton.mp hn
      exact .inr ⟨⟨rfl, rfl⟩, by simp [Method.reown]⟩

theorem promoteMethods_promotes {u : Unit} (h : promoteMethods r = .ok u r') :
    Related Definition.Promotes r r' := by
  obtain ⟨s, _, hget, h⟩ := Resolution.bind_eq_ok_iff.mp h
  obtain ⟨rfl, rfl⟩ := Resolution.get_eq_ok_iff.mp hget
  refine Resolution.forM_induction (Related Definition.Promotes r) (fun m _ s t _ hs hstep => ?_)
    (.refl .refl r) h
  exact hs.trans (fun _ _ _ => .trans)
    (promoteMethod_promotes (Resolution.located_eq_ok_iff.mp hstep))

end Promotion

namespace Registry

variable {settings : Settings} {r r' : Registry} {d d' : Definition} {t t' : Table Method}

/-- **Methods of archetypes have twins** in the table as it was before promotion. -/
theorem exists_twin (h : Related Definition.Promotes r r') (hs : r.Sound) (hg : r.Grounded)
    (ha : r.Archetyped settings) (hd : r.get? d.name = some d) (hk : d.kind = .interface)
    (hd' : r'.get? d.name = some d') (ht : r.allMethods d = .ok t)
    (ht' : r'.allMethods d' = .ok t') :
    ∀ m ∈ t'.values, settings.isReserved m.name = true → m.delegate = none →
      ∃ n ∈ t.values, m.Twin n := by
  have hframe : SameFrame r r' := h.imp fun _ _ hd => hd.frame
  refine allMethods_induction (motive := fun d' t' => ∀ d t, r.get? d.name = some d →
    d.kind = .interface → r'.get? d.name = some d' → r.allMethods d = .ok t →
    ∀ m ∈ t'.values, settings.isReserved m.name = true → m.delegate = none →
      ∃ n ∈ t.values, m.Twin n) (fun d' t' ht' ih d t hd hk hd' ht m hm hreserved hdelegate => ?_)
    ht' d t hd hk hd' ht
  obtain ⟨e', he', hpromotes⟩ := h.exists_of_get? hd
  cases hd'.symm.trans he'
  rcases mem_values_allMethods ht' hm with hown | ⟨-, parent, hp, p', u', e, hget', hu', he, hover⟩
  · -- A method of the interface itself that does not delegate was there before.
    have hm := (hpromotes.methods m hown).resolve_right fun hnew => hnew.2 hdelegate
    have hmem := mem_values_of_get? (get?_allMethods_of_own ht
      ((hs.wellFormed d (mem_of_get? hd)).get?_signature hm))
    exact ⟨m, hmem, (ha.of_mem_allMethods hs hg hd hk ht hmem hreserved).1.twin⟩
  · -- What it is a stub of has a twin in the table of the parent, which leaves a stub here.
    rw [hpromotes.frame.supertypes] at hp
    obtain ⟨p, hget, hkp⟩ := hg.exists_interface hs hd hk hp
    have hpname := name_of_get? hget
    obtain ⟨u, -, hu⟩ := exists_inheritVia_of_mem ht hp hget
    have hu := allMethods_of_inheritVia hu
    have hstub := isStub_of_overrideFor hover
    obtain ⟨v, hv, hall⟩ := ih parent (hpromotes.frame.supertypes ▸ hp) p' hget'
    cases hu'.symm.trans hv
    obtain ⟨n, hn, htwin⟩ := hall p u (hpname ▸ hget) hkp (hpname ▸ hget') hu e
      (mem_visible.mp he).1 (hstub.name ▸ hreserved) (delegate_of_overrideFor hover ▸ hdelegate)
    have hvisible : n ∈ visible u := mem_visible.mpr ⟨hn, (ha.of_mem_allMethods hs hg
      (hpname ▸ hget) hkp hu hn (htwin.name ▸ hstub.name ▸ hreserved)).2.1.isHidden_eq_false⟩
    obtain ⟨b, c, hb, hc, hmatch⟩ := exists_of_mem_visible ht hp hget hu hvisible
    obtain ⟨m', hm', hmb⟩ := exists_overrideFor_twin htwin hb
    rw [hframe.overrideFor_eq hpromotes.frame, hm', Except.ok.injEq] at hover
    subst hover
    have hmem := mem_values_of_get? hc
    rcases hmatch with rfl | hmatch
    · exact ⟨c, hmem, hmb⟩
    · have howner : c.owner = b.owner :=
        (owner_of_mem_allMethods (hs.wellFormed d (mem_of_get? hd)).holdsMethods ht hmem).1.trans
          (isStub_of_overrideFor hb).owner.symm
      exact ⟨c, hmem, hmb.trans (Method.twin_of_matchesContract hmb.right howner hmatch).symm⟩

end Registry

end FluentGrammar
