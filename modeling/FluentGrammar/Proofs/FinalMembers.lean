import FluentGrammar.Proofs.FinalMethods
import FluentGrammar.Proofs.StageTables
import Mathlib.Logic.Relation

/-!
# Final members of classes

A member that a class gets out of an explicit method is final. Classes get their members one after
the other in the order of registration, and each gets only what its table does not have. So a class
does not override a member that its superclass has got before, as long as no type parameters change
the signature on the way down. It may well have a method of that signature already, or be handled
before the superclass.

* `Registry.RespectsFinal`: no class has a method that is final in a class above.
* `exists_visible_of_chain`: what a class has is in the tables of all classes below.
* `SelectedUpTo`: the state after some classes have got their members.
* **`respectsFinal_iff`**: when final methods are respected.
-/

namespace FluentGrammar

open Relation

/-! ## Signatures without type parameters -/

namespace Method

variable {m b : Method} {target : Owner} {ancestor : TypeExpr}

theorem get?_of_ownerBindings {bindings : Substitution} {owner : Owner}
    (ho : owner.typeParams = []) (h : ownerBindings owner ancestor = .ok bindings) (name : String) :
    bindings.get? name = none := by
  unfold ownerBindings at h
  rw [if_neg (by simp [ho])] at h
  obtain ⟨j, rfl, _, hlength, hunify⟩ := unifyArgs_of_infer_selfType h
  rw [ho] at hlength hunify
  rw [List.eq_nil_of_length_eq_zero hlength.symm] at hunify
  obtain rfl := Except.ok.inj hunify
  rfl

theorem uncapturedName_nil (inner : List String) : uncapturedName [] inner = id :=
  funext fun _ => if_neg List.not_mem_nil

theorem signature_of_stub (hm : m.owner.typeParams = []) (ht : target.typeParams = [])
    (h : m.stub target ancestor = .ok b) : b.signature = m.signature := by
  obtain ⟨hstub, bindings, s, hb, hs, hreplaces⟩ := stub_eq_ok h
  have hnames : b.typeParams.names = m.typeParams.names := by
    rw [hstub.typeParams, ht, uncapturedName_nil, List.map_id]
  have hget : ∀ name, s.get? name =
      if name ∈ m.typeParams.names then some (some (.plain (.named name))) else none := fun name => by
    rw [hs, get?_of_ownerBindings hm hb, ht, uncapturedName_nil]
    rfl
  have hheads : List.Forall₂ (fun p q => b.head q.callType = m.head p.callType)
      m.params b.params := hreplaces.params.imp fun p q hpq => by
    have hhead := Param.head_of_replace hpq
    rcases s.replaceHead_cases p.callType.name p.callType.dims with ⟨arg, hl, he⟩ | ⟨hl, he⟩
    · -- A type parameter of the method is replaced by one, which may be another one.
      obtain ⟨other, hother⟩ := Substitution.exists_get?_of_lookup hl
      have hp : p.callType.name ∈ m.typeParams.names := by
        by_contra hn
        simp [Substitution.lookup, hget, hn] at hl
      rw [hget] at hother
      split at hother
      · rename_i hmem
        cases hother
        obtain ⟨hname, hdims⟩ := Prod.mk.inj (he.symm.trans hhead)
        have hq : q.callType.name ∈ m.typeParams.names := Option.some.inj hname ▸ hmem
        rw [head, head, hnames, if_pos hp, if_pos hq, ← hdims]
        exact congrArg _ (Nat.zero_add _)
      · cases hother
    · have hn : p.callType.name ∉ m.typeParams.names := fun hn => by
        simp [Substitution.isBound, hget, hn] at hl
      obtain ⟨hname, hdims⟩ := Prod.mk.inj (he.symm.trans hhead)
      rw [head, head, hnames, ← Option.some.inj hname, ← hdims, if_neg hn]
  refine signature_eq_of_outline (by rw [hstub.owner, ht, hm]) (Prod.ext hstub.name ?_)
  rw [outline, outline, ← List.forall₂_eq_eq_eq, List.forall₂_map_left_iff,
    List.forall₂_map_right_iff]
  exact hheads.flip

end Method

/-! ## Methods of classes above -/

namespace Registry

/-- The class of a name has a method of its own with the signature `key`. -/
def Owns (r : Registry) (name key : String) : Prop :=
  ∃ d, r.get? name = some d ∧ key ∈ d.methods.keys

instance (r : Registry) (name key : String) : Decidable (r.Owns name key) :=
  decidable_of_iff ((r.get? name).any (·.methods.contains key) = true) (by
    simp [Owns, Option.any_eq_true, Table.contains_iff])

/-- The class `name` extends the class `above`. -/
def Subclass (r : Registry) (name above : String) : Prop :=
  ∃ d t, r.get? name = some d ∧ d.superclass? = some t ∧ t.name = above

instance (r : Registry) (name above : String) : Decidable (r.Subclass name above) :=
  decidable_of_iff ((r.get? name).any (fun d => d.superclass?.any (·.name = above)) = true) (by
    simp [Subclass, Option.any_eq_true])

/-- The class `name` extends the class `above`, and both are without type parameters. -/
def PlainSubclass (r : Registry) (name above : String) : Prop :=
  ∃ d t p, r.get? name = some d ∧ d.superclass? = some t ∧ t.name = above ∧
    r.get? above = some p ∧ d.typeParams = [] ∧ p.typeParams = []

/-- No class has a method of its own that is final in a class above. -/
def RespectsFinal (r : Registry) : Prop :=
  ∀ name above, TransGen r.Subclass name above → ∀ p, r.get? above = some p →
    ∀ key m, p.methods.get? key = some m → m.isFinal = true → ¬ r.Owns name key

variable {r r' : Registry} {name above key : String} {d p : Definition} {t u : Table Method}

theorem owns_iff (hd : r.get? name = some d) : r.Owns name key ↔ key ∈ d.methods.keys := by
  simp [Owns, hd]

theorem AgreesOff.owns_iff {other : String} (h : AgreesOff other r r') (hn : name ≠ other) :
    r'.Owns name key ↔ r.Owns name key := by
  rw [Owns, Owns, h.off name hn]

theorem PlainSubclass.subclass (h : r.PlainSubclass name above) : r.Subclass name above := by
  obtain ⟨d, t, _, hd, ht, hname, _⟩ := h
  exact ⟨d, t, hd, ht, hname⟩

theorem SameFrame.subclass (hf : SameFrame r r') (h : r.Subclass name above) :
    r'.Subclass name above := by
  obtain ⟨d, t, hd, ht, hname⟩ := h
  obtain ⟨d', hd', hframe⟩ := hf.exists_of_get? hd
  exact ⟨d', t, hd', hframe.superclass?.trans ht, hname⟩

theorem SameFrame.plainSubclass (hf : SameFrame r r') (h : r.PlainSubclass name above) :
    r'.PlainSubclass name above := by
  obtain ⟨d, t, p, hd, ht, hname, hp, hdt, hpt⟩ := h
  obtain ⟨d', hd', hframe⟩ := hf.exists_of_get? hd
  obtain ⟨p', hp', hframe'⟩ := hf.exists_of_get? hp
  exact ⟨d', t, p', hd', hframe.superclass?.trans ht, hname, hp', hframe.typeParams.trans hdt,
    hframe'.typeParams.trans hpt⟩

/-- A visible method in the table of a superclass has a visible one of the same signature below it,
if there are no type parameters. -/
theorem exists_visible_of_superclass (hd : d.WellFormed) (hp : p.WellFormed) {parent : TypeExpr}
    (hsuper : d.superclass? = some parent) (hget : r.get? parent.name = some p)
    (hdt : d.typeParams = []) (hpt : p.typeParams = []) (ht : r.allMethods d = .ok t)
    (hu : r.allMethods p = .ok u) (hown : ∀ m, d.methods.get? key = some m → m.isHidden = false)
    (h : ∃ m, u.get? key = some m ∧ m.isHidden = false) :
    ∃ m, t.get? key = some m ∧ m.isHidden = false := by
  obtain ⟨m, hm, hvisible⟩ := h
  have hmem : m ∈ visible u := mem_visible.mpr ⟨mem_values_of_get? hm, hvisible⟩
  have hkey : key = m.signature :=
    key_eq_signature (fun e he => (hp e he).1) hu _ (Table.get?_eq_some_iff.mp hm)
  have howner := (owner_of_mem_allMethods hp.holdsMethods hu (mem_visible.mp hmem).1).1
  obtain ⟨b, e, hb, he, _⟩ := exists_of_mem_visible ht
    (by simp [supertypes_of_superclass? hsuper]) hget hu hmem
  have hsignature : b.signature = key := by
    obtain ⟨ancestor, _, hstub⟩ := Except.bind_eq_ok_iff.mp hb
    rw [hkey]
    exact Method.signature_of_stub (howner ▸ congrArg TypeParams.names hpt)
      (congrArg TypeParams.names hdt) hstub
  rw [hsignature] at he
  refine ⟨e, he, ?_⟩
  rcases mem_values_allMethods ht (mem_values_of_get? he) with
    hmem | ⟨_, _, _, _, _, e', _, _, he', hover⟩
  · have hkey' : key = e.signature :=
      key_eq_signature (fun e he => (hd e he).1) ht _ (Table.get?_eq_some_iff.mp he)
    exact hown e (hkey' ▸ hd.get?_signature hmem)
  · exact (isStub_of_overrideFor hover).isHidden_eq_false (mem_visible.mp he').2

theorem PlainSubclass.exists_inheritVia (h : r.PlainSubclass name above)
    (hwf : ∀ name d, r.get? name = some d → d.WellFormed) (hd : r.get? name = some d)
    {trail : List String}
    (ht : r.inheritVia (trail ++ [d.name]) d (r.lazyAncestors d) d.methods d.supertypes = .ok t) :
    ∃ p u, r.get? above = some p ∧ above ∉ trail ++ [d.name] ∧
      r.inheritVia (trail ++ [d.name] ++ [p.name]) p (r.lazyAncestors p) p.methods p.supertypes =
        .ok u ∧
      ∀ key, (∀ m, d.methods.get? key = some m → m.isHidden = false) →
        (∃ m, u.get? key = some m ∧ m.isHidden = false) →
        ∃ m, t.get? key = some m ∧ m.isHidden = false := by
  obtain ⟨_, parent, p, hd', hsuper, rfl, hp, hdt, hpt⟩ := h
  cases hd.symm.trans hd'
  obtain ⟨u, hnot, hu⟩ :=
    exists_inheritVia_of_mem ht (by simp [supertypes_of_superclass? hsuper]) hp
  refine ⟨p, u, hp, name_of_get? hp ▸ hnot, hu, fun key hown => ?_⟩
  exact exists_visible_of_superclass (hwf _ _ hd) (hwf _ _ hp) hsuper hp hdt hpt
    (allMethods_of_inheritVia ht) (allMethods_of_inheritVia hu) hown

theorem not_mem_of_chain (hwf : ∀ name d, r.get? name = some d → d.WellFormed)
    (hchain : TransGen r.PlainSubclass name above) {trail : List String}
    (hd : r.get? name = some d)
    (ht : r.inheritVia (trail ++ [d.name]) d (r.lazyAncestors d) d.methods d.supertypes = .ok t) :
    above ∉ trail ++ [d.name] := by
  induction hchain using TransGen.head_induction_on generalizing d t trail with
  | single hstep =>
    obtain ⟨_, _, _, hnot, _⟩ := hstep.exists_inheritVia hwf hd ht
    exact hnot
  | head hstep _ ih =>
    obtain ⟨p, u, hp, _, hu, _⟩ := hstep.exists_inheritVia hwf hd ht
    exact fun hmem => ih hp hu (List.mem_append_left _ hmem)

/-- **What a class has is in the tables of all classes below**, if there are no type parameters and
nothing hides it on the way. -/
theorem exists_visible_of_chain (hwf : ∀ name d, r.get? name = some d → d.WellFormed)
    (habove : r.Owns above key)
    (hown : ∀ name d m, ReflTransGen r.PlainSubclass name above → r.get? name = some d →
      d.methods.get? key = some m → m.isHidden = false)
    (hchain : TransGen r.PlainSubclass name above) {trail : List String}
    (hd : r.get? name = some d)
    (ht : r.inheritVia (trail ++ [d.name]) d (r.lazyAncestors d) d.methods d.supertypes = .ok t) :
    ∃ m, t.get? key = some m ∧ m.isHidden = false := by
  induction hchain using TransGen.head_induction_on generalizing d t trail with
  | single hstep =>
    obtain ⟨p, u, hp, _, hu, hdown⟩ := hstep.exists_inheritVia hwf hd ht
    obtain ⟨m, hm⟩ := Table.exists_get?_of_mem_keys ((owns_iff hp).mp habove)
    have hu := get?_allMethods_of_own (allMethods_of_inheritVia hu) hm
    exact hdown key (fun m => hown _ d m (.single hstep) hd) ⟨m, hu, hown _ p m .refl hp hm⟩
  | head hstep hrest ih =>
    obtain ⟨p, u, hp, _, hu, hdown⟩ := hstep.exists_inheritVia hwf hd ht
    have hchain := ReflTransGen.head hstep hrest.to_reflTransGen
    exact hdown key (fun m => hown _ d m hchain hd) (ih hp hu)

end Registry

/-! ## Members that classes get -/

/-- A method that a class gets out of an explicit one cannot be overridden and is inherited. -/
def Method.IsFinalMember (m : Method) : Prop :=
  m.isFinal = true ∧ m.isHidden = false

theorem isFinalMember_reown {d : Definition} {c : Candidate} {utility : String} {member : Method}
    (h : materialize d c utility = .ok member) : (member.reown d.owner).IsFinalMember := by
  obtain ⟨_, _, _, hmodifiers, _⟩ := materialize_spec h
  refine ⟨?_, isHidden_reown h⟩
  rw [Method.isFinal_reown, Method.isFinal, hmodifiers]
  decide

section Adds

variable {d d' : Definition} {P : Method → Prop} {key : String} {m : Method}

theorem Definition.Adds.get?_of_get? (h : d.Adds P d') (hm : d.methods.get? key = some m) :
    d'.methods.get? key = some m := by
  obtain ⟨more, hmore, _⟩ := h.methods
  rw [Table.get?_eq_some_iff, hmore]
  exact List.mem_append_left _ (Table.get?_eq_some_iff.mp hm)

theorem Definition.Adds.of_get? (h : d.Adds P d') (hm : d'.methods.get? key = some m)
    (hkey : key ∉ d.methods.keys) : P m := by
  obtain ⟨more, hmore, hP⟩ := h.methods
  rw [Table.get?_eq_some_iff, hmore] at hm
  rcases List.mem_append.mp hm with hm | hm
  · exact absurd (List.mem_map.mpr ⟨_, hm, rfl⟩) hkey
  · obtain ⟨_, hmem, he⟩ := List.mem_map.mp hm
    cases he
    exact (hP _ hmem).2

end Adds

open Registry

/-- Classes have got final members. -/
abbrev Registry.GetsMembers (r r' : Registry) : Prop :=
  Related (Definition.Adds Method.IsFinalMember) r r'

section Turns

variable {r r' r'' : Registry} {name key : String}

theorem Registry.GetsMembers.refl (r : Registry) : r.GetsMembers r :=
  Related.refl (.refl _) r

theorem Registry.GetsMembers.trans (h₁ : r.GetsMembers r') (h₂ : r'.GetsMembers r'') :
    r.GetsMembers r'' :=
  Related.trans (fun _ _ _ => .trans) h₁ h₂

theorem Registry.GetsMembers.sameFrame (h : r.GetsMembers r') : SameFrame r r' :=
  Related.imp (fun _ _ hd => hd.frame) h

theorem Registry.GetsMembers.owns (h : r.GetsMembers r') (ho : r.Owns name key) :
    r'.Owns name key := by
  obtain ⟨d, hd, hkey⟩ := ho
  obtain ⟨d', hd', hadds⟩ := h.exists_of_get? hd
  obtain ⟨m, hm⟩ := Table.exists_get?_of_mem_keys hkey
  exact ⟨d', hd', mem_keys_of_get? (hadds.get?_of_get? hm)⟩

theorem Registry.GetsMembers.isFinalMember (h : r.GetsMembers r') {d' : Definition} {m : Method}
    (hd' : r'.get? name = some d') (hm : d'.methods.get? key = some m)
    (hnew : ¬ r.Owns name key) : m.IsFinalMember := by
  obtain ⟨d, hd, hadds⟩ := h.flip.exists_of_get? hd'
  exact hadds.of_get? hm fun hkey => hnew ⟨d, hd, hkey⟩

/-- The class `name` has got members. For each there is a registry on the way in which the table of
the class did not have it. -/
structure Registry.Turn (name : String) (r r' : Registry) : Prop where
  gets : r.GetsMembers r'
  off : AgreesOff name r r'
  new : ∀ key, r'.Owns name key → ¬ r.Owns name key →
    ∃ s d t, r.GetsMembers s ∧ AgreesOff name r s ∧ s.get? name = some d ∧
      s.allMethods d = .ok t ∧ key ∉ t.keys

theorem Registry.Turn.refl (name : String) (r : Registry) : Turn name r r :=
  ⟨.refl r, .refl name r, fun _ h hn => absurd h hn⟩

theorem Registry.Turn.trans (h₁ : Turn name r r') (h₂ : Turn name r' r'') : Turn name r r'' where
  gets := h₁.gets.trans h₂.gets
  off := h₁.off.trans h₂.off
  new key hkey hnew := by
    by_cases hmid : r'.Owns name key
    · exact h₁.new key hmid hnew
    · obtain ⟨s, d, t, hgets, hoff, hrest⟩ := h₂.new key hkey hmid
      exact ⟨s, d, t, h₁.gets.trans hgets, h₁.off.trans hoff, hrest⟩

theorem selectFor_turn {group : String × List Method} {u : Unit}
    (h : selectFor name group r = .ok u r') : Turn name r r' := by
  rcases selectFor_cases h with rfl | ⟨d, c, member, explicit, hd, hmember, ⟨t, ht, hnew⟩, hadd⟩
  · exact .refl name r'
  · obtain ⟨e, d', he, hadd, rfl⟩ := Resolution.addMethod_eq_ok_iff.mp hadd
    cases hd.symm.trans he
    have hadds := Definition.adds_of_addMethod hadd
      (Method.fits_of_declared (materialize_spec hmember).1) (isFinalMember_reown hmember)
    have hname : ∀ f : Definition, f.name = name → d'.name = name := fun _ _ =>
      hadds.frame.name.trans (name_of_get? hd)
    have hoff : AgreesOff name r _ :=
      ⟨(agreesOff_modify (r := r.recordPromotion explicit name member) hname).off,
        (agreesOff_modify (r := r.recordPromotion explicit name member) hname).on⟩
    have hd' : ((r.recordPromotion explicit name member).modify name fun _ => d').get? name =
        some d' := by
      rw [get?_modify hname, if_pos rfl, he]
      rfl
    refine ⟨.of_agreesOff (.refl _) hoff hd hd' hadds, hoff, fun key hkey hno => ?_⟩
    have hkey := (owns_iff hd').mp hkey
    have hno := mt (owns_iff hd).mpr hno
    have hsignature : (member.reown d.owner).signature = member.signature := by
      rw [← (materialize_spec hmember).2.1]
      rfl
    obtain ⟨hfresh, rfl⟩ := Definition.addMethod_eq_ok_iff.mp hadd
    rw [Table.keys_insert, if_neg hfresh, List.mem_append, List.mem_singleton] at hkey
    exact ⟨r, d, t, .refl r, .refl name r, hd, ht, by rwa [hkey.resolve_left hno, hsignature]⟩

/-- The classes `done` have got their members one after the other. Whatever a class has got was not
in its table when those before it had got theirs. -/
structure Registry.SelectedUpTo (r : Registry) (done : List String) (r' : Registry) : Prop where
  gets : r.GetsMembers r'
  new : ∀ name key, r'.Owns name key → ¬ r.Owns name key →
    ∃ before after, done = before ++ name :: after ∧ ∃ s d t, r.GetsMembers s ∧
      (∀ other ∈ before, r'.Owns other key → s.Owns other key) ∧ s.get? name = some d ∧
      s.allMethods d = .ok t ∧ key ∉ t.keys

theorem Registry.SelectedUpTo.turn {done : List String} (h : r.SelectedUpTo done r')
    (hname : name ∉ done) (hturn : Turn name r' r'') : r.SelectedUpTo (done ++ [name]) r'' where
  gets := h.gets.trans hturn.gets
  new other key hkey hnew := by
    by_cases hne : other = name
    · subst hne
      have hbefore : ¬ r'.Owns other key := fun hkey' => by
        obtain ⟨before, after, rfl, _⟩ := h.new other key hkey' hnew
        exact hname (by simp)
      obtain ⟨s, d, t, hgets, hoff, hrest⟩ := hturn.new key hkey hbefore
      refine ⟨done, [], rfl, s, d, t, h.gets.trans hgets, fun third hthird hkey' => ?_, hrest⟩
      have hne : third ≠ other := fun he => hname (he ▸ hthird)
      exact (hoff.owns_iff hne).mpr ((hturn.off.owns_iff hne).mp hkey')
    · obtain ⟨before, after, rfl, s, d, t, hgets, hothers, hrest⟩ :=
        h.new other key ((hturn.off.owns_iff hne).mp hkey) hnew
      refine ⟨before, after ++ [name], by simp, s, d, t, hgets, fun third hthird hkey' => ?_, hrest⟩
      have hne : third ≠ name := fun he => hname (by simp [← he, hthird])
      exact hothers third hthird ((hturn.off.owns_iff hne).mp hkey')

theorem selectMethods_selected (hs : r.Sound) {u : Unit} (h : selectMethods r = .ok u r') :
    r.SelectedUpTo ((r.classes.map Definition.name).filter (· ≠ r.utility)) r' := by
  obtain ⟨s, _, hget, h⟩ := Resolution.bind_eq_ok_iff.mp h
  obtain ⟨rfl, rfl⟩ := Resolution.get_eq_ok_iff.mp hget
  refine Resolution.forM_induction_prefix (fun done s => r.SelectedUpTo done s)
    (fun done name rest s t u hsplit hdone hstep => hdone.turn ?_ ?_) ?_ h
  · have hnodup : (done ++ name :: rest).Nodup := hsplit ▸ hs.nodup_classes.filter _
    exact fun hmem => (List.nodup_append.mp hnodup).2.2 name hmem name List.mem_cons_self rfl
  · exact Resolution.forM_induction (fun q => Turn name s q)
      (fun group _ _ _ _ hturn hselect => hturn.trans (selectFor_turn hselect)) (.refl name s) hstep
  · exact ⟨.refl r, fun _ _ hkey hnew => absurd hkey hnew⟩

/-- A class does not get what a class above it has got, if that comes first in the order and no class
from one to the other had it before. -/
theorem Registry.SelectedUpTo.not_owns {names : List String} {above : String} (hs : r.Sound)
    (h : r.SelectedUpTo names r') (habove : r'.Owns above key)
    (hclear : ∀ other, ReflTransGen r'.PlainSubclass other above → ¬ r.Owns other key)
    (hchain : TransGen r'.PlainSubclass name above) (horder : ¬ [name, above].Sublist names) :
    ¬ r'.Owns name key := by
  intro hkey
  obtain ⟨before, after, hnames, s, d, t, hgets, hothers, hd, ht, hnot⟩ :=
    h.new name key hkey (hclear name hchain.to_reflTransGen)
  have hframe : SameFrame r' s := h.gets.sameFrame.symm.trans hgets.sameFrame
  have hchain' : TransGen s.PlainSubclass name above :=
    TransGen.mono (fun _ _ => hframe.plainSubclass) _ _ hchain
  have ht' : s.inheritVia ([] ++ [d.name]) d (s.lazyAncestors d) d.methods d.supertypes = .ok t := ht
  have hwf : ∀ name d, s.get? name = some d → d.WellFormed := fun name d hd => by
    obtain ⟨e, he, hadds⟩ := hgets.flip.exists_of_get? hd
    exact hadds.wellFormed (hs.wellFormed e (mem_of_get? he))
  have hmem : above ∈ before := by
    obtain ⟨_, _, hsplit, _⟩ := h.new above key habove (hclear above .refl)
    have hmem : above ∈ before ++ name :: after := by simp [← hnames, hsplit]
    have hne : above ≠ name := fun he =>
      not_mem_of_chain hwf hchain' hd ht' (by simp [he, name_of_get? hd])
    rcases List.mem_append.mp hmem with hmem | hmem
    · exact hmem
    · have hafter : [above].Sublist after :=
        List.singleton_sublist.mpr ((List.mem_cons.mp hmem).resolve_left hne)
      exact absurd (hnames ▸ (hafter.cons_cons name).trans (List.sublist_append_right _ _)) horder
  have hvisible : ∀ other e m, ReflTransGen s.PlainSubclass other above → s.get? other = some e →
      e.methods.get? key = some m → m.isHidden = false := fun other e m hother he hm => by
    have hother : ReflTransGen r'.PlainSubclass other above :=
      ReflTransGen.mono (fun _ _ => hframe.symm.plainSubclass) _ _ hother
    exact (hgets.isFinalMember he hm (hclear other hother)).2
  obtain ⟨m, hm, _⟩ :=
    exists_visible_of_chain hwf (hothers above hmem habove) hvisible hchain' hd ht'
  exact hnot (mem_keys_of_get? hm)

end Turns

/-! ## Finishing -/

/-- Only documentation has changed. -/
structure Definition.Redocumented (d d' : Definition) : Prop where
  frame : d.SameFrame d'
  finals : ∀ key, (d'.methods.get? key).map Method.isFinal = (d.methods.get? key).map Method.isFinal

theorem Definition.Redocumented.refl (d : Definition) : d.Redocumented d :=
  ⟨.refl d, fun _ => rfl⟩

theorem Definition.Redocumented.trans {d d' d'' : Definition} (h₁ : d.Redocumented d')
    (h₂ : d'.Redocumented d'') : d.Redocumented d'' :=
  ⟨h₁.frame.trans h₂.frame, fun key => (h₂.finals key).trans (h₁.finals key)⟩

theorem Definition.Redocumented.of_comments (d : Definition) (key : String) (f : String → String) :
    d.Redocumented { d with
      methods := d.methods.modify key fun m => { m with comment := f m.comment } } := by
  refine ⟨⟨rfl, rfl, rfl⟩, fun other => ?_⟩
  rw [Table.get?_modify]
  split
  · rw [Option.map_map]
    rfl
  · rfl

section Finishing

variable {r r' : Registry}

theorem documentRules_redocumented (r : Registry) :
    Related Definition.Redocumented r (documentRules r) :=
  related_of_forall₂ (fun _ _ h => h.frame.name)
    (forall₂_documentRules fun _ _ => ⟨⟨rfl, rfl, rfl⟩, fun _ => rfl⟩)
    (List.forall₂_same.mpr fun d _ => .refl d)

theorem documentPromotions_redocumented (r : Registry) :
    Related Definition.Redocumented r (documentPromotions r) := by
  refine documentPromotions_induction (Related Definition.Redocumented r)
    (fun s signature hs => ?_) (.refl .refl r)
  obtain ⟨_, _, hd, ha⟩ := forall₂_modify (r := s) (R := Definition.Redocumented) .refl
    fun d _ _ => .of_comments d signature (s.promotionsOf signature |>.foldl withReference)
  exact hs.trans (fun _ _ _ => .trans) (related_of_forall₂ (fun _ _ h => h.frame.name) hd ha)

theorem finish_redocumented {settings : Settings} {u : Unit} (h : finish settings r = .ok u r') :
    Related Definition.Redocumented r r' := by
  obtain ⟨s, tests, rfl, _, rfl, _⟩ := finish_cases h
  exact ((documentRules_redocumented r).trans (fun _ _ _ => .trans)
    (documentPromotions_redocumented _)).trans (fun _ _ _ => .trans)
    (.of_get?_eq .refl fun _ => rfl)

end Finishing

/-! ## Respect for final methods -/

section Respect

variable {s z r : Registry} {name key : String} {d : Definition} {m : Method}

theorem owns_of_redocumented (h : Related Definition.Redocumented z r) :
    r.Owns name key ↔ z.Owns name key := by
  have hkeys : ∀ {d d' : Definition}, d.Redocumented d' →
      (key ∈ d'.methods.keys ↔ key ∈ d.methods.keys) := fun hd => by
    rw [← Table.contains_iff, ← Table.contains_iff, Table.contains, Table.contains,
      ← Option.isSome_map, hd.finals, Option.isSome_map]
  constructor
  · rintro ⟨d', hd', hkey⟩
    obtain ⟨d, hd, hsame⟩ := h.flip.exists_of_get? hd'
    exact ⟨d, hd, (hkeys hsame).mp hkey⟩
  · rintro ⟨d, hd, hkey⟩
    obtain ⟨d', hd', hsame⟩ := h.exists_of_get? hd
    exact ⟨d', hd', (hkeys hsame).mpr hkey⟩

theorem isFinal_iff_not_owns (hs : s.NoFinal) (hz : s.GetsMembers z)
    (hr : Related Definition.Redocumented z r) (hd : r.get? name = some d)
    (hm : d.methods.get? key = some m) : m.isFinal = true ↔ ¬ s.Owns name key := by
  obtain ⟨e, he, hsame⟩ := hr.flip.exists_of_get? hd
  have hfinal := hsame.finals key
  rw [hm] at hfinal
  obtain ⟨m', hm', hfinal⟩ := Option.map_eq_some_iff.mp hfinal.symm
  rw [← hfinal]
  constructor
  · rintro htrue ⟨f, hf, hkey⟩
    obtain ⟨m₀, hm₀⟩ := Table.exists_get?_of_mem_keys hkey
    obtain ⟨e', he', hadds⟩ := hz.exists_of_get? hf
    cases he.symm.trans he'
    cases hm'.symm.trans (hadds.get?_of_get? hm₀)
    rw [hs.of_get? hf _ (mem_values_of_get? hm₀)] at htrue
    cases htrue
  · exact fun hnew => (hz.isFinalMember he hm' hnew).1

end Respect

/-- The class `name` has a method in `r'` that it does not have in `r`. -/
def Registry.Gets (r r' : Registry) (name key : String) : Prop :=
  r'.Owns name key ∧ ¬ r.Owns name key

/-- **When final methods are respected.** Units are read from trees and declare no final methods, and
resolution succeeds. Let `s` be the registry before explicit methods are selected. No class in the
result has a method that is final in a class above, except in these cases: the class had it in `s`, or
it gets it like the class above, and it is registered before that or there are type parameters on
the way. -/
theorem respectsFinal_iff {settings : Settings} {units : List CompilationUnit} {r : Registry}
    (hu : ∀ unit ∈ units, ∃ utility tree, Tree.unitOf utility tree = .ok unit)
    (hfinal : ∀ unit ∈ units, ∀ m ∈ unit.declaredMethods, m.isFinal = false)
    (h : runStages settings units Stage.standard = .ok r) :
    ∃ s, runStages settings units (Stage.standard.take 7) = .ok s ∧
      (r.RespectsFinal ↔ ∀ name above key, TransGen r.Subclass name above → s.Gets r above key →
        ¬ s.Owns name key ∧ ¬ (s.Gets r name key ∧
          ([name, above].Sublist (s.classes.map Definition.name) ∨
            ¬ TransGen r.PlainSubclass name above))) := by
  obtain ⟨_, hrun⟩ := runStages_eq_ok_iff.mp h
  rw [show Stage.standard = Stage.standard.take 7 ++ [.ambiguityResolution, .finalize] from rfl]
    at hrun
  obtain ⟨s, hs, hlast⟩ := Resolution.forM_append_eq_ok_iff.mp hrun
  obtain ⟨z, hselect, hlast⟩ := Resolution.forM_cons_eq_ok_iff.mp hlast
  obtain ⟨_, hfinish, hlast⟩ := Resolution.forM_cons_eq_ok_iff.mp hlast
  rw [Resolution.forM_nil_eq_ok_iff.mp hlast] at hfinish
  have hbefore := runStages_eq_ok_iff.mpr ⟨_, hs⟩
  have hsound : s.Sound :=
    sound_of_runStages (proper_of_unitOf hu) (List.take_prefix 7 Stage.standard) hbefore
  have hselected := selectMethods_selected hsound hselect
  have hdocumented := finish_redocumented hfinish
  have hframe : SameFrame z r := hdocumented.imp fun _ _ hd => hd.frame
  have hfinals : ∀ {name key d m}, r.get? name = some d → d.methods.get? key = some m →
      (m.isFinal = true ↔ ¬ s.Owns name key) :=
    isFinal_iff_not_owns (noFinal_of_runStages hfinal hbefore) hselected.gets hdocumented
  refine ⟨s, hbefore, fun hrespects name above key hbelow hgets => ?_,
    fun hcond name above hbelow p hp key m hm hmfinal hkey => ?_⟩
  · obtain ⟨⟨p, hp, hkey⟩, hnew⟩ := hgets
    obtain ⟨m, hm⟩ := Table.exists_get?_of_mem_keys hkey
    have hnone := hrespects name above hbelow p hp key m hm ((hfinals hp hm).mpr hnew)
    refine ⟨fun hold => hnone ?_, fun hgets => hnone hgets.1.1⟩
    exact (owns_of_redocumented hdocumented).mpr (hselected.gets.owns hold)
  · have hgets : s.Gets r above key :=
      ⟨⟨p, hp, mem_keys_of_get? hm⟩, (hfinals hp hm).mp hmfinal⟩
    obtain ⟨hold, hexcept⟩ := hcond name above key hbelow hgets
    obtain ⟨horder, hplain⟩ := not_or.mp fun hor => hexcept ⟨⟨hkey, hold⟩, hor⟩
    refine hselected.not_owns hsound ((owns_of_redocumented hdocumented).mp hgets.1)
      (fun other hother => ?_)
      (TransGen.mono (fun _ _ => hframe.symm.plainSubclass) _ _ (not_not.mp hplain))
      (fun hsub => horder (hsub.trans List.filter_sublist))
      ((owns_of_redocumented hdocumented).mp hkey)
    -- The classes between the two did not have the method either.
    rcases reflTransGen_iff_eq_or_transGen.mp hother with rfl | hother
    · exact hgets.2
    · refine (hcond other above key (TransGen.mono (fun _ _ hstep => ?_) _ _ hother) hgets).1
      exact hframe.subclass hstep.subclass

/-- The class `P` implements `A`, the class `D` extends `P` and has the given members, and there are
explicit methods `f(A a)` and `f(B b)`. Either class may come first. -/
def Tree.finalMember (superclassFirst : Bool) (members : List Tree) : Tree :=
  let above := classNode [] "P" [] none [("A", [])] []
  let below := classNode [] "D" [] (some ("P", [])) [] members
  node "Unit" ([interfaceNode "A" [] [], interfaceNode "B" [] []] ++
    (if superclassFirst then [above, below] else [below, above]) ++
    [methodNode ["public", "static"] "f" [] [("A", "a")],
      methodNode ["public", "static"] "f" [] [("B", "b")]])

/-- There is one superclass: that of `name` is `above`. -/
def Registry.onlyBelow (r : Registry) (name above : String) : Bool :=
  r.Subclass name above && (r.definitions ++ r.anonymous).all fun d =>
    d.superclass?.all fun t => d.name = name && t.name = above

theorem Registry.eq_of_onlyBelow {r : Registry} {name above a b : String}
    (h : r.onlyBelow name above = true) (hab : TransGen r.Subclass a b) : a = name ∧ b = above := by
  have hstep : ∀ {a b}, r.Subclass a b → a = name ∧ b = above := by
    rintro a b ⟨d, t, hd, ht, rfl⟩
    have hall := List.all_eq_true.mp (Bool.and_eq_true_iff.mp h).2 d (mem_of_get? hd)
    rw [ht] at hall
    simpa [name_of_get? hd] using hall
  induction hab with
  | single h => exact hstep h
  | tail _ h ih => exact ⟨ih.1, (hstep h).2⟩

/-- The class has no methods of its own. -/
def Registry.ownsNothing (r : Registry) (name : String) : Bool :=
  (r.get? name).all (·.methods.keys = [])

theorem Registry.not_owns_of_ownsNothing {r : Registry} {name key : String}
    (h : r.ownsNothing name = true) : ¬ r.Owns name key := by
  rintro ⟨d, hd, hkey⟩
  rw [ownsNothing, hd] at h
  simp [of_decide_eq_true h] at hkey

/-- The superclass comes first and gets `f()`, and `D` has no methods of its own. -/
theorem respectsFinal_iff_superclass_first :
    ∃ units s r, readUnits sqlSettings [.finalMember true []] = .ok units ∧
      (∀ unit ∈ units, ∀ m ∈ unit.declaredMethods, m.isFinal = false) ∧
      runStages sqlSettings units (Stage.standard.take 7) = .ok s ∧
      runStages sqlSettings units Stage.standard = .ok r ∧ r.Subclass "D" "P" ∧
      s.Gets r "P" "f()" ∧ r.RespectsFinal := by
  have hrun : passesTo 7 9 (.finalMember true []) (fun units s r =>
      (∀ unit ∈ units, ∀ m ∈ unit.declaredMethods, m.isFinal = false) && r.onlyBelow "D" "P" &&
      r.Owns "P" "f()" && s.ownsNothing "P" && s.ownsNothing "D" && r.ownsNothing "D") = true := by
    decide +kernel
  obtain ⟨units, s, r, hu, hs, hr, hp⟩ := exists_of_passesTo hrun
  simp only [Bool.and_eq_true, decide_eq_true_eq] at hp
  obtain ⟨⟨⟨⟨⟨hfinal, hbelow⟩, howns⟩, hP⟩, hD⟩, hD'⟩ := hp
  obtain ⟨s', hs', hiff⟩ := respectsFinal_iff (fun unit hunit => by
    obtain ⟨tree, _, htree⟩ := Except.exists_of_mem_mapM hu unit hunit
    exact ⟨_, tree, htree⟩) hfinal hr
  cases hs.symm.trans hs'
  refine ⟨units, s, r, hu, hfinal, hs, hr, of_decide_eq_true (Bool.and_eq_true_iff.mp hbelow).1,
    ⟨howns, Registry.not_owns_of_ownsNothing hP⟩, hiff.mpr fun name above key hchain _ => ?_⟩
  obtain ⟨rfl, rfl⟩ := Registry.eq_of_onlyBelow hbelow hchain
  exact ⟨Registry.not_owns_of_ownsNothing hD,
    fun hgets => Registry.not_owns_of_ownsNothing hD' hgets.1.1⟩

/-- A class has a method that is final in its superclass. -/
def Registry.overridesFinal (r : Registry) (name above key : String) : Bool :=
  r.Subclass name above && r.Owns name key &&
    (r.get? above).any fun p => (p.methods.get? key).any Method.isFinal

theorem Registry.not_respectsFinal {r : Registry} {name above key : String}
    (h : r.overridesFinal name above key = true) : ¬ r.RespectsFinal := by
  intro hrespects
  simp only [overridesFinal, Bool.and_eq_true, decide_eq_true_eq, Option.any_eq_true] at h
  obtain ⟨⟨hsub, howns⟩, p, hp, m, hm, hfinal⟩ := h
  exact hrespects name above (.single hsub) p hp key m hm hfinal howns

/-- **A final method is overridden.** In the first model the subclass is registered before its
superclass, and both get `f()`. In the second one the subclass declares `f()`, and the superclass
gets it. -/
theorem overrides_final_member :
    (∃ units r, readUnits sqlSettings [.finalMember false []] = .ok units ∧
      (∀ unit ∈ units, ∀ m ∈ unit.declaredMethods, m.isFinal = false) ∧
      runStages sqlSettings units Stage.standard = .ok r ∧ ¬ r.RespectsFinal) ∧
    ∃ units r, readUnits sqlSettings
        [.finalMember true [Tree.methodNode ["public"] "f" [] []]] = .ok units ∧
      (∀ unit ∈ units, ∀ m ∈ unit.declaredMethods, m.isFinal = false) ∧
      runStages sqlSettings units Stage.standard = .ok r ∧ ¬ r.RespectsFinal := by
  have hrun : ∀ superclassFirst members,
      passesTo 7 9 (.finalMember superclassFirst members) (fun units _ r =>
        (∀ unit ∈ units, ∀ m ∈ unit.declaredMethods, m.isFinal = false) &&
        r.overridesFinal "D" "P" "f()") = true →
      ∃ units r, readUnits sqlSettings [.finalMember superclassFirst members] = .ok units ∧
        (∀ unit ∈ units, ∀ m ∈ unit.declaredMethods, m.isFinal = false) ∧
        runStages sqlSettings units Stage.standard = .ok r ∧ ¬ r.RespectsFinal := by
    intro superclassFirst members h
    obtain ⟨units, _, r, hu, _, hr, hp⟩ := exists_of_passesTo h
    obtain ⟨hfinal, hover⟩ := Bool.and_eq_true_iff.mp hp
    exact ⟨units, r, hu, of_decide_eq_true hfinal, hr, Registry.not_respectsFinal hover⟩
  exact ⟨hrun false [] (by decide +kernel), hrun true _ (by decide +kernel)⟩

end FluentGrammar
