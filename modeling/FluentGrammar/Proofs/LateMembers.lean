import FluentGrammar.Proofs.Settlement

/-!
# Members that come late

After inherited methods have been settled, classes still gain members made of explicit methods, and
documentation is completed. Of all that, only the members can matter to what is inherited: they are
concrete and visible, and their type parameters are apart from those of the class.

* `Method.IsMember`: what is known about a member made of an explicit method.
* `Definition.Gains`: a definition before and after.
* **`selectMethods_gains`**, **`finish_gains`**: the two last stages do nothing else.
-/

namespace FluentGrammar

/-- A method that a class gets out of an explicit one. -/
structure Method.IsMember (m : Method) : Prop where
  concrete : m.isAbstract = false
  visible : m.isHidden = false
  apart : ∀ name ∈ m.typeParams.names, name ∉ m.owner.typeParams

/-- Ordinary classes gain members at the end, the utility class changes as it may, and all others
keep their methods. -/
structure Definition.Gains (utility : String) (d d' : Definition) : Prop where
  frame : d.SameFrame d'
  members : d.kind = .namedClass → d.name ≠ utility → d.Adds Method.IsMember d'
  methods : d.kind ≠ .namedClass → d'.methods = d.methods

namespace Definition.Gains

variable {utility : String} {d d' d'' : Definition}

theorem of_sameFrame (hf : d.SameFrame d') (hm : d'.methods = d.methods) : d.Gains utility d' where
  frame := hf
  members _ _ := ⟨hf, [], by simp [hm], by simp⟩
  methods _ := hm

theorem refl (utility : String) (d : Definition) : d.Gains utility d :=
  of_sameFrame (.refl d) rfl

theorem trans (h₁ : d.Gains utility d') (h₂ : d'.Gains utility d'') : d.Gains utility d'' where
  frame := h₁.frame.trans h₂.frame
  members hk hn := (h₁.members hk hn).trans
    (h₂.members (h₁.frame.kind.trans hk) (h₁.frame.name ▸ hn))
  methods hk := (h₂.methods (h₁.frame.kind ▸ hk)).trans (h₁.methods hk)

end Definition.Gains

theorem Registry.Related.methods_of_interface {utility name : String} {r r' : Registry}
    {d d' : Definition} (h : Related (Definition.Gains utility) r r') (hd : r.get? name = some d)
    (hk : d.kind = .interface) (hd' : r'.get? name = some d') : d'.methods = d.methods := by
  obtain ⟨e, he, hgains⟩ := h.exists_of_get? hd
  cases hd'.symm.trans he
  exact hgains.methods (by simp [hk])

section Gains

variable {r r' : Registry} {name : String}

open Registry

theorem Registry.find?_of_forall₂ {R : Definition → Definition → Prop}
    (hR : ∀ d d', R d d' → d'.name = d.name) {ds ds' : List Definition} (h : List.Forall₂ R ds ds')
    (name : String) : Option.Rel R (ds.find? (·.name = name)) (ds'.find? (·.name = name)) := by
  induction h with
  | nil => exact .none
  | @cons d d' ds ds' hdd _ ih =>
    rw [List.find?_cons, List.find?_cons, hR d d' hdd]
    by_cases hn : d.name = name
    · simpa [hn] using Option.Rel.some hdd
    · simpa [hn] using ih

theorem Registry.related_of_forall₂ {R : Definition → Definition → Prop}
    (hR : ∀ d d', R d d' → d'.name = d.name) (hd : List.Forall₂ R r.definitions r'.definitions)
    (ha : List.Forall₂ R r.anonymous r'.anonymous) : Related R r r' :=
  find?_of_forall₂ hR (List.rel_append hd ha)

theorem isHidden_reown {d : Definition} {c : Candidate} {utility : String} {member : Method}
    (h : materialize d c utility = .ok member) : (member.reown d.owner).isHidden = false := by
  obtain ⟨_, _, haccess, hmodifiers, _⟩ := materialize_spec h
  change (member.access = .privateAccess || "static" ∈ member.modifiers) = false
  rw [haccess, hmodifiers]
  decide

theorem isMember_reown {d : Definition} (hk : d.kind = .namedClass) {c : Candidate}
    {utility : String} {member : Method} (h : materialize d c utility = .ok member) :
    (member.reown d.owner).IsMember := by
  obtain ⟨_, _, _, hmodifiers, hapart⟩ := materialize_spec h
  refine ⟨?_, isHidden_reown h, hapart⟩
  change d.kind.isAbstract member.modifiers = false
  rw [hk, hmodifiers]
  decide

theorem selectFor_gains (hc : r.HasKind .namedClass name)
    {group : String × List Method} {u : Unit} (h : selectFor name group r = .ok u r') :
    Related (Definition.Gains r.utility) r r' := by
  rcases selectFor_cases h with rfl | ⟨d, c, member, explicit, hd, hmember, _, hadd⟩
  · exact .refl (.refl _) r'
  · obtain ⟨e, d', he, hadd, rfl⟩ := Resolution.addMethod_eq_ok_iff.mp hadd
    cases hd.symm.trans he
    have hk := hc.kind_eq hd
    have hadds := Definition.adds_of_addMethod hadd
      (Method.fits_of_declared (materialize_spec hmember).1) (isMember_reown hk hmember)
    have hname : ∀ f : Definition, f.name = name → d'.name = name := fun _ _ =>
      hadds.frame.name.trans (name_of_get? hd)
    have hoff := agreesOff_modify (r := r.recordPromotion explicit name member) hname
    refine Related.of_agreesOff (.refl _) ⟨hoff.off, hoff.on⟩ hd ?_
      ⟨hadds.frame, fun _ _ => hadds, fun hne => absurd hk hne⟩
    rw [get?_modify hname, if_pos rfl, he]
    rfl

theorem selectMethods_gains (hs : r.Sound) {u : Unit} (h : selectMethods r = .ok u r') :
    Related (Definition.Gains r.utility) r r' := by
  obtain ⟨s, _, hget, h⟩ := Resolution.bind_eq_ok_iff.mp h
  obtain ⟨rfl, rfl⟩ := Resolution.get_eq_ok_iff.mp hget
  have hall := Resolution.forM_induction
    (fun s => r.Evolves s ∧ Related (Definition.Gains r.utility) r s)
    (fun name hname s t u hrs hstep => ?_) ⟨.refl r, .refl (.refl _) r⟩ h
  · exact hall.2
  obtain ⟨hname, hne⟩ := List.mem_filter.mp hname
  obtain ⟨d, hd, rfl⟩ := List.mem_map.mp hname
  have hne : d.name ≠ r.utility := by simpa using hne
  have hc := hs.hasKind_of_mem_classes hd hne
  refine Resolution.forM_induction
    (fun s => r.Evolves s ∧ Related (Definition.Gains r.utility) r s)
    (fun group _ s t u hrs hstep => ?_) hrs hstep
  have hs' := hs.evolves hrs.1
  have hgains := selectFor_gains (hc.evolves hs hrs.1) hstep
  rw [hrs.1.utility] at hgains
  exact ⟨hrs.1.trans (selectFor_evolves hs' (hrs.1.utility ▸ hne) hstep),
    hrs.2.trans (fun _ _ _ => .trans) hgains⟩

theorem documentRules_gains (r : Registry) :
    Related (Definition.Gains r.utility) r (documentRules r) :=
  related_of_forall₂ (fun _ _ h => h.frame.name)
    (forall₂_documentRules fun _ _ => .of_sameFrame ⟨rfl, rfl, rfl⟩ rfl)
    (List.forall₂_same.mpr fun d _ => .refl _ d)

theorem modify_utility_gains (hs : r.Sound) {f : Definition → Definition}
    (hf : ∀ d : Definition, d.SameFrame (f d)) :
    Related (Definition.Gains r.utility) r (r.modify r.utility f) := by
  have hgains : ∀ d ∈ r.definitions ++ r.anonymous, d.name = r.utility →
      d.Gains r.utility (f d) := fun d hd hn =>
    ⟨hf d, fun _ hne => absurd hn hne, fun hk => absurd hn (hs.ne_utility_of_kind hd hk)⟩
  obtain ⟨_, _, hd, ha⟩ := forall₂_modify (R := Definition.Gains r.utility) (.refl _) hgains
  exact related_of_forall₂ (fun _ _ h => h.frame.name) hd ha

theorem documentPromotions_gains (hs : r.Sound) :
    Related (Definition.Gains r.utility) r (documentPromotions r) := by
  refine (documentPromotions_induction
    (fun s => r.Evolves s ∧ Related (Definition.Gains r.utility) r s)
    (fun s signature hgains => ?_) ⟨.refl r, .refl (.refl _) r⟩).2
  obtain ⟨hevolves, hgains⟩ := hgains
  have hstep : Related (Definition.Gains s.utility) s (documentPromotion s signature) :=
    modify_utility_gains (hs.evolves hevolves) fun _ => ⟨rfl, rfl, rfl⟩
  rw [hevolves.utility] at hstep
  exact ⟨hevolves.trans (documentPromotion_evolves s signature),
    hgains.trans (fun _ _ _ => .trans) hstep⟩

/-- Finishing gives no class a method, and makes the tables of all ordinary classes. -/
theorem finish_gains {settings : Settings} (hs : r.Sound) {u : Unit}
    (h : finish settings r = .ok u r') :
    Related (Definition.Gains r.utility) r r' ∧
      ∀ d ∈ r'.classes, d.name ≠ r'.utility → ∃ t, r'.allMethods d = .ok t := by
  obtain ⟨s, tests, hdocument, htests, rfl, _⟩ := finish_cases h
  have h₁ := documentRules_evolves r
  have hrules := documentRules_gains r
  have hpromotions := documentPromotions_gains (hs.evolves h₁)
  rw [h₁.utility, ← hdocument] at hpromotions
  have hdocumented := hrules.trans (fun _ _ _ => .trans) hpromotions
  refine ⟨hdocumented.trans (fun _ _ _ => .trans) (.of_get?_eq (.refl _) fun _ => rfl),
    fun d hmem hn => ?_⟩
  obtain ⟨classTables, hclass, _⟩ := Except.bind_eq_ok_iff.mp htests
  have hmem' : d ∈ s.classes.filter (·.name ≠ s.utility) :=
    List.mem_filter.mpr ⟨hmem, by simpa using hn⟩
  obtain ⟨_, _, htest⟩ := exists_right_of_forall₂ (Except.mapM_eq_ok_iff.mp hclass) d hmem'
  obtain ⟨t, ht, _⟩ := Except.bind_eq_ok_iff.mp htest
  exact ⟨t, by rw [allMethods_withTests, ht]⟩

end Gains

end FluentGrammar
