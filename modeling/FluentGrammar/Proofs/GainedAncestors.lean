import FluentGrammar.Proofs.ConversionClosure
import FluentGrammar.Proofs.Foundation
import FluentGrammar.Proofs.StageEvolution

/-!
# Ancestors that classes gain

While classes are closed one after the other, a class gains ancestors in two ways: by its own
conversions, which leave a path, and with a class it inherits from, which leaves none. The ways along
the names of parents show both. If the class of one name gains ancestors, so does everything below
it, and nothing else changes.

* `Registry.Apart`: type parameters and definitions have different names, so that ancestors are what
  the names of parents lead to.
* `GainsAt`, `closeClass_gainsAt`: the ways after one class has gained ancestors.
* `ClosedUpTo`: all classes up to some point are closed.
* **`closeClasses_closed`**: what is true of all classes in the end.
-/

namespace FluentGrammar

open Relation

namespace Registry

variable {r r' : Registry} {name n : String} {d : Definition}

/-! ## Ancestors by name -/

/-- No type parameter of a definition has the name of a definition. -/
def Apart (r : Registry) : Prop :=
  ∀ name d, r.get? name = some d → ∀ p ∈ d.typeParams.names, p ∉ r.names

instance : DecidablePred Apart := fun r =>
  decidable_of_iff (∀ name ∈ r.names, ∀ d, r.get? name = some d → ∀ p ∈ d.typeParams.names,
      p ∉ r.names)
    ⟨fun h name d hd => h name (mem_names_of_get? hd) d hd, fun h name _ => h name⟩

theorem Apart.mem_names_of_ancestorsVia (hr : r.Apart) {context : String} {trail : List String}
    {parents types : List TypeExpr} (h : r.ancestorsVia context trail parents = .ok types) :
    ∀ n ∈ types.map TypeExpr.name, n ∈ r.names := by
  refine ancestorsVia_induction
    (motive := fun _ _ types => ∀ n ∈ types.map TypeExpr.name, n ∈ r.names) ?_ ?_ h
  · intro _ n hn
    cases hn
  · intro trail parent rest d inherited ts others hd _ _ hts above beside n hn
    rcases mem_names_append_filter.mp hn with hn | hn
    · have hapart : ∀ t ∈ inherited, t.name ∉ d.typeParams.names := fun t ht hp =>
        hr _ d hd _ hp (above t.name (List.mem_map_of_mem ht))
      rcases (mem_names_throughParent hapart hts).mp hn with rfl | hn
      · exact mem_names_of_get? hd
      · exact above n hn
    · exact beside n hn

theorem Apart.unshadowed (hr : r.Apart) : r.Unshadowed := by
  intro name d types hd h t ht hp
  exact hr name d hd _ hp (hr.mem_names_of_ancestorsVia h _ (List.mem_map_of_mem ht))

theorem Unshadowed.mem_names_ancestors_iff (hr : r.Unshadowed) (hd : r.get? name = some d)
    {types : List TypeExpr} (h : r.ancestors d = .ok types) :
    n ∈ types.map TypeExpr.name ↔ TransGen r.Extends name n := by
  have key : n ∈ types.map TypeExpr.name ↔
      ∃ parent ∈ d.supertypes, ReflTransGen r.Extends parent.name n := by
    refine ancestorsVia_induction (motive := fun _ parents types =>
      n ∈ types.map TypeExpr.name ↔
        ∃ parent ∈ parents, ReflTransGen r.Extends parent.name n) ?_ ?_ h
    · simp
    · intro trail parent rest e inherited ts others he _ hinherited hts above beside
      have hstep : ReflTransGen r.Extends parent.name n ↔
          n = parent.name ∨ ∃ t ∈ e.supertypes, ReflTransGen r.Extends t.name n := by
        rw [ReflTransGen.cases_head_iff]
        constructor
        · rintro (heq | ⟨c, ⟨e', he', hc⟩, hn⟩)
          · exact .inl heq.symm
          · cases he.symm.trans he'
            obtain ⟨t, ht, rfl⟩ := List.mem_map.mp hc
            exact .inr ⟨t, ht, hn⟩
        · rintro (heq | ⟨t, ht, hn⟩)
          · exact .inl heq.symm
          · exact .inr ⟨t.name, extends_of_mem he ht, hn⟩
      rw [mem_names_append_filter, mem_names_throughParent (hr _ e _ he hinherited) hts, above,
        beside, List.exists_mem_cons_iff, hstep]
  rw [key, TransGen.head'_iff]
  constructor
  · rintro ⟨t, ht, hn⟩
    exact ⟨t.name, extends_of_mem hd ht, hn⟩
  · rintro ⟨c, ⟨e, he, hc⟩, hn⟩
    cases hd.symm.trans he
    obtain ⟨t, ht, rfl⟩ := List.mem_map.mp hc
    exact ⟨t, ht, hn⟩

/-- The class of a name has a path to `ancestor`. -/
def Gained (r : Registry) (name ancestor : String) : Prop :=
  ∃ d p, r.get? name = some d ∧ d.paths.get? ancestor = some p

/-- No definition has gained anything yet. -/
def Unconverted (r : Registry) : Prop :=
  ∀ name d, r.get? name = some d → d.paths = ∅

theorem Unconverted.not_gained (hr : r.Unconverted) {name ancestor : String} :
    ¬ r.Gained name ancestor := by
  rintro ⟨d, p, hd, hp⟩
  rw [hr name d hd] at hp
  cases hp

theorem gained_iff {ancestor : String} (hd : r.get? name = some d) :
    r.Gained name ancestor ↔ ancestor ∈ d.paths.keys := by
  rw [← not_iff_not, ← Table.get?_eq_none_iff, Option.eq_none_iff_forall_ne_some]
  constructor
  · exact fun h p hp => h ⟨d, p, hd, hp⟩
  · rintro h ⟨e, p, he, hp⟩
    cases hd.symm.trans he
    exact h p hp

theorem Apart.evolves (hr : r.Apart) (hs : r.Sound) (he : r.Evolves r')
    (ho : AgreesOff name r r') : r'.Apart := by
  have hnames : ∀ n, n ∈ r'.names → n ∈ r.names := by
    intro n hn
    obtain ⟨d', hd'⟩ := mem_names_iff.mp hn
    refine mem_names_iff.mpr (Option.isSome_iff_exists.mp ?_)
    by_cases h : n = name
    · rw [h, ← ho.on, ← h, hd']
      rfl
    · rw [← ho.off n h, hd']
      rfl
  intro n d' hd' p hp hm
  obtain ⟨d, hd⟩ := mem_names_iff.mp (hnames n (mem_names_of_get? hd'))
  obtain ⟨e, he, hevolves⟩ := he.exists_of_get? hs hd
  cases hd'.symm.trans he
  exact hr n d hd p (hevolves.typeParams ▸ hp) (hnames p hm)

end Registry

/-! ## Ways after one class has gained ancestors -/

/-- **A gain is passed on downwards.** If the ways from `name` are the old ones and those to the
names in `G`, and the ways from other names differ only beyond `name`, then a way is an old one, or
it starts at `name` or below and ends in `G`. -/
theorem transGen_iff_of_gain {name : String} {E E' : String → String → Prop} {G : String → Prop}
    (hoff : ∀ a b, a ≠ name → (E' a b ↔ E a b))
    (hon : ∀ b, TransGen E' name b ↔ TransGen E name b ∨ G b) (hac : ¬ TransGen E' name name)
    (a b : String) :
    TransGen E' a b ↔ TransGen E a b ∨ (a = name ∨ TransGen E a name) ∧ G b := by
  have hmono : ∀ {a b}, TransGen E a b → TransGen E' a b := fun {a b} h =>
    TransGen.closed (fun c d hcd => by
      by_cases hc : c = name
      · exact hc ▸ (hon d).mpr (.inl (.single (hc ▸ hcd)))
      · exact .single ((hoff c d hc).mpr hcd)) a b h
  have hthrough : ∀ {a b}, TransGen E' a b →
      TransGen E a b ∨ ReflTransGen E' a name ∧ TransGen E' name b := fun h =>
    Registry.transGen_or_through (fun a b ha => (hoff a b ha).mp) h
  constructor
  · intro h
    rcases hthrough h with h | ⟨below, h⟩
    · exact .inl h
    · -- the way to `name` is old, since it does not pass `name` twice
      have hbelow : a = name ∨ TransGen E a name := by
        rcases reflTransGen_iff_eq_or_transGen.mp below with heq | hto
        · exact .inl heq.symm
        · exact .inr ((hthrough hto).resolve_right fun hcycle => hac hcycle.2)
      rcases (hon b).mp h with h | h
      · rcases hbelow with rfl | hto
        · exact .inl h
        · exact .inl (hto.trans h)
      · exact .inr ⟨hbelow, h⟩
  · rintro (h | ⟨rfl | hto, hb⟩)
    · exact hmono h
    · exact (hon b).mpr (.inr hb)
    · exact (hmono hto).trans ((hon b).mpr (.inr hb))

/-- From `s` to `t` the class `name` gains what it has paths to in `t`, and no other definition
changes. -/
structure GainsAt (name : String) (s t : Registry) : Prop where
  sound : t.Sound
  apart : t.Apart
  agrees : s.AgreesOff name t
  ways : ∀ a b, TransGen t.Extends a b ↔ TransGen s.Extends a b ∨
    (a = name ∨ TransGen s.Extends a name) ∧ t.Gained name b
  fresh : ∀ b, t.Gained name b → ¬ TransGen s.Extends name b
  positive : ∀ d, t.get? name = some d → ∀ b p, d.paths.get? b = some p → 0 < p.distance

section

variable {s t : Registry} {name utility : String} {conversions : List Conversion}

theorem GainsAt.gained_iff (h : GainsAt name s t) {a b : String} (ha : a ≠ name) :
    t.Gained a b ↔ s.Gained a b := by
  rw [Registry.Gained, Registry.Gained, h.agrees.off a ha]

theorem GainsAt.mono (h : GainsAt name s t) {a b : String} (hab : TransGen s.Extends a b) :
    TransGen t.Extends a b :=
  (h.ways a b).mpr (.inl hab)

theorem closeClass_gainsAt (hs : s.Sound) (ha : s.Apart) (hc : s.HasKind .namedClass name)
    (hempty : ∀ d, s.get? name = some d → d.paths = ∅) {u : Unit}
    (h : closeClass name utility conversions s = .ok u t) : GainsAt name s t := by
  obtain ⟨-, d, hd, hkind⟩ := id hc
  obtain ⟨before, d', types, _, _, hbefore, hclass, hclosing⟩ := closeClass_closing
    ha.unshadowed hd (by simp [Definition.isNamedClass, hkind]) (hempty d hd) h
  have hevolves : s.Evolves t := closeClass_evolves hs hc h
  have hapart : t.Apart := ha.evolves hs hevolves hclass.agrees
  have hold : ∀ b, b ∈ before.map TypeExpr.name ↔ TransGen s.Extends name b := fun b =>
    ha.unshadowed.mem_names_ancestors_iff hd hbefore
  have hnew : ∀ b, b ∈ types.map TypeExpr.name ↔ TransGen t.Extends name b := fun b =>
    hapart.unshadowed.mem_names_ancestors_iff hclass.found hclass.ancestors
  have hgained : ∀ b, t.Gained name b ↔ b ∈ d'.paths.keys := fun b =>
    Registry.gained_iff hclass.found
  refine ⟨hs.evolves hevolves, hapart, hclass.agrees, ?_, fun b hb hway => ?_, ?_⟩
  · refine transGen_iff_of_gain (fun a b ha => ?_) (fun b => ?_) fun hcycle => ?_
    · rw [Registry.Extends, Registry.Extends, hclass.agrees.off a ha]
    · rw [← hnew, hclosing.names, hold, hgained]
    · exact (Registry.reachable_of_ancestors hclass.found hclass.ancestors hcycle).2 rfl
  · exact hclosing.fresh b ((hgained b).mp hb) ((hold b).mpr hway)
  · intro e he b p hp
    cases hclass.found.symm.trans he
    rw [(hclosing.path b p hp).2.2.2]
    exact Nat.succ_pos _

end

/-! ## Classes one after the other -/

/-- The classes `done` of `r` are closed in `s`, one after the other. -/
structure ClosedUpTo (r : Registry) (done : List String) (s : Registry) : Prop where
  sound : s.Sound
  apart : s.Apart
  pending : ∀ name, name ∉ done → s.get? name = r.get? name
  kept : ∀ a b, TransGen r.Extends a b → TransGen s.Extends a b
  reached : ∀ a b, s.Gained a b → TransGen s.Extends a b
  origin : ∀ a b, TransGen s.Extends a b →
    TransGen r.Extends a b ∨ ∃ c, (c = a ∨ TransGen s.Extends a c) ∧ s.Gained c b
  fresh : ∀ a b, s.Gained a b → ¬ TransGen r.Extends a b
  once : done.Pairwise fun c a => TransGen r.Extends a c → ∀ b, s.Gained c b → ¬ s.Gained a b
  positive : ∀ name d, s.get? name = some d → ∀ b p, d.paths.get? b = some p → 0 < p.distance

namespace ClosedUpTo

variable {r s t : Registry} {done : List String} {name : String}

theorem start (hs : r.Sound) (ha : r.Apart) (hr : r.Unconverted) : ClosedUpTo r [] r where
  sound := hs
  apart := ha
  pending _ _ := rfl
  kept _ _ := id
  reached _ _ h := absurd h hr.not_gained
  origin _ _ := .inl
  fresh _ _ h := absurd h hr.not_gained
  once := .nil
  positive name d hd b p hp := by
    rw [hr name d hd] at hp
    cases hp

theorem not_gained_of_pending (h : ClosedUpTo r done s) (hr : r.Unconverted) (hn : name ∉ done)
    {b : String} : ¬ s.Gained name b := by
  rintro ⟨d, p, hd, hp⟩
  exact hr.not_gained ⟨d, p, h.pending name hn ▸ hd, hp⟩

theorem skip (h : ClosedUpTo r done s) (hr : r.Unconverted) (hn : name ∉ done) :
    ClosedUpTo r (done ++ [name]) s where
  sound := h.sound
  apart := h.apart
  pending n hmem := h.pending n fun hm => hmem (List.mem_append_left _ hm)
  kept := h.kept
  reached := h.reached
  origin := h.origin
  fresh := h.fresh
  once := by
    refine List.pairwise_append.mpr ⟨h.once, List.pairwise_singleton _ _, fun c _ a ha => ?_⟩
    obtain rfl := List.mem_singleton.mp ha
    exact fun _ b _ => h.not_gained_of_pending hr hn
  positive := h.positive

/-- **One class more.** Its ancestors are those it had when its turn came, which include what
classes above it have gained by then, and those it has a path to. -/
theorem step (h : ClosedUpTo r done s) (hr : r.Unconverted) (hn : name ∉ done)
    (hg : GainsAt name s t) : ClosedUpTo r (done ++ [name]) t := by
  have hne : ∀ c ∈ done, c ≠ name := fun c hc he => hn (he ▸ hc)
  have hup : ∀ a b, s.Gained a b → t.Gained a b := fun a b hab =>
    (hg.gained_iff fun ha => h.not_gained_of_pending hr hn (ha ▸ hab)).mpr hab
  constructor
  case sound => exact hg.sound
  case apart => exact hg.apart
  case pending =>
    intro n hmem
    simp only [List.mem_append, List.mem_singleton, not_or] at hmem
    rw [hg.agrees.off n hmem.2, h.pending n hmem.1]
  case kept => exact fun a b hab => hg.mono (h.kept a b hab)
  case reached =>
    intro a b hab
    by_cases ha : a = name
    · exact (hg.ways a b).mpr (.inr ⟨.inl ha, ha ▸ hab⟩)
    · exact hg.mono (h.reached a b ((hg.gained_iff ha).mp hab))
  case origin =>
    intro a b hab
    rcases (hg.ways a b).mp hab with hab | ⟨habove, hgain⟩
    · rcases h.origin a b hab with hab | ⟨c, hac, hgain⟩
      · exact .inl hab
      · exact .inr ⟨c, hac.imp id hg.mono, hup c b hgain⟩
    · exact .inr ⟨name, habove.imp Eq.symm hg.mono, hgain⟩
  case fresh =>
    intro a b hab hway
    by_cases ha : a = name
    · subst ha
      exact hg.fresh b hab (h.kept a b hway)
    · exact h.fresh a b ((hg.gained_iff ha).mp hab) hway
  case once =>
    refine List.pairwise_append.mpr ⟨h.once.imp_of_mem fun {c a} hcd had hca hac b hb => ?_,
      List.pairwise_singleton _ _, fun c hcd a ha hac b hb hab => ?_⟩
    · rw [hg.gained_iff (hne a had)]
      exact hca hac b ((hg.gained_iff (hne c hcd)).mp hb)
    · -- what the class above has gained is an ancestor already
      obtain rfl := List.mem_singleton.mp ha
      have hcb := h.reached c b ((hg.gained_iff (hne c hcd)).mp hb)
      exact hg.fresh b hab ((h.kept a c hac).trans hcb)
  case positive =>
    intro n e he b p hp
    by_cases hname : n = name
    · subst hname
      exact hg.positive e he b p hp
    · exact h.positive n e (hg.agrees.off n hname ▸ he) b p hp

end ClosedUpTo

/-- **All classes are closed.** -/
theorem closeClasses_closed {r r' : Registry} {u : Unit} (hs : r.Sound) (ha : r.Apart)
    (hr : r.Unconverted) (h : closeClasses r = .ok u r') :
    ClosedUpTo r (r.classes.map Definition.name) r' := by
  obtain ⟨_, _, hget, h⟩ := Resolution.bind_eq_ok_iff.mp h
  obtain ⟨rfl, rfl⟩ := Resolution.get_eq_ok_iff.mp hget
  have hnodup := hs.nodup_classes
  refine Resolution.forM_induction_prefix
    (fun done s => r.Evolves s ∧ ClosedUpTo r (done.map Definition.name) s) ?_
    ⟨.refl r, .start hs ha hr⟩ h |>.2
  intro done d rest s t _ hsplit ⟨hevolves, hclosed⟩ hstep
  have hd : d ∈ r.classes := hsplit ▸ List.mem_append_right _ List.mem_cons_self
  have hnew : d.name ∉ done.map Definition.name := fun hm => by
    rw [hsplit, List.map_append, List.map_cons] at hnodup
    exact (List.nodup_append.mp hnodup).2.2 _ hm _ List.mem_cons_self rfl
  rw [List.map_append, List.map_singleton]
  split at hstep
  · obtain ⟨_, rfl⟩ := Resolution.pure_eq_ok_iff.mp hstep
    exact ⟨hevolves, hclosed.skip hr hnew⟩
  · rename_i hn
    rw [Resolution.located_eq_ok_iff] at hstep
    have hc := (hs.hasKind_of_mem_classes hd hn).evolves hs hevolves
    refine ⟨hevolves.trans (closeClass_evolves hclosed.sound hc hstep),
      hclosed.step hr hnew (closeClass_gainsAt hclosed.sound hclosed.apart hc ?_ hstep)⟩
    exact fun e he => hr d.name e (hclosed.pending d.name hnew ▸ he)

end FluentGrammar
