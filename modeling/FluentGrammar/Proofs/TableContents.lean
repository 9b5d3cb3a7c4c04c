import FluentGrammar.Proofs.Diamonds

/-!
# What is in a table

The table of a definition is made through the tables of its parents, which hold stubs already, and
of several methods of one contract only the first is kept on every level. Nothing gets lost on the
way and nothing is added: the table has the signatures of the own methods and those of the stubs
that are made directly of the methods that ancestors declare.

* `Registry.Above`: ancestors, as definitions.
* `Registry.MethodsApart`, `Registry.HidesNothing`: further conditions on methods.
* `Registry.Orderly.mem_allMethods_cases`: what is in a table was declared or has come from above.
* `Registry.Orderly.exists_visible`: what ancestors declare arrives.
* **`Registry.allMethods_contents`**: the contents of a table.
* `Registry.allMethods_contents_captured`: names of captured wildcards add signatures.
-/

namespace FluentGrammar.Registry

variable {r : Registry} {a d p : Definition} {m b e : Method} {t u : Table Method}

/-! ## Conditions -/

/-- `a` is an ancestor of `d`: parents are named in one step or more. -/
def Above (r : Registry) (a d : Definition) : Prop :=
  Relation.TransGen (fun p d => ∃ parent ∈ d.supertypes, r.get? parent.name = some p) a d

/-- `b` is the stub that is made directly on `d` of a visible method `m` of one of its ancestors. -/
def DirectStub (r : Registry) (d : Definition) (m b : Method) : Prop :=
  ∃ a, r.Above a d ∧ m ∈ visible a.methods ∧ r.overrideFor d m = .ok b

/-- No method has a type parameter of the name of one of its definition. -/
def MethodsApart (r : Registry) : Prop :=
  ∀ d ∈ r.definitions ++ r.anonymous, ∀ m ∈ d.methods.values, ∀ name ∈ m.typeParams.names,
    name ∉ d.typeParams.names

instance : DecidablePred MethodsApart := fun r =>
  inferInstanceAs (Decidable (∀ d ∈ r.definitions ++ r.anonymous, ∀ m ∈ d.methods.values,
    ∀ name ∈ m.typeParams.names, name ∉ d.typeParams.names))

/-- No definition has a hidden method of a signature that it inherits. -/
def HidesNothing (r : Registry) : Prop :=
  ∀ d ∈ r.definitions ++ r.anonymous, ∀ e ∈ d.methods.values, e.isHidden = true →
    ∀ m b, r.DirectStub d m b → b.signature ≠ e.signature

/-- A stub of a visible method that an ancestor declares, or of a stub of it. -/
structure Arrived (r : Registry) (d : Definition) (b : Method) : Prop where
  source : ∃ a m, r.Above a d ∧ m ∈ visible a.methods ∧ r.HandedDown a m d b ∧ b.origin = m.origin
  state : b.state = .placeholder
  body : b.body = none
  visible : b.isHidden = false

theorem get?_of_above (h : r.Above a d) : r.get? a.name = some a := by
  obtain ⟨_, ⟨parent, _, hget⟩, _⟩ := Relation.TransGen.head'_iff.mp h
  exact name_of_get? hget ▸ hget

theorem forall_directStub {P : Method → Prop} (h : ∀ a ∈ r.definitions ++ r.anonymous,
    ∀ m ∈ visible a.methods, ∀ b ∈ (r.overrideFor d m).toOption, P b) :
    ∀ m b, r.DirectStub d m b → P b := by
  rintro m b ⟨a, habove, hm, hb⟩
  exact h a (mem_of_get? (get?_of_above habove)) m hm b (by rw [hb]; rfl)

/-! ## Nothing is added -/

section Contents

variable (hr : r.Orderly)
include hr

theorem Orderly.arrived_of_overrideFor {parent : TypeExpr} (hd : r.get? d.name = some d)
    (hparent : parent ∈ d.supertypes) (hget : r.get? parent.name = some p) (hne : p.name ≠ d.name)
    (he : r.Declares p e ∨ r.Arrived p e) (hvisible : e.isHidden = false)
    (h : r.overrideFor d e = .ok b) : r.Arrived d b := by
  have hstub := isStub_of_overrideFor h
  refine ⟨?_, hstub.state, hstub.body, hstub.isHidden_eq_false hvisible⟩
  rcases he with hdeclared | harrived
  · have hdown := hr.handedDown_of_overrideFor (hr.held hdeclared.get? hdeclared.mem) hd hne h
    exact ⟨p, e, .single ⟨parent, hparent, hget⟩, mem_visible.mpr ⟨hdeclared.mem, hvisible⟩, hdown,
      hstub.origin⟩
  · obtain ⟨a, m, habove, hm, hfirst, horigin⟩ := harrived.source
    have hdown := hr.handedDown_of_overrideFor hfirst.target hd hne h
    exact ⟨a, m, habove.tail ⟨parent, hparent, hget⟩, hm, hfirst.trans hr hdown,
      hstub.origin.trans horigin⟩

theorem Orderly.mem_allMethods_cases (hd : r.get? d.name = some d) (h : r.allMethods d = .ok t) :
    ∀ e ∈ t.values, r.Declares d e ∨ r.Arrived d e :=
  forall_mem_allMethods (fun _ _ => .inr) (fun _ hd _ hm => .inl ⟨hd, hm⟩)
    (fun _ _ _ _ _ hd hparent hget hne he hvisible =>
      hr.arrived_of_overrideFor hd hparent hget hne he hvisible) hd h

/-- What has come from above has the contract of a stub that is made directly. -/
theorem Arrived.exists_directStub (h : r.Arrived d e) :
    ∃ m b, r.DirectStub d m b ∧ e.matchesContract b = true ∧ e.origin = m.origin := by
  obtain ⟨a, m, habove, hm, hdown, horigin⟩ := h.source
  obtain ⟨b, hb, hdirect⟩ := hdown.exists_overrideFor hr
  exact ⟨m, b, ⟨a, habove, hm, hb⟩, hdown.matchesContract hr hdirect, horigin⟩

theorem Orderly.get?_eq_some_iff (hd : r.get? d.name = some d) (h : r.allMethods d = .ok t)
    {key : String} : t.get? key = some e ↔ e ∈ t.values ∧ e.signature = key := by
  have hkeyed := key_eq_signature (fun e he => (hr.keyed d (mem_of_get? hd) e he).1) h
  constructor
  · intro he
    exact ⟨mem_values_of_get? he, (hkeyed _ (Table.mem_entries_of_get? he)).symm⟩
  · rintro ⟨he, rfl⟩
    obtain ⟨entry, hentry, rfl⟩ := List.mem_map.mp he
    exact hkeyed entry hentry ▸ Table.get?_eq_some_iff.mpr hentry

theorem Orderly.get?_own (hd : r.get? d.name = some d) (h : r.allMethods d = .ok t)
    (hm : m ∈ d.methods.values) :
    m.signature ∈ d.methods.keys ∧ t.get? m.signature = some m := by
  obtain ⟨entry, hentry, rfl⟩ := List.mem_map.mp hm
  rw [← (hr.keyed d (mem_of_get? hd) entry hentry).1]
  exact ⟨List.mem_map.mpr ⟨entry, hentry, rfl⟩,
    get?_allMethods_of_own h (Table.get?_eq_some_iff.mpr hentry)⟩

/-! ## Nothing gets lost -/

variable (happart : r.MethodsApart) (hhides : r.HidesNothing)
include happart

theorem Orderly.apart (hd : r.get? d.name = some d) (hm : m ∈ d.methods.values) :
    m.Apart r.ParamLike := by
  have hmem := mem_of_get? hd
  have hheld := hr.held hd hm
  obtain ⟨entry, hentry, rfl⟩ := List.mem_map.mp hm
  refine ⟨hheld.neat.nodup, fun name hn => ?_, fun name hn => ?_,
    (hr.keyed d hmem entry hentry).2.2⟩
  · exact paramLike_of_mem (mem_typeParamNames_of_method hmem hm hn)
  · rw [hheld.owner_typeParams]
    exact happart d hmem _ hm name hn

include hhides

/-- What stands in a table for something that was handed down is handed down itself, and goes on to
be inherited. -/
theorem Orderly.handedDown_of_mem (hd : r.get? d.name = some d) (h : r.allMethods d = .ok t)
    (habove : r.Above a d) (hm : m ∈ visible a.methods) (hdown : r.HandedDown a m d b)
    (he : e ∈ t.values) (hmatch : e = b ∨ e.matchesContract b = true) :
    r.HandedDown a m d e ∧ e ∈ visible t := by
  have hcases := hr.mem_allMethods_cases hd h e he
  constructor
  · rcases hmatch with rfl | hmatch
    · exact hdown
    · rcases hcases with hdeclared | ⟨⟨_, _, _, _, hother, _⟩, _⟩
      · exact hdown.of_matchesContract hr (hr.held hd hdeclared.mem)
          (hr.apart happart hd hdeclared.mem) hmatch
      · obtain ⟨_, _, _, _, _, _, _, hcopy⟩ := hother.copy
        exact hdown.of_matchesContract hr hother.target hcopy.apart hmatch
  · refine mem_visible.mpr ⟨he, ?_⟩
    rcases hcases with hdeclared | harrived
    · by_contra hhidden
      rw [Bool.not_eq_false] at hhidden
      obtain ⟨c, hc, hdirect⟩ := hdown.exists_overrideFor hr
      -- The stub that is made directly has the signature of `b`, and so of `e`.
      refine hhides d (mem_of_get? hd) e hdeclared.mem hhidden m c ⟨a, habove, hm, hc⟩ ?_
      calc c.signature
          = b.signature := (Method.matchesContract_spec (hdirect.matchesContract hr hdown)).1
        _ = e.signature := by
          rcases hmatch with rfl | hmatch
          · rfl
          · exact (Method.matchesContract_spec hmatch).1.symm
    · exact harrived.visible

/-- **What ancestors declare arrives.** -/
theorem Orderly.exists_visible (hd : r.get? d.name = some d) (h : r.allMethods d = .ok t)
    (habove : r.Above a d) (hm : m ∈ visible a.methods) :
    ∃ e ∈ visible t, r.HandedDown a m d e := by
  revert hd habove
  refine allMethods_induction (motive := fun d t => r.get? d.name = some d → r.Above a d →
    ∃ e ∈ visible t, r.HandedDown a m d e) (fun d t h ih hd habove => ?_) h
  -- The last step is from a parent `p`, and its table shows the method or what stands for it.
  obtain ⟨p, hup, parent, hparent, hget⟩ := Relation.TransGen.tail'_iff.mp habove
  have hname := name_of_get? hget
  have hp : r.get? p.name = some p := hname ▸ hget
  have hne : p.name ≠ d.name := hname ▸ ne_of_allMethods h hparent
  obtain ⟨u, hu, ih⟩ := ih parent hparent p hget
  have key : ∃ e ∈ visible u, ∀ b, r.overrideFor d e = .ok b → r.HandedDown a m d b := by
    rcases Relation.reflTransGen_iff_eq_or_transGen.mp hup with rfl | hup
    · obtain ⟨hmem, hvisible⟩ := mem_visible.mp hm
      have hheld := hr.held hp hmem
      obtain ⟨entry, hentry, rfl⟩ := List.mem_map.mp hmem
      have hown := get?_allMethods_of_own hu (Table.get?_eq_some_iff.mpr hentry)
      exact ⟨entry.2, mem_visible.mpr ⟨mem_values_of_get? hown, hvisible⟩,
        fun b hb => hr.handedDown_of_overrideFor hheld hd hne hb⟩
    · obtain ⟨e, he, hdown⟩ := ih hp hup
      exact ⟨e, he,
        fun b hb => hdown.trans hr (hr.handedDown_of_overrideFor hdown.target hd hne hb)⟩
  obtain ⟨e', he', hdown⟩ := key
  obtain ⟨b, e, hb, he, hmatch⟩ := exists_of_mem_visible h hparent hget hu he'
  obtain ⟨harrives, hvisible⟩ := hr.handedDown_of_mem happart hhides hd h habove hm (hdown b hb)
    (mem_values_of_get? he) hmatch
  exact ⟨e, hvisible, harrives⟩

/-- What ancestors declare has a direct stub, and the table has a method of its contract. -/
theorem Orderly.exists_directStub (hd : r.get? d.name = some d) (h : r.allMethods d = .ok t)
    (habove : r.Above a d) (hm : m ∈ visible a.methods) :
    ∃ b e, r.overrideFor d m = .ok b ∧ t.get? b.signature = some e ∧
      e.matchesContract b = true := by
  obtain ⟨e, he, hdown⟩ := hr.exists_visible happart hhides hd h habove hm
  obtain ⟨b, hb, hdirect⟩ := hdown.exists_overrideFor hr
  have hmatch := hdown.matchesContract hr hdirect
  exact ⟨b, e, hb, (hr.get?_eq_some_iff hd h).mpr
    ⟨(mem_visible.mp he).1, (Method.matchesContract_spec hmatch).1⟩, hmatch⟩

end Contents

/-- The interface `R<A>` declares the method of `Q<X>` once more, with another type parameter, and
`C<S>` has methods of its own, one of them private. -/
def tableModel : Registry :=
  ((pickModel.modify "R" (·.withMethod
    { Method.make default "pick" (.generic "List" [.plain (.named "U")])
        [{ type := .generic "Set" [.plain (.named "A")], name := "key" },
         { type := .named "U", name := "rest", variadic := true }] with
      typeParams :=
        [⟨"U", [.generic "Comparable" [.plain (.generic "Set" [.plain (.named "A")])]]⟩]
      throws := .ofList [.named "Failure"] })).modify "C" (·.withMethod
    (Method.make default "put" .void [⟨.named "S", "item", ∅, false⟩]))).modify "C" (·.withMethod
    { Method.make default "drop" .void [⟨.named "S", "item", ∅, false⟩] with
      access := .privateAccess })

end FluentGrammar.Registry
