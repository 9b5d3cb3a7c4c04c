import FluentGrammar.Proofs.MethodOutline
import FluentGrammar.Proofs.MethodTable

/-!
# Stored methods

What holds of every method that is stored on a definition: it stands under its signature and belongs
to the definition, it is public and abstract as the kind of the definition has it, and it is
settled. Inherited stubs are never stored; they are settled before.

* `Method.StoredOn`: a method as it is stored on its owner.
* `Method.Fits`: a method that may be added to a definition of some kind.
* `Definition.WellFormed`: all methods of a definition are stored properly.
* `Definition.Adds`: a definition with more methods, which keeps it well-formed.
* `Registry.mem_values_allMethods`: the methods of a table are own ones and stubs.
-/

namespace FluentGrammar

/-! ## Methods that can be stored -/

namespace Method

variable {m m' : Method} {owner : Owner} {kind : Kind}

/-- A method as it is stored on its owner. -/
structure StoredOn (owner : Owner) (m : Method) : Prop where
  owner_eq : m.owner = owner
  isPublic_eq : m.isPublic = owner.kind.isPublic m.access
  isAbstract_eq : m.isAbstract = owner.kind.isAbstract m.modifiers
  state : m.state ≠ .placeholder
  implemented : m.state = .implemented → m.body.isSome = true ∧ m.isAbstract = false
  declaredAbstract : m.state = .declaredAbstract → m.isAbstract = true ∧ m.body = none

instance (owner : Owner) (m : Method) : Decidable (m.StoredOn owner) :=
  decidable_of_iff (m.owner = owner ∧ m.isPublic = owner.kind.isPublic m.access ∧
      m.isAbstract = owner.kind.isAbstract m.modifiers ∧ m.state ≠ .placeholder ∧
      (m.state = .implemented → m.body.isSome = true ∧ m.isAbstract = false) ∧
      (m.state = .declaredAbstract → m.isAbstract = true ∧ m.body = none))
    ⟨fun h => ⟨h.1, h.2.1, h.2.2.1, h.2.2.2.1, h.2.2.2.2.1, h.2.2.2.2.2⟩,
      fun h => ⟨h.owner_eq, h.isPublic_eq, h.isAbstract_eq, h.state, h.implemented,
        h.declaredAbstract⟩⟩

/-- A method that may be added to a definition of the given kind. -/
structure Fits (kind : Kind) (m : Method) : Prop where
  state : m.state ≠ .placeholder
  implemented : m.state = .implemented →
    m.body.isSome = true ∧ kind.isAbstract m.modifiers = false
  declaredAbstract : m.state = .declaredAbstract →
    kind.isAbstract m.modifiers = true ∧ m.body = none

theorem Fits.reown (h : m.Fits owner.kind) : (m.reown owner).StoredOn owner :=
  ⟨rfl, rfl, rfl, h.state, h.implemented, h.declaredAbstract⟩

theorem StoredOn.isOpen_eq_false (h : m.StoredOn owner) : m.isOpen = false := by
  simp [isOpen, h.state]

theorem fits_of_declared (h : m.state = .declared) : m.Fits kind := by
  refine ⟨?_, ?_, ?_⟩ <;> simp [h]

theorem fits_of_implement {body : String} (hk : kind ≠ .interface)
    (h : m.implement body = .ok m') : m'.Fits kind := by
  unfold implement at h
  split at h
  · obtain rfl := Except.ok.inj h
    refine ⟨by simp, fun _ => ⟨rfl, ?_⟩, by simp⟩
    cases kind with
    | interface => exact absurd rfl hk
    | namedClass | anonymousClass => simp [Kind.isAbstract, OrderedSet.mem_erase]
  · cases h

theorem fits_of_declareAbstract (hb : m.body = none) (h : m.declareAbstract = .ok m') :
    m'.Fits m.owner.kind := by
  unfold declareAbstract at h
  split at h
  · obtain rfl := Except.ok.inj h
    refine ⟨by simp, by simp, fun _ => ⟨?_, hb⟩⟩
    cases hk : m.owner.kind with
    | interface => rfl
    | namedClass | anonymousClass => simp [Kind.isAbstract, OrderedSet.mem_insert]
  · cases h

end Method

/-! ## Well-formed definitions -/

namespace Definition

variable {d d' d'' : Definition} {m : Method} {P : Method → Prop}

/-- Every method stands under its signature and is stored as it should be. -/
def WellFormed (d : Definition) : Prop :=
  ∀ e ∈ d.methods.entries, e.1 = e.2.signature ∧ e.2.StoredOn d.owner

instance : DecidablePred WellFormed := fun d =>
  inferInstanceAs (Decidable (∀ e ∈ d.methods.entries, e.1 = e.2.signature ∧ e.2.StoredOn d.owner))

/-- Every method stands under its signature, belongs to the definition and is abstract according to
its modifiers. -/
def HoldsMethods (d : Definition) : Prop :=
  ∀ e ∈ d.methods.entries, e.1 = e.2.signature ∧ e.2.owner = d.owner ∧
    e.2.isAbstract = d.kind.isAbstract e.2.modifiers

instance : DecidablePred HoldsMethods := fun d =>
  inferInstanceAs (Decidable (∀ e ∈ d.methods.entries, e.1 = e.2.signature ∧
    e.2.owner = d.owner ∧ e.2.isAbstract = d.kind.isAbstract e.2.modifiers))

theorem WellFormed.holdsMethods (h : d.WellFormed) : d.HoldsMethods := fun e he =>
  ⟨(h e he).1, (h e he).2.owner_eq, (h e he).2.isAbstract_eq⟩

theorem WellFormed.storedOn (h : d.WellFormed) (hm : m ∈ d.methods.values) : m.StoredOn d.owner := by
  obtain ⟨e, he, rfl⟩ := List.mem_map.mp hm
  exact (h e he).2

theorem WellFormed.get?_signature (h : d.WellFormed) (hm : m ∈ d.methods.values) :
    d.methods.get? m.signature = some m := by
  obtain ⟨e, he, rfl⟩ := List.mem_map.mp hm
  rw [Table.get?_eq_some_iff, ← (h e he).1]
  exact he

theorem WellFormed.congr (h : d.WellFormed) (hf : d.SameFrame d') (hm : d'.methods = d.methods) :
    d'.WellFormed := by
  intro e he
  rw [hf.owner]
  exact h e (hm ▸ he)

/-- `d'` is `d` with more methods at the end, which have the property `P`. -/
structure Adds (P : Method → Prop) (d d' : Definition) : Prop where
  frame : d.SameFrame d'
  methods : ∃ more : List Method,
    d'.methods.entries = d.methods.entries ++ more.map (fun m => (m.signature, m)) ∧
    ∀ m ∈ more, m.StoredOn d.owner ∧ P m

theorem Adds.refl (P : Method → Prop) (d : Definition) : d.Adds P d :=
  ⟨.refl d, [], by simp, by simp⟩

theorem Adds.trans (h₁ : d.Adds P d') (h₂ : d'.Adds P d'') : d.Adds P d'' := by
  obtain ⟨ms, hms, hp⟩ := h₁.methods
  obtain ⟨ns, hns, hq⟩ := h₂.methods
  refine ⟨h₁.frame.trans h₂.frame, ms ++ ns, ?_, fun m hm => ?_⟩
  · rw [hns, hms, List.map_append, List.append_assoc]
  · rcases List.mem_append.mp hm with hm | hm
    · exact hp m hm
    · exact h₁.frame.owner ▸ hq m hm

theorem Adds.wellFormed (h : d.Adds P d') (hd : d.WellFormed) : d'.WellFormed := by
  obtain ⟨ms, hms, hp⟩ := h.methods
  intro e he
  rw [hms] at he
  rw [h.frame.owner]
  rcases List.mem_append.mp he with he | he
  · exact hd e he
  · obtain ⟨m, hm, rfl⟩ := List.mem_map.mp he
    exact ⟨rfl, (hp m hm).1⟩

theorem adds_of_addMethod (h : d.addMethod m = .ok d') (hm : m.Fits d.kind)
    (hp : P (m.reown d.owner)) : d.Adds P d' := by
  obtain ⟨hk, rfl⟩ := addMethod_eq_ok_iff.mp h
  refine ⟨⟨rfl, rfl, rfl⟩, [m.reown d.owner], ?_, ?_⟩
  · exact Table.entries_insert_of_not_mem hk _
  · have hstored : (m.reown d.owner).StoredOn d.owner := Method.Fits.reown hm
    simpa using ⟨hstored, hp⟩

theorem addMethods_spec {ms : List Method} (h : d.addMethods ms = .ok d') :
    d.SameFrame d' ∧ d'.methods.entries =
      d.methods.entries ++ (ms.map (·.reown d.owner)).map fun m => (m.signature, m) := by
  induction ms generalizing d with
  | nil => exact Except.ok.inj h ▸ ⟨.refl d, by simp⟩
  | cons m ms ih =>
    obtain ⟨e, he, h⟩ := Except.bind_eq_ok_iff.mp h
    have hframe := sameFrame_of_addMethod he
    obtain ⟨hframe', hentries⟩ := ih h
    obtain ⟨hnew, rfl⟩ := addMethod_eq_ok_iff.mp he
    refine ⟨hframe.trans hframe', ?_⟩
    rw [hentries, hframe.owner, Table.entries_insert_of_not_mem hnew]
    simp

theorem exists_addMethods {ms : List Method}
    (hn : (ms.map fun m => (m.reown d.owner).signature).Nodup)
    (hnew : ∀ m ∈ ms, (m.reown d.owner).signature ∉ d.methods.keys) :
    ∃ d', d.addMethods ms = .ok d' := by
  induction ms generalizing d with
  | nil => exact ⟨d, rfl⟩
  | cons m ms ih =>
    obtain ⟨hm, hnew⟩ := List.forall_mem_cons.mp hnew
    rw [List.map_cons, List.nodup_cons] at hn
    obtain ⟨e, he⟩ : ∃ e, d.addMethod m = .ok e := ⟨_, addMethod_eq_ok_iff.mpr ⟨hm, rfl⟩⟩
    have howner : e.owner = d.owner := (sameFrame_of_addMethod he).owner
    obtain ⟨d', hd'⟩ := ih (d := e) (howner ▸ hn.2) fun m' hm' => by
      obtain ⟨-, rfl⟩ := addMethod_eq_ok_iff.mp he
      rw [howner, Table.keys_insert, if_neg hm, List.mem_append, List.mem_singleton, not_or]
      exact ⟨hnew m' hm', fun hsame => hn.1 (List.mem_map.mpr ⟨m', hm', hsame⟩)⟩
    exact ⟨d', Except.bind_eq_ok_iff.mpr ⟨e, he, hd'⟩⟩

theorem exists_of_addMethods_error {ms : List Method} {e : ModelFault}
    (h : d.addMethods ms = .error e) :
    ∃ m ∈ ms, e = .duplicateMethod d.name (m.reown d.owner).signature := by
  induction ms generalizing d with
  | nil => cases h
  | cons m ms ih =>
    cases hadd : d.addMethod m with
    | error e' =>
      have he : e = e' := by
        rw [addMethods, List.foldlM_cons, hadd] at h
        exact (Except.error.inj h).symm
      refine ⟨m, List.mem_cons_self, ?_⟩
      unfold addMethod at hadd
      dsimp only at hadd
      split at hadd
      · rw [he, ← Except.error.inj hadd]
      · cases hadd
    | ok d' =>
      have hrest : d'.addMethods ms = .error e := by
        rwa [addMethods, List.foldlM_cons, hadd] at h
      have hframe := sameFrame_of_addMethod hadd
      obtain ⟨m', hm', he⟩ := ih hrest
      exact ⟨m', List.mem_cons_of_mem _ hm', by rw [he, hframe.name, hframe.owner]⟩

theorem adds_of_addMethods {ms : List Method} (h : d.addMethods ms = .ok d')
    (hm : ∀ m ∈ ms, m.Fits d.kind ∧ P (m.reown d.owner)) : d.Adds P d' := by
  obtain ⟨hframe, hentries⟩ := addMethods_spec h
  refine ⟨hframe, _, hentries, fun n hn => ?_⟩
  obtain ⟨m, hmem, rfl⟩ := List.mem_map.mp hn
  obtain ⟨hfits, hp⟩ := hm m hmem
  exact ⟨Method.Fits.reown hfits, hp⟩

end Definition

/-! ## Methods of tables -/

namespace Registry

variable {r : Registry} {d : Definition} {t : Table Method} {m : Method}

/-- The methods of a table are own ones and stubs of what is visible on a parent. -/
theorem mem_values_allMethods (h : r.allMethods d = .ok t) (hm : m ∈ t.values) :
    m ∈ d.methods.values ∨ m.signature ∉ d.methods.keys ∧
      ∃ parent ∈ d.supertypes, ∃ p inherited e, r.get? parent.name = some p ∧
        r.allMethods p = .ok inherited ∧ e ∈ visible inherited ∧ r.overrideFor d e = .ok m := by
  obtain ⟨lists, hlists, hmerge⟩ := exists_stubs_of_allMethods h
  obtain ⟨rest, hrest, hall⟩ := entries_of_foldlM_merge hmerge
  obtain ⟨entry, hentry, rfl⟩ := List.mem_map.mp hm
  rw [hrest] at hentry
  rcases List.mem_append.mp hentry with hown | hstub
  · exact .inl (List.mem_map.mpr ⟨entry, hown, rfl⟩)
  · obtain ⟨hstubs, hkey, hnew⟩ := hall entry hstub
    obtain ⟨stubs, hstubs, hmem⟩ := List.mem_flatten.mp hstubs
    obtain ⟨parent, hparent, p, inherited, hget, hi, hmap⟩ :=
      exists_left_of_forall₂ hlists stubs hstubs
    obtain ⟨e, he, hover⟩ := Except.exists_of_mem_mapM hmap _ hmem
    exact .inr ⟨hkey ▸ hnew, parent, hparent, p, inherited, e, hget, hi, he, hover⟩

theorem isStub_of_overrideFor {e : Method} (h : r.overrideFor d e = .ok m) : e.IsStub d.owner m := by
  obtain ⟨_, _, hstub⟩ := Except.bind_eq_ok_iff.mp h
  exact (Method.stub_eq_ok hstub).1

/-- The methods of a table belong to its definition and are abstract according to their modifiers.
-/
theorem owner_of_mem_allMethods (hd : d.HoldsMethods) (h : r.allMethods d = .ok t)
    (hm : m ∈ t.values) :
    m.owner = d.owner ∧ m.isAbstract = m.owner.kind.isAbstract m.modifiers := by
  rcases mem_values_allMethods h hm with hown | ⟨_, _, _, _, _, e, _, _, _, hover⟩
  · obtain ⟨entry, hentry, rfl⟩ := List.mem_map.mp hown
    obtain ⟨_, howner, habstract⟩ := hd entry hentry
    exact ⟨howner, by rw [howner, habstract]; rfl⟩
  · have hstub := isStub_of_overrideFor hover
    exact ⟨hstub.owner, hstub.owner ▸ hstub.isAbstract⟩

theorem isStub_of_mem_allMethods (hd : d.WellFormed) (h : r.allMethods d = .ok t)
    (hm : m ∈ t.values) : m.StoredOn d.owner ∨ ∃ e : Method, e.IsStub d.owner m := by
  rcases mem_values_allMethods h hm with hown | ⟨_, _, _, _, _, e, _, _, _, hover⟩
  · exact .inl (hd.storedOn hown)
  · exact .inr ⟨e, isStub_of_overrideFor hover⟩

end Registry

end FluentGrammar
