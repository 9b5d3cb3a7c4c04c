import FluentGrammar.Proofs.InheritedStubs
import FluentGrammar.Proofs.PromotedTables
import FluentGrammar.Proofs.RedundantInterfaces

/-!
# Delegates of inherited methods

A class gets a body for an inherited method if the entry of its table has a delegate. Where several
parents have a method of the signature, the entry is the stub from the first of them, and delegates
of the others do not count. So a class may be settled with its interfaces in one order and not in
another, unless they agree on which methods can be forwarded.

* `exists_implementClass_iff`, `implementClass_fault`: when a class can be settled.
* `Registry.StandsFor`: the declaration behind an entry of a table.
* `Registry.ServedAlike`, `Registry.exists_implementClass_reorder_iff`: interfaces in another order.
* `Registry.HandledIn`: the registry in which the stage handles a class.
* **`implementMethods_forwards_to_first`**: the declaration that is met first decides.
* `implementMethods_passes_over_delegate`: a delegate that is not used.
-/

namespace FluentGrammar

/-! ## One open method -/

/-- An open method that has nothing to forward to. -/
def Method.isUnserved (m : Method) : Bool :=
  m.isOpen && m.delegate.isNone

section Settle

variable {d : Definition} {m : Method}

theorem settle_of_delegate {x : Delegate} (ho : m.isOpen = true) (hx : m.delegate = some x) :
    ∃ m', settle d m = .ok m' ∧ m'.state = .implemented ∧
      m'.body = some (m.forward (x.utility ++ "." ++ x.method) (some "this")) := by
  unfold settle Method.implement
  rw [hx, ho]
  exact ⟨_, rfl, rfl, rfl⟩

theorem settle_of_isUnserved (ha : d.isAbstract = false) (hu : m.isUnserved = true) :
    settle d m = .error (.missingImplementation d.name m.declaration) := by
  obtain ⟨_, hnone⟩ := Bool.and_eq_true_iff.mp hu
  rw [Option.isNone_iff_eq_none] at hnone
  unfold settle
  rw [hnone, ha]
  rfl

theorem exists_delegate (ho : m.isOpen = true) (hu : m.isUnserved = false) :
    ∃ x, m.delegate = some x := by
  rw [Method.isUnserved, ho, Bool.true_and, Option.isNone_eq_false_iff] at hu
  exact Option.isSome_iff_exists.mp hu

theorem isUnserved_of_settle_eq_error {fault : ModelFault} (ho : m.isOpen = true)
    (h : settle d m = .error fault) : m.isUnserved = true := by
  by_contra hu
  rw [Bool.not_eq_true] at hu
  obtain ⟨x, hx⟩ := exists_delegate ho hu
  obtain ⟨m', hm', _⟩ := settle_of_delegate (d := d) ho hx
  cases h.symm.trans hm'

end Settle

/-! ## When a class can be settled -/

section OneClass

variable {r r' : Registry} {name : String} {d : Definition} {t : Table Method}

theorem exists_addMethods_of_settled (hw : d.WellFormed) (ht : r.allMethods d = .ok t)
    {settled : List Method} (h : (t.values.filter Method.isOpen).mapM (settle d) = .ok settled) :
    ∃ d', d.addMethods settled = .ok d' := by
  have howner : ∀ m ∈ t.values, m.owner = d.owner := fun m hm =>
    (Registry.owner_of_mem_allMethods hw.holdsMethods ht hm).1
  have hsignatures : settled.map (fun m => (m.reown d.owner).signature) =
      (t.values.filter Method.isOpen).map Method.signature := by
    have hpairs := (List.forall₂_and_left _ _).mpr ⟨fun _ => id, Except.mapM_eq_ok_iff.mp h⟩
    symm
    rw [← List.forall₂_eq_eq_eq, List.forall₂_map_left_iff, List.forall₂_map_right_iff]
    refine hpairs.imp ?_
    rintro m m' ⟨hm, hm'⟩
    exact (signature_of_settle hm' (howner m (List.mem_filter.mp hm).1)).symm
  have hkeys : t.values.map Method.signature = t.keys := by
    rw [Table.values, Table.keys, List.map_map]
    exact List.map_congr_left fun e he =>
      (Registry.key_eq_signature (fun e he => (hw e he).1) ht e he).symm
  apply Definition.exists_addMethods
  · rw [hsignatures]
    exact (hkeys ▸ t.nodup_keys).sublist (List.filter_sublist.map _)
  · intro m' hm'
    have hmem : (m'.reown d.owner).signature ∈ settled.map fun m => (m.reown d.owner).signature :=
      List.mem_map_of_mem hm'
    rw [hsignatures] at hmem
    obtain ⟨m, hm, hsame⟩ := List.mem_map.mp hmem
    obtain ⟨hm, ho⟩ := List.mem_filter.mp hm
    rw [← hsame]
    exact Table.get?_eq_none_iff.mp (Registry.get?_methods_of_isOpen hw ht hm ho)

theorem exists_implementClass (hd : r.get? name = some d) (hw : d.WellFormed) {ms : List Method}
    (h : settledMethods r d = .ok ms) : ∃ r', implementClass name r = .ok () r' := by
  obtain ⟨t, ht, hsettle⟩ := Except.bind_eq_ok_iff.mp h
  obtain ⟨d', hd'⟩ := exists_addMethods_of_settled hw ht hsettle
  obtain ⟨r', hr'⟩ := exists_forM_addMethod "method implementation" hd hd'
  refine ⟨r', ?_⟩
  unfold implementClass TableSource.implementClass
  simp only [Resolution.bind_eq_ok_iff, Resolution.unlocated_eq_ok_iff,
    Resolution.inspect_eq_ok_iff, Resolution.located_eq_ok_iff, Registry.require_eq_ok_iff]
  exact ⟨d, r, ⟨hd, rfl⟩, ms, r, ⟨h, rfl⟩, hr'⟩

theorem exists_of_settledMethods_eq_error {fault : ModelFault} (ht : r.allMethods d = .ok t)
    (h : settledMethods r d = .error fault) :
    ∃ m ∈ t.values, m.isUnserved = true ∧ settle d m = .error fault := by
  unfold settledMethods TableSource.settledMethods at h
  rw [ht] at h
  obtain ⟨m, hm, hfault⟩ := Except.exists_of_mapM_eq_error h
  obtain ⟨hm, ho⟩ := List.mem_filter.mp hm
  exact ⟨m, hm, isUnserved_of_settle_eq_error ho hfault, hfault⟩

theorem implementClass_eq_error {fault : ModelFault} (hd : r.get? name = some d)
    (h : settledMethods r d = .error fault) :
    implementClass name r = .error ((Fault.model fault).located d.source) r := by
  have hrequire : r.require name "method implementation" = .ok d :=
    Registry.require_eq_ok_iff.mpr hd
  refine Resolution.bind_eq_error_iff.mpr (.inr ⟨d, r, ?_, ?_⟩)
  · exact Resolution.unlocated_eq_ok_iff.mpr (Resolution.inspect_eq_ok_iff.mpr ⟨hrequire, rfl⟩)
  · refine Resolution.located_eq_error_iff.mpr ⟨fault, ?_, rfl⟩
    exact Resolution.bind_eq_error_iff.mpr (.inl (Resolution.inspect_eq_error_iff.mpr ⟨h, rfl⟩))

variable (hd : r.get? name = some d) (hw : d.WellFormed) (ha : d.isAbstract = false)
  (ht : r.allMethods d = .ok t)
include hd hw ha ht

/-- **A concrete class is settled if it can forward all that is open.** -/
theorem exists_implementClass_iff :
    (∃ r', implementClass name r = .ok () r') ↔ ∀ m ∈ t.values, m.isUnserved = false := by
  constructor
  · rintro ⟨r', h⟩ m hm
    obtain ⟨_, _, _, settled, hd', ht', hsettle, _⟩ := implementClass_cases h
    cases hd.symm.trans hd'
    cases ht.symm.trans ht'
    by_contra hu
    rw [Bool.not_eq_false] at hu
    have ho := (Bool.and_eq_true_iff.mp hu).1
    obtain ⟨m', _, hm'⟩ := exists_right_of_forall₂ (Except.mapM_eq_ok_iff.mp hsettle) m
      (List.mem_filter.mpr ⟨hm, ho⟩)
    rw [settle_of_isUnserved ha hu] at hm'
    cases hm'
  · intro hserved
    cases h : settledMethods r d with
    | ok ms => exact exists_implementClass hd hw h
    | error fault =>
      obtain ⟨m, hm, hu, _⟩ := exists_of_settledMethods_eq_error ht h
      rw [hserved m hm] at hu
      cases hu

/-- A class that cannot be settled stays as it is, and the fault names a method that cannot be
forwarded. -/
theorem implementClass_fault {fault : Fault} (h : implementClass name r = .error fault r') :
    r' = r ∧ ∃ m ∈ t.values, m.isUnserved = true ∧
      fault = (Fault.model (.missingImplementation d.name m.declaration)).located d.source := by
  cases hsettled : settledMethods r d with
  | ok ms =>
    obtain ⟨s, hs⟩ := exists_implementClass hd hw hsettled
    cases hs.symm.trans h
  | error cause =>
    obtain ⟨m, hm, hu, hcause⟩ := exists_of_settledMethods_eq_error ht hsettled
    cases (implementClass_eq_error hd hsettled).symm.trans h
    rw [settle_of_isUnserved ha hu] at hcause
    cases hcause
    exact ⟨rfl, m, hm, hu, rfl⟩

omit ha in
/-- What was open has a body in a class that has been settled, and the body forwards to the
delegate. -/
theorem implemented_of_implementClass (h : implementClass name r = .ok () r') :
    ∃ d', r'.get? name = some d' ∧ ∀ m ∈ t.values, m.isOpen = true → ∀ x, m.delegate = some x →
      ∃ n, d'.methods.get? m.signature = some n ∧ n.state = .implemented ∧
        n.body = some (m.forward (x.utility ++ "." ++ x.method) (some "this")) := by
  obtain ⟨_, d', _, settled, hd', ht', hsettle, hadds, hfound, _⟩ := implementClass_cases h
  cases hd.symm.trans hd'
  cases ht.symm.trans ht'
  refine ⟨d', hfound, fun m hm ho x hx => ?_⟩
  obtain ⟨m', hm', hstate, hbody⟩ := settle_of_delegate (d := d) ho hx
  obtain ⟨n, hn, hsettled⟩ := exists_right_of_forall₂ (Except.mapM_eq_ok_iff.mp hsettle) m
    (List.mem_filter.mpr ⟨hm, ho⟩)
  cases hm'.symm.trans hsettled
  have howner := (Registry.owner_of_mem_allMethods hw.holdsMethods ht hm).1
  refine ⟨m'.reown d.owner, ?_, hstate, hbody⟩
  rw [Table.get?_eq_some_iff, (Definition.addMethods_spec hadds).2,
    ← signature_of_settle hm' howner]
  refine List.mem_append_right _ (List.mem_map.mpr ⟨m'.reown d.owner, ?_, rfl⟩)
  exact List.mem_map.mpr ⟨m', hn, rfl⟩

end OneClass

/-! ## The declaration behind an entry -/

namespace Registry

variable {r : Registry} {d : Definition} {key : String} {b m : Method} {t : Table Method}

instance (r : Registry) (d : Definition) (parent : TypeExpr) (stubs : List Method) :
    Decidable (r.InheritsFrom d parent stubs) :=
  decidable_of_iff ((r.get? parent.name).any (fun p => (r.allMethods p).toOption.any fun u =>
      (visible u).mapM (r.overrideFor d) = .ok stubs) = true) <| by
    rw [Option.any_eq_true]
    constructor
    · rintro ⟨p, hp, h⟩
      obtain ⟨u, hu, h⟩ := Except.exists_of_any h
      exact ⟨p, u, hp, hu, of_decide_eq_true h⟩
    · rintro ⟨p, u, hp, hu, h⟩
      exact ⟨p, hp, by rw [hu]; exact decide_eq_true h⟩

/-- `b` stands for the signature `key` on `d`, and it was made of the declaration `m`: one of `d`
itself or else the one behind the first stub of the signature, where the parents of `d` are asked
one after the other. -/
inductive StandsFor (r : Registry) : Definition → String → Method → Method → Prop
  | own {d : Definition} {key : String} {m : Method} (h : d.methods.get? key = some m) :
    StandsFor r d key m m
  | inherited {d p : Definition} {key key' : String} {b e m : Method} {lists : List (List Method)}
    {parent : TypeExpr} (hown : d.methods.get? key = none)
    (hlists : List.Forall₂ (r.InheritsFrom d) d.supertypes lists)
    (hfirst : lists.flatten.find? (·.signature = key) = some b) (hparent : parent ∈ d.supertypes)
    (hget : r.get? parent.name = some p) (hover : r.overrideFor d e = .ok b)
    (habove : StandsFor r p key' e m) : StandsFor r d key b m

namespace StandsFor

theorem get? (h : r.StandsFor d key b m) (ht : r.allMethods d = .ok t) : t.get? key = some b := by
  obtain ⟨lists', hlists', hget⟩ := exists_stubs_get? ht
  rw [hget]
  cases h with
  | own h => rw [h, Option.some_or]
  | inherited hown hlists hfirst =>
    obtain rfl := inheritsFrom_unique.forall₂ hlists hlists'
    rw [hown, Option.none_or, hfirst]

/-- **Delegates are handed down.** -/
theorem delegate_eq (h : r.StandsFor d key b m) : b.delegate = m.delegate := by
  induction h with
  | own => rfl
  | inherited _ _ _ _ _ hover _ ih => exact (delegate_of_overrideFor hover).trans ih

end StandsFor

theorem exists_standsFor (ht : r.allMethods d = .ok t) :
    ∀ key b, t.get? key = some b → ∃ m, r.StandsFor d key b m := by
  refine allMethods_induction (motive := fun d t =>
    ∀ key b, t.get? key = some b → ∃ m, r.StandsFor d key b m) ?_ ht
  intro d t ht ih key b hb
  obtain ⟨lists, hlists, hget⟩ := exists_stubs_get? ht
  rw [hget] at hb
  cases hown : d.methods.get? key with
  | some n =>
    rw [hown, Option.some_or] at hb
    exact ⟨b, .own (hown.trans hb)⟩
  | none =>
    rw [hown, Option.none_or] at hb
    obtain ⟨stubs, hstubs, hmem⟩ := List.mem_flatten.mp (List.mem_of_find?_eq_some hb)
    obtain ⟨parent, hparent, p, u, hp, hu, hmap⟩ := exists_left_of_forall₂ hlists stubs hstubs
    obtain ⟨e, he, hover⟩ := Except.exists_of_mem_mapM hmap b hmem
    obtain ⟨u', hu', hall⟩ := ih parent hparent p hp
    cases hu.symm.trans hu'
    obtain ⟨entry, hentry, rfl⟩ := List.mem_map.mp (mem_visible.mp he).1
    obtain ⟨m, hm⟩ := hall entry.1 entry.2 (Table.get?_eq_some_iff.mpr hentry)
    exact ⟨m, .inherited hown hlists hb hparent hp hover hm⟩

theorem forall_isUnserved_iff (hw : d.WellFormed) (ht : r.allMethods d = .ok t) :
    (∀ b ∈ t.values, b.isUnserved = false) ↔
      ∀ key b m, r.StandsFor d key b m → b.isOpen = true → m.delegate.isSome = true := by
  constructor
  · intro h key b m hm ho
    obtain ⟨x, hx⟩ := exists_delegate ho (h b (mem_values_of_get? (hm.get? ht)))
    rw [← hm.delegate_eq, hx]
    rfl
  · intro h b hb
    obtain ⟨m, hm⟩ := exists_standsFor ht b.signature b (get?_of_mem_allMethods hw ht hb)
    cases ho : b.isOpen with
    | false => rw [Method.isUnserved, ho, Bool.false_and]
    | true =>
      rw [Method.isUnserved, ho, Bool.true_and, Option.isNone_eq_false_iff, hm.delegate_eq]
      exact h _ b m hm ho

/-- Behind a method that cannot be forwarded is a declaration without a delegate. -/
theorem exists_standsFor_of_isUnserved (hw : d.WellFormed) (ht : r.allMethods d = .ok t)
    (hb : b ∈ t.values) (hu : b.isUnserved = true) :
    ∃ m, r.StandsFor d b.signature b m ∧ b.isOpen = true ∧ m.delegate = none := by
  obtain ⟨m, hm⟩ := exists_standsFor ht b.signature b (get?_of_mem_allMethods hw ht hb)
  obtain ⟨ho, hnone⟩ := Bool.and_eq_true_iff.mp hu
  rw [Option.isNone_iff_eq_none, hm.delegate_eq] at hnone
  exact ⟨m, hm, ho, hnone⟩

theorem forwards_of_implementClass {r' : Registry} {name : String} (hd : r.get? name = some d)
    (hw : d.WellFormed) (ha : d.isAbstract = false) (ht : r.allMethods d = .ok t)
    (h : implementClass name r = .ok () r') :
    ∃ d', r'.get? name = some d' ∧ ∀ key b m, r.StandsFor d key b m → b.isOpen = true →
      ∃ x n, m.delegate = some x ∧ d'.methods.get? key = some n ∧ n.state = .implemented ∧
        n.body = some (b.forward (x.utility ++ "." ++ x.method) (some "this")) := by
  have hserved := (exists_implementClass_iff hd hw ha ht).mp ⟨r', h⟩
  obtain ⟨d', hd', hall⟩ := implemented_of_implementClass hd hw ht h
  refine ⟨d', hd', fun key b m hm ho => ?_⟩
  have hb := hm.get? ht
  obtain ⟨x, hx⟩ := exists_delegate ho (hserved b (mem_values_of_get? hb))
  obtain ⟨n, hn, hstate, hbody⟩ := hall b (mem_values_of_get? hb) ho x hx
  have hkey : key = b.signature :=
    key_eq_signature (fun e he => (hw e he).1) ht _ (Table.mem_entries_of_get? hb)
  exact ⟨x, n, hm.delegate_eq.symm.trans hx, hkey ▸ hn, hstate, hbody⟩

end Registry

/-! ## Interfaces in another order -/

namespace Definition

variable {d : Definition} {f : List TypeExpr → List TypeExpr}

theorem WellFormed.mapInterfaces (h : d.WellFormed) : (d.mapInterfaces f).WellFormed := by
  rw [WellFormed, owner_mapInterfaces]
  exact h

end Definition

theorem map_find?_congr {α β : Type} {p : α → Bool} {g : α → β} {xs ys : List α}
    (hmem : ∀ x, x ∈ ys ↔ x ∈ xs)
    (hg : ∀ x ∈ xs, ∀ y ∈ xs, p x = true → p y = true → g x = g y) :
    (ys.find? p).map g = (xs.find? p).map g := by
  cases hxs : xs.find? p with
  | none =>
    have hys : ys.find? p = none :=
      List.find?_eq_none.mpr fun y hy => List.find?_eq_none.mp hxs y ((hmem y).mp hy)
    rw [hys]
  | some x =>
    have hx := List.mem_of_find?_eq_some hxs
    have hfound : (ys.find? p).isSome = true :=
      List.find?_isSome.mpr ⟨x, (hmem x).mpr hx, List.find?_some hxs⟩
    obtain ⟨y, hys⟩ := Option.isSome_iff_exists.mp hfound
    have hy := (hmem y).mp (List.mem_of_find?_eq_some hys)
    rw [hys, Option.map_some, Option.map_some,
      hg y hy x hx (List.find?_some hys) (List.find?_some hxs)]

namespace Registry

variable {r : Registry} {name : String} {d : Definition} {types : List TypeExpr}
  {interfaces : List TypeExpr} {t t' : Table Method}

/-- Of the methods of one signature that come from the interfaces of a class, all can be forwarded
or none, unless the class or its superclass has one. -/
def ServedAlike (r : Registry) (d : Definition) : Prop :=
  ∀ key, d.methods.get? key = none →
    (∀ s ∈ d.superclass?, ∀ stubs, r.InheritsFrom d s stubs → ∀ b ∈ stubs, b.signature ≠ key) →
    ∀ i ∈ d.interfaces, ∀ j ∈ d.interfaces, ∀ xs ys, r.InheritsFrom d i xs →
      r.InheritsFrom d j ys → ∀ x ∈ xs, ∀ y ∈ ys, x.signature = key → y.signature = key →
        x.isUnserved = y.isUnserved

theorem forall_values_iff_get? : (∀ m ∈ t.values, m.isUnserved = false) ↔
    ∀ key, (t.get? key).map Method.isUnserved ≠ some true := by
  constructor
  · intro h key hkey
    obtain ⟨m, hm, hu⟩ := Option.map_eq_some_iff.mp hkey
    rw [h m (mem_values_of_get? hm)] at hu
    cases hu
  · intro h m hm
    obtain ⟨entry, hentry, rfl⟩ := List.mem_map.mp hm
    have hkey := h entry.1
    rw [Table.get?_eq_some_iff.mpr hentry, Option.map_some, Ne, Option.some_inj] at hkey
    exact Bool.eq_false_iff.mpr hkey

/-- The registry in which the class `name` implements its interfaces in another order. -/
def reorder (r : Registry) (name : String) (interfaces : List TypeExpr) : Registry :=
  r.modify name (·.mapInterfaces fun _ => interfaces)

section Reorder

variable (hheld : ∀ n e, r.get? n = some e → e.HoldsMethods) (hd : r.get? name = some d)
  (hc : d.isNamedClass = true) (htypes : r.ancestors d = .ok types)
  (hn : (types.map TypeExpr.name).Nodup) (hperm : interfaces.Perm d.interfaces)
include hd hc htypes hperm

theorem exists_classAt_reorder : ∃ types', (∀ t, t ∈ types' ↔ t ∈ types) ∧
    ClassAt r name (r.reorder name interfaces) (d.mapInterfaces fun _ => interfaces) types' := by
  have hr : ClassAt r name r d types := ⟨.refl name r, hd, hc, htypes⟩
  have hparents : ∀ parent, parent ∈ (d.mapInterfaces fun _ => interfaces).supertypes ↔
      parent ∈ d.supertypes := by
    intro parent
    rw [Definition.supertypes_mapInterfaces _ hc, Definition.supertypes_of_isNamedClass hc,
      List.mem_append, List.mem_append, hperm.mem_iff]
  obtain ⟨types', htypes'⟩ :=
    ancestorsVia_of_subset (fun p hp => (hparents p).mp hp) hr.ancestorsVia
  refine ⟨types', fun t => ?_, hr.modify (fun _ => id)
    (Definition.isNamedClass_mapInterfaces _ hc) htypes'⟩
  rw [mem_ancestorsVia_iff htypes', mem_ancestorsVia_iff hr.ancestorsVia]
  simp only [hparents]

include hheld hn in
/-- A class inherits the same from a parent if its interfaces come in another order. -/
theorem inheritsFrom_reorder {parent : TypeExpr} (hp : parent ∈ d.supertypes)
    {stubs stubs' : List Method} (h : r.InheritsFrom d parent stubs)
    (h' : (r.reorder name interfaces).InheritsFrom (d.mapInterfaces fun _ => interfaces) parent
      stubs') : stubs' = stubs := by
  obtain ⟨types', hmem, hr'⟩ := exists_classAt_reorder hd hc htypes hperm
  have hr : ClassAt r name r d types := ⟨.refl name r, hd, hc, htypes⟩
  have hp' : parent ∈ (d.mapInterfaces fun _ => interfaces).supertypes := by
    rw [Definition.supertypes_of_isNamedClass hc, List.mem_append] at hp
    rwa [Definition.supertypes_mapInterfaces _ hc, List.mem_append, hperm.mem_iff]
  have hsupplies' := hr'.supplies hheld hp' h'
  rw [Definition.owner_mapInterfaces] at hsupplies'
  -- The class inherits under the same types: each name has one among its ancestors.
  have hfind : types.find? (·.name = parent.name) = types'.find? (·.name = parent.name) := by
    have hsame := map_find?_congr (p := fun t : TypeExpr => t.name = parent.name) (g := id) hmem
      fun t ht u hu htn hun => List.inj_on_of_nodup_map hn ht hu
        ((of_decide_eq_true htn).trans (of_decide_eq_true hun).symm)
    rwa [Option.map_id, id, id, eq_comm] at hsame
  exact r.supplies_unique d.owner types (hsupplies'.congr hfind) (hr.supplies hheld hp h)

include hheld hn in
theorem exists_stubs_reorder (ht : r.allMethods d = .ok t)
    (ht' : (r.reorder name interfaces).allMethods (d.mapInterfaces fun _ => interfaces) = .ok t') :
    ∃ above beside beside' : List (List Method),
      List.Forall₂ (r.InheritsFrom d) d.superclass?.toList above ∧
      List.Forall₂ (r.InheritsFrom d) d.interfaces beside ∧
      (∀ b, b ∈ beside'.flatten ↔ b ∈ beside.flatten) ∧ ∀ key,
        t.get? key = ((d.methods.get? key).or (above.flatten.find? (·.signature = key))).or
          (beside.flatten.find? (·.signature = key)) ∧
        t'.get? key = ((d.methods.get? key).or (above.flatten.find? (·.signature = key))).or
          (beside'.flatten.find? (·.signature = key)) := by
  obtain ⟨lists, hlists, hget⟩ := exists_stubs_get? ht
  obtain ⟨lists', hlists', hget'⟩ := exists_stubs_get? ht'
  have hsame : ∀ parent ∈ d.supertypes, ∀ stubs stubs', r.InheritsFrom d parent stubs →
      (r.reorder name interfaces).InheritsFrom (d.mapInterfaces fun _ => interfaces) parent stubs' →
      stubs' = stubs := fun parent hp _ _ =>
    inheritsFrom_reorder hheld hd hc htypes hn hperm hp
  rw [Definition.supertypes_of_isNamedClass hc] at hlists hsame
  rw [Definition.supertypes_mapInterfaces _ hc] at hlists'
  obtain ⟨above, beside, rfl, habove, hbeside⟩ := forall₂_append_left hlists
  obtain ⟨above', beside', rfl, habove', hbeside'⟩ := forall₂_append_left hlists'
  obtain rfl : above' = above := by
    rw [← List.forall₂_eq_eq_eq]
    exact forall₂_of_common (fun parent hp stubs' stubs h' h =>
      hsame parent (List.mem_append_left _ hp) stubs stubs' h h') habove' habove
  refine ⟨above', beside, beside', habove, hbeside, fun b => ⟨?_, ?_⟩, fun key => ⟨?_, ?_⟩⟩
  · exact mem_flatten_of_forall₂ (fun i hi => hperm.mem_iff.mp hi) (fun i hi stubs' stubs h' h =>
      hsame i (List.mem_append_right _ (hperm.mem_iff.mp hi)) stubs stubs' h h') hbeside' hbeside
  · exact mem_flatten_of_forall₂ (fun i hi => hperm.mem_iff.mpr hi) (fun i hi stubs stubs' h h' =>
      (hsame i (List.mem_append_right _ hi) stubs stubs' h h').symm) hbeside hbeside'
  · rw [hget, List.flatten_append, List.find?_append, Option.or_assoc]
  · rw [hget', List.flatten_append, List.find?_append, Option.or_assoc]
    rfl

include hheld hn in
/-- **The order of interfaces** does not matter for what can be forwarded if they agree on it. -/
theorem isUnserved_reorder (halike : r.ServedAlike d) (ht : r.allMethods d = .ok t)
    (ht' : (r.reorder name interfaces).allMethods (d.mapInterfaces fun _ => interfaces) = .ok t')
    (key : String) :
    (t'.get? key).map Method.isUnserved = (t.get? key).map Method.isUnserved := by
  obtain ⟨above, beside, beside', habove, hbeside, hmem, hget⟩ :=
    exists_stubs_reorder hheld hd hc htypes hn hperm ht ht'
  rw [(hget key).1, (hget key).2]
  cases hfirst : (d.methods.get? key).or (above.flatten.find? (·.signature = key)) with
  | some b => rw [Option.some_or, Option.some_or]
  | none =>
    obtain ⟨hown, hsuper⟩ := Option.or_eq_none_iff.mp hfirst
    rw [Option.none_or, Option.none_or]
    refine map_find?_congr hmem fun x hx y hy hxk hyk => ?_
    obtain ⟨xs, hxs, hx⟩ := List.mem_flatten.mp hx
    obtain ⟨ys, hys, hy⟩ := List.mem_flatten.mp hy
    obtain ⟨i, hi, hix⟩ := exists_left_of_forall₂ hbeside xs hxs
    obtain ⟨j, hj, hjy⟩ := exists_left_of_forall₂ hbeside ys hys
    refine halike key hown (fun s hs stubs h b hb hkey => ?_) i hi j hj xs ys hix hjy x hx y hy
      (of_decide_eq_true hxk) (of_decide_eq_true hyk)
    obtain ⟨stubs₀, hmem₀, h₀⟩ := exists_right_of_forall₂ habove s (Option.mem_toList.mpr hs)
    cases inheritsFrom_unique h h₀
    exact List.find?_eq_none.mp hsuper b (List.mem_flatten.mpr ⟨stubs, hmem₀, hb⟩)
      (decide_eq_true hkey)

include hheld hn in
/-- **A class is settled in any order of its interfaces** if they agree on what can be forwarded. -/
theorem exists_implementClass_reorder_iff (hw : d.WellFormed) (ha : d.isAbstract = false)
    (halike : r.ServedAlike d) (ht : r.allMethods d = .ok t)
    (ht' : (r.reorder name interfaces).allMethods (d.mapInterfaces fun _ => interfaces) = .ok t') :
    (∃ r', implementClass name (r.reorder name interfaces) = .ok () r') ↔
      ∃ r', implementClass name r = .ok () r' := by
  obtain ⟨_, _, hr'⟩ := exists_classAt_reorder hd hc htypes hperm
  rw [exists_implementClass_iff hd hw ha ht, exists_implementClass_iff hr'.found hw.mapInterfaces
    (Definition.isAbstract_mapInterfaces.trans ha) ht', forall_values_iff_get?,
    forall_values_iff_get?]
  simp only [isUnserved_reorder hheld hd hc htypes hn hperm halike ht ht']

end Reorder

end Registry

/-! ## The whole stage -/

namespace Registry

variable {r s : Registry} {name : String}

/-- The class `name` is handled in the registry `s`, after those before it were settled. -/
def HandledIn (r : Registry) (name : String) (s : Registry) : Prop :=
  ∃ sorted before after, r.sortedClasses = .ok sorted ∧
    (sorted.map Definition.name).filter (· ≠ r.utility) ++ r.anonymous.map Definition.name =
      before ++ name :: after ∧ before.forM implementClass r = .ok () s

namespace HandledIn

theorem sound (h : r.HandledIn name s) (hs : r.Sound) : s.Sound := by
  obtain ⟨sorted, before, after, hsorted, horder, hbefore⟩ := h
  refine hs.evolves (Resolution.forM_induction r.Evolves (fun n hn t t' u ht hstep => ?_)
    (.refl r) hbefore)
  have hmem : n ∈ before ++ name :: after := List.mem_append_left _ hn
  obtain ⟨kind, hk, hkind⟩ := hasKind_of_sortedClasses hs hsorted (horder ▸ hmem)
  exact ht.trans (implementClass_evolves (hs.evolves ht) (hkind.evolves hs ht) hk hstep)

theorem implementMethods_eq_error (h : r.HandledIn name s) {fault : Fault} {t : Registry}
    (hfault : implementClass name s = .error fault t) : implementMethods r = .error fault t := by
  obtain ⟨sorted, before, after, hsorted, horder, hbefore⟩ := h
  have hrun := Resolution.forM_append_eq_error after hbefore hfault
  rw [← horder] at hrun
  refine Resolution.bind_eq_error_iff.mpr (.inr ⟨r, r, rfl, ?_⟩)
  refine Resolution.bind_eq_error_iff.mpr (.inr ⟨sorted, r, ?_, hrun⟩)
  exact Resolution.unlocated_eq_ok_iff.mpr (Resolution.check_eq_ok_iff.mpr ⟨hsorted, rfl⟩)

theorem exists_of_implementMethods (h : r.HandledIn name s) (hs : r.Sound) {r' : Registry}
    (hstage : implementMethods r = .ok () r') :
    ∃ t, implementClass name s = .ok () t ∧ r'.get? name = t.get? name := by
  obtain ⟨sorted, before, after, hsorted, horder, hbefore⟩ := h
  obtain ⟨_, hsorted', hstage⟩ := implementMethods_eq_ok hstage
  cases hsorted.symm.trans hsorted'
  have hnodup := nodup_of_sortedClasses hs hsorted
  rw [horder] at hstage hnodup
  obtain ⟨_, hbefore', hrest⟩ := Resolution.forM_append_eq_ok_iff.mp hstage
  cases hbefore.symm.trans hbefore'
  obtain ⟨t, hstep, hafter⟩ := Resolution.forM_cons_eq_ok_iff.mp hrest
  refine ⟨t, hstep, Resolution.forM_induction (fun t' => t'.get? name = t.get? name) ?_ rfl hafter⟩
  intro n hn t₁ t₂ u ht₁ hlater
  obtain ⟨_, _, _, _, _, _, _, _, _, hoff⟩ := implementClass_cases hlater
  have hne : name ≠ n := by
    rintro rfl
    exact (List.nodup_cons.mp (List.nodup_append.mp hnodup).2.1).1 hn
  rw [hoff.off name hne, ht₁]

end HandledIn

end Registry

/-- **The declaration that is met first decides.** A concrete class is settled exactly if the
declarations behind its open methods have delegates, and its methods then forward to these. -/
theorem implementMethods_forwards_to_first {r s : Registry} {name : String} {d : Definition}
    {t : Table Method} (hs : r.Sound) (hname : r.HandledIn name s) (hd : s.get? name = some d)
    (ha : d.isAbstract = false) (ht : s.allMethods d = .ok t) :
    ((∃ s', implementClass name s = .ok () s') ↔
      ∀ key b m, s.StandsFor d key b m → b.isOpen = true → m.delegate.isSome = true) ∧
    (∀ r', implementMethods r = .ok () r' → ∃ d', r'.get? name = some d' ∧
      ∀ key b m, s.StandsFor d key b m → b.isOpen = true → ∃ x n, m.delegate = some x ∧
        d'.methods.get? key = some n ∧ n.state = .implemented ∧
        n.body = some (b.forward (x.utility ++ "." ++ x.method) (some "this"))) ∧
    (∀ fault s', implementClass name s = .error fault s' →
      implementMethods r = .error fault s ∧ ∃ key b m, s.StandsFor d key b m ∧ b.isOpen = true ∧
        m.delegate = none ∧ fault =
          (Fault.model (.missingImplementation d.name b.declaration)).located d.source) ∧
    ∀ types interfaces t', d.isNamedClass = true → s.ancestors d = .ok types →
      (types.map TypeExpr.name).Nodup → interfaces.Perm d.interfaces → s.ServedAlike d →
      (s.reorder name interfaces).allMethods (d.mapInterfaces fun _ => interfaces) = .ok t' →
      ((∃ s', implementClass name (s.reorder name interfaces) = .ok () s') ↔
        ∃ s', implementClass name s = .ok () s') := by
  have hss := hname.sound hs
  have hheld : ∀ n e, s.get? n = some e → e.WellFormed := fun n e he =>
    hss.wellFormed e (Registry.mem_of_get? he)
  have hw := hheld name d hd
  refine ⟨?_, fun r' hstage => ?_, fun fault s' hfault => ?_,
    fun types interfaces t' hc htypes hn hperm halike ht' => ?_⟩
  · rw [exists_implementClass_iff hd hw ha ht, Registry.forall_isUnserved_iff hw ht]
  · obtain ⟨s', hstep, hkept⟩ := hname.exists_of_implementMethods hs hstage
    rw [hkept]
    exact Registry.forwards_of_implementClass hd hw ha ht hstep
  · obtain ⟨rfl, b, hb, hu, hcause⟩ := implementClass_fault hd hw ha ht hfault
    obtain ⟨m, hm, ho, hnone⟩ := Registry.exists_standsFor_of_isUnserved hw ht hb hu
    exact ⟨hname.implementMethods_eq_error hfault, b.signature, b, m, hm, ho, hnone, hcause⟩
  · exact Registry.exists_implementClass_reorder_iff (fun n e he => (hheld n e he).holdsMethods) hd
      hc htypes hn hperm hw ha halike ht ht'

/-- A definition with the method `void run()`, which may have a delegate. -/
def running (d : Definition) (delegate : Option Delegate) : Definition :=
  let m := { Method.make d.owner "run" (.named "void") [] with delegate := delegate }
  { d with methods := d.methods.insert m.signature m }

def jobFirst : List TypeExpr := [.named "Job", .named "Plain"]

def plainFirst : List TypeExpr := [.named "Plain", .named "Job"]

/-- The class `C` with the given interfaces. -/
def runClass (interfaces : List TypeExpr) : Definition :=
  interfaces.foldl Definition.implementing (Definition.namedClass "C")

/-- The interface `Task` has a method that can be forwarded, and `Job` inherits it. The interface
`Plain` has the same method, with a delegate or without one. -/
def runModel (delegate : Option Delegate) (interfaces : List TypeExpr) : Registry :=
  { Registry.empty "Forms" with
    definitions := (Registry.empty "Forms").definitions ++
      [running (Definition.interface "Task") (some ⟨"Forms", "run"⟩),
       (Definition.interface "Job").extending (.named "Task"),
       running (Definition.interface "Plain") delegate,
       runClass interfaces] }

/-- The stub of the method on the class `C`. -/
def runStub (origin : String) (delegate : Option Delegate) : Method :=
  { (Method.make (Definition.namedClass "C").owner "run" (.named "void") []).withWords
      ["public", "abstract"] with
    origin := origin
    delegate := delegate
    state := .placeholder }

theorem sound_runModel {delegate : Option Delegate}
    (h : delegate = none ∨ delegate = some ⟨"Forms", "run"⟩) :
    (runModel delegate jobFirst).Sound := by
  obtain rfl | rfl := h
  all_goals exact ⟨by decide +kernel, by decide +kernel, by decide +kernel, by decide +kernel,
    by decide +kernel, by decide +kernel⟩

theorem handledIn_runModel {delegate : Option Delegate}
    (h : delegate = none ∨ delegate = some ⟨"Forms", "run"⟩) :
    (runModel delegate jobFirst).HandledIn "C" (runModel delegate jobFirst) := by
  obtain rfl | rfl := h
  all_goals exact ⟨(Registry.empty "Forms").definitions ++ [runClass jobFirst], [], [],
    by decide +kernel, by decide +kernel, rfl⟩

theorem servedAlike_runModel :
    (runModel (some ⟨"Forms", "run"⟩) jobFirst).ServedAlike (runClass jobFirst) := by
  have hstubs : ∀ i ∈ (runClass jobFirst).interfaces, ∃ origin ∈ ["Task", "Plain"],
      (runModel (some ⟨"Forms", "run"⟩) jobFirst).InheritsFrom (runClass jobFirst) i
        [runStub origin (some ⟨"Forms", "run"⟩)] := by
    decide +kernel
  have hserved : ∀ i ∈ (runClass jobFirst).interfaces, ∀ xs,
      (runModel (some ⟨"Forms", "run"⟩) jobFirst).InheritsFrom (runClass jobFirst) i xs →
      ∀ x ∈ xs, x.isUnserved = false := by
    intro i hi xs hxs x hx
    obtain ⟨origin, _, h⟩ := hstubs i hi
    cases Registry.inheritsFrom_unique hxs h
    obtain rfl := List.mem_singleton.mp hx
    rfl
  intro key _ _ i hi j hj xs ys hxs hys x hx y hy _ _
  rw [hserved i hi xs hxs x hx, hserved j hj ys hys y hy]

/-- The method of `Task` is met first. It can be forwarded with `Plain` in the first place, too, if
the method has a delegate there. -/
theorem implementMethods_forwards_to_first_job :
    (runModel none jobFirst).Sound ∧
    (runModel none jobFirst).HandledIn "C" (runModel none jobFirst) ∧
    (runModel none jobFirst).get? "C" = some (runClass jobFirst) ∧
    (runClass jobFirst).isAbstract = false ∧
    (∃ t b m, (runModel none jobFirst).allMethods (runClass jobFirst) = .ok t ∧
      (runModel none jobFirst).StandsFor (runClass jobFirst) "run()" b m ∧ b.isOpen = true ∧
      m.delegate = some ⟨"Forms", "run"⟩) ∧
    (∃ r' d n, implementMethods (runModel none jobFirst) = .ok () r' ∧ r'.get? "C" = some d ∧
      d.methods.get? "run()" = some n ∧ n.state = .implemented ∧
      n.body = some "Forms.run(this);") ∧
    (runModel (some ⟨"Forms", "run"⟩) jobFirst).ServedAlike (runClass jobFirst) ∧
    ∃ s, implementClass "C" ((runModel (some ⟨"Forms", "run"⟩) jobFirst).reorder "C" plainFirst) =
      .ok () s := by
  have hs := sound_runModel (.inl rfl)
  have hname := handledIn_runModel (.inl rfl)
  have hfound : ((runModel none jobFirst).allMethods (runClass jobFirst)).toOption.any
      (fun t => t.get? "run()" = some (runStub "Task" (some ⟨"Forms", "run"⟩))) = true := by
    decide +kernel
  obtain ⟨t, ht, hb⟩ := Except.exists_of_any hfound
  obtain ⟨m, hm⟩ := Registry.exists_standsFor ht _ _ (of_decide_eq_true hb)
  obtain ⟨_, r', hstage, -⟩ := Resolution.exists_of_succeeds (x := implementMethods)
    (r := runModel none jobFirst) (p := fun _ => true) (by decide +kernel)
  obtain ⟨_, hforwards, -, -⟩ :=
    implementMethods_forwards_to_first hs hname (d := runClass jobFirst) rfl rfl ht
  obtain ⟨d, hd, hall⟩ := hforwards r' hstage
  obtain ⟨x, n, hx, hn, hstate, hbody⟩ := hall _ _ m hm rfl
  obtain rfl : x = ⟨"Forms", "run"⟩ := by
    rw [← hm.delegate_eq] at hx
    exact (Option.some.inj hx).symm
  refine ⟨hs, hname, rfl, rfl, ⟨t, _, m, ht, hm, rfl, hx⟩,
    ⟨r', d, n, hstage, hd, hn, hstate, hbody⟩, servedAlike_runModel, ?_⟩
  -- With delegates on both sides, the class can be settled in this order and so in the other.
  have hfound₂ : ((runModel (some ⟨"Forms", "run"⟩) jobFirst).allMethods
      (runClass jobFirst)).toOption.any (fun _ => true) = true := by
    decide +kernel
  have hfound' : (((runModel (some ⟨"Forms", "run"⟩) jobFirst).reorder "C" plainFirst).allMethods
      ((runClass jobFirst).mapInterfaces fun _ => plainFirst)).toOption.any
        (fun _ => true) = true := by
    decide +kernel
  obtain ⟨t₂, ht₂, -⟩ := Except.exists_of_any hfound₂
  obtain ⟨t', ht', -⟩ := Except.exists_of_any hfound'
  have htypes : (runModel (some ⟨"Forms", "run"⟩) jobFirst).ancestors (runClass jobFirst) =
      .ok [.named "Job", .named "Task", .named "Plain"] := by
    decide +kernel
  obtain ⟨_, s, hsettled, -⟩ := Resolution.exists_of_succeeds (x := implementClass "C")
    (r := runModel (some ⟨"Forms", "run"⟩) jobFirst) (p := fun _ => true) (by decide +kernel)
  obtain ⟨-, -, -, hreorder⟩ := implementMethods_forwards_to_first (sound_runModel (.inr rfl))
    (handledIn_runModel (.inr rfl)) (d := runClass jobFirst) rfl rfl ht₂
  exact (hreorder _ plainFirst t' rfl htypes (by decide +kernel) (List.Perm.swap _ _ _)
    servedAlike_runModel ht').mpr ⟨s, hsettled⟩

/-- A delegate that is not met first is of no use: the class `C` inherits the method of `Plain` and
that of `Task`, which have the same contract, and only the order decides whether it is settled. -/
theorem implementMethods_passes_over_delegate :
    (∃ d x y, (runModel none plainFirst).get? "C" = some d ∧ d.isAbstract = false ∧
      d.methods.get? "run()" = none ∧ d.supertypes = plainFirst ∧
      (runModel none plainFirst).InheritsFrom d (.named "Plain") [x] ∧
      (runModel none plainFirst).InheritsFrom d (.named "Job") [y] ∧
      x.signature = "run()" ∧ y.signature = "run()" ∧ x.matchesContract y = true ∧
      y.matchesContract x = true ∧ x.isOpen = true ∧ y.isOpen = true ∧
      y.delegate = some ⟨"Forms", "run"⟩) ∧
    (implementMethods.outcome (runModel none plainFirst)).2 =
      some (.model (.missingImplementation "C" "public abstract void run()")) ∧
    (implementMethods.outcome ((runModel none plainFirst).reorder "C" jobFirst)).2 = none := by
  refine ⟨⟨runClass plainFirst, runStub "Plain" none, runStub "Task" (some ⟨"Forms", "run"⟩), ?_⟩,
    ?_, ?_⟩
  · decide +kernel
  · decide +kernel
  · decide +kernel

end FluentGrammar
