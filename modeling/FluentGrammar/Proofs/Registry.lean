import Mathlib.Data.Option.Defs
import FluentGrammar.Proofs.Hierarchy
import FluentGrammar.Resolution.Basic

/-!
# Changes to one definition

A step that changes the definition of one name leaves all others alone. What a definition inherits
never passes through the definition itself, so its ancestors after the change are those that the old
registry gives for the new parents.

* `Registry.get?_modify`: the definitions after a change.
* `Resolution.addDefinition_run`, `Resolution.addMethod_eq_ok_iff`: what registration does.
* `Registry.AgreesOff`: two registries with the same definitions but for one name.
* `Registry.AgreesOff.ancestors_eq`: the ancestors after the change.
* `Registry.SameFrame`: two registries whose definitions differ in members and texts at most, so
  that all ancestors are the same.
-/

namespace FluentGrammar

namespace Registry

variable {r r' r'' : Registry} {name : String}

/-! ## Look-up after a change -/

theorem require_eq_ok_iff {context : String} {d : Definition} :
    r.require name context = .ok d ↔ r.get? name = some d := by
  unfold require
  cases r.get? name with
  | none => simp
  | some d' => simp

theorem ancestorNames_eq_ok_iff {context : String} {parent : TypeExpr} {names : List String} :
    r.ancestorNames context parent = .ok names ↔ ∃ d types, r.get? parent.name = some d ∧
      r.ancestors d = .ok types ∧ types.map TypeExpr.name = names := by
  unfold ancestorNames
  simp only [Except.bind_eq_ok_iff, Except.pure_eq_ok_iff, require_eq_ok_iff]
  constructor
  · rintro ⟨d, hd, types, ht, rfl⟩
    exact ⟨d, types, hd, ht, rfl⟩
  · rintro ⟨d, types, hd, ht, rfl⟩
    exact ⟨d, hd, types, ht, rfl⟩

theorem get?_modify {f : Definition → Definition} (hf : ∀ d, d.name = name → (f d).name = name)
    (other : String) :
    (r.modify name f).get? other =
      if other = name then (r.get? other).map f else r.get? other := by
  let change := fun (d : Definition) => if d.name = name then f d else d
  have hchange : ∀ d, (change d).name = d.name := by
    intro d
    by_cases hd : d.name = name
    · simp [change, hd, hf d hd]
    · simp [change, hd]
  have hfind : ∀ ds : List Definition, (ds.map change).find? (·.name = other) =
      if other = name then (ds.find? (·.name = other)).map f else ds.find? (·.name = other) := by
    intro ds
    have hp : (fun d : Definition => decide (d.name = other)) ∘ change =
        fun d => decide (d.name = other) := by
      funext d
      simp [hchange]
    rw [List.find?_map, hp]
    cases h : ds.find? (·.name = other) with
    | none => simp
    | some d =>
      have hd : d.name = other := by simpa using List.find?_some h
      by_cases ho : other = name <;> simp [change, hd, ho]
  by_cases hm : name ∈ r.definitions.map Definition.name
  · have hr : r.modify name f = { r with definitions := r.definitions.map change } := by
      rw [modify, if_pos hm]
    rw [hr, get?, get?, List.find?_append, List.find?_append, hfind]
    by_cases ho : other = name
    · obtain ⟨d, hd, he⟩ := List.mem_map.mp hm
      have : (r.definitions.find? (·.name = other)).isSome := by
        rw [List.find?_isSome]
        exact ⟨d, hd, by simp [he, ho]⟩
      obtain ⟨e, he⟩ := Option.isSome_iff_exists.mp this
      simp [ho, ho ▸ he]
    · simp [ho]
  · have hr : r.modify name f = { r with anonymous := r.anonymous.map change } := by
      rw [modify, if_neg hm]
    rw [hr, get?, get?, List.find?_append, List.find?_append, hfind]
    by_cases ho : other = name
    · have : r.definitions.find? (·.name = other) = none := by
        rw [List.find?_eq_none]
        exact fun d hd he => hm (List.mem_map.mpr ⟨d, hd, by simpa [ho] using he⟩)
      simp [ho, ho ▸ this]
    · simp [ho]

/-! ## What a change of definitions leaves alone -/

section Fields

variable (r name) (f : Definition → Definition)

theorem utility_modify : (r.modify name f).utility = r.utility := by
  unfold modify
  split <;> rfl

theorem factories_modify : (r.modify name f).factories = r.factories := by
  unfold modify
  split <;> rfl

theorem conversions_modify : (r.modify name f).conversions = r.conversions := by
  unfold modify
  split <;> rfl

theorem explicit_modify : (r.modify name f).explicit = r.explicit := by
  unfold modify
  split <;> rfl

theorem unique_modify : (r.modify name f).unique = r.unique := by
  unfold modify
  split <;> rfl

theorem foldedNames_modify : (r.modify name f).foldedNames = r.foldedNames := by
  unfold modify
  split <;> rfl

end Fields

end Registry

/-! ## Registration -/

namespace Resolution

variable {r r' : Registry} {u : Unit} {d : Definition} {m : Method}

/-- **What registering a definition does.** The name is looked for among the definitions and then,
in upper case, in the table of folded names. Nothing changes before both have been found free. -/
theorem addDefinition_run (d : Definition) (r : Registry) :
    addDefinition d r =
      if d.kind = .anonymousClass then .error (.unregisteredAnonymous d.name) r
      else if d.name ∈ r.definitions.map Definition.name then .error (.duplicateType d.name) r
      else match r.foldedNames.get? (Text.upperCase d.name) with
        | some existing => .error (.caseClash d.name existing) r
        | none => .ok () { r with
            foldedNames := r.foldedNames.insert (Text.upperCase d.name) d.name
            definitions := r.definitions ++ [d] } := by
  unfold addDefinition
  split
  · rfl
  · change (ite _ _ _ : Resolution ModelFault Unit) r = _
    split
    · rfl
    · change (match r.foldedNames.get? _ with
        | some _ => _
        | none => _ : Resolution ModelFault Unit) r = _
      cases r.foldedNames.get? (Text.upperCase d.name) <;> rfl

theorem addDefinition_eq_ok_iff :
    addDefinition d r = .ok u r' ↔ d.kind ≠ .anonymousClass ∧
      d.name ∉ r.definitions.map Definition.name ∧
      r.foldedNames.get? (Text.upperCase d.name) = none ∧ r' = { r with
        foldedNames := r.foldedNames.insert (Text.upperCase d.name) d.name
        definitions := r.definitions ++ [d] } := by
  rw [addDefinition_run]
  split_ifs with hk hn
  · simp [hk]
  · simp [hn]
  · cases r.foldedNames.get? (Text.upperCase d.name) <;> simp [hk, hn, eq_comm]

theorem addAnonymous_eq_ok_iff {factory : Method} :
    addAnonymous factory d r = .ok u r' ↔ r.get? d.name = none ∧ r' = { r with
      factories := r.factories.insert (Registry.factoryKey factory) d.name
      anonymous := r.anonymous ++ [d] } := by
  unfold addAnonymous
  change (ite _ _ _ : Resolution ModelFault Unit) r = _ ↔ _
  split_ifs with hd
  · refine ⟨nofun, fun h => ?_⟩
    simp [h.1] at hd
  · rw [Option.not_isSome_iff_eq_none] at hd
    simp only [hd, true_and]
    exact modify_eq_ok_iff.trans eq_comm

theorem addMethod_eq_ok_iff {name context : String} :
    addMethod name context m r = .ok u r' ↔ ∃ d d', r.get? name = some d ∧
      d.addMethod m = .ok d' ∧ r' = r.modify name fun _ => d' := by
  unfold addMethod
  simp only [bind_eq_ok_iff, inspect_eq_ok_iff, check_eq_ok_iff, modify_eq_ok_iff,
    Registry.require_eq_ok_iff]
  constructor
  · rintro ⟨d, _, ⟨hd, rfl⟩, d', _, ⟨hd', rfl⟩, rfl⟩
    exact ⟨d, d', hd, hd', rfl⟩
  · rintro ⟨d, d', hd, hd', rfl⟩
    exact ⟨d, r, ⟨hd, rfl⟩, d', r, ⟨hd', rfl⟩, rfl⟩

theorem addMethod_run {name context : String} (hd : r.get? name = some d) :
    addMethod name context m r =
      match d.addMethod m with
      | .ok d' => .ok () (r.modify name fun _ => d')
      | .error e => .error e r := by
  cases hm : d.addMethod m with
  | ok d' => exact addMethod_eq_ok_iff.mpr ⟨d, d', hd, hm, rfl⟩
  | error e =>
    unfold addMethod
    rw [bind_eq_error_iff]
    refine .inr ⟨d, r, inspect_eq_ok_iff.mpr ⟨Registry.require_eq_ok_iff.mpr hd, rfl⟩, ?_⟩
    exact bind_eq_error_iff.mpr (.inl (check_eq_error_iff.mpr ⟨hm, rfl⟩))

theorem eq_of_addDefinition_eq_error {e : ModelFault} (h : addDefinition d r = .error e r') :
    r' = r := by
  rw [addDefinition_run] at h
  split_ifs at h
  · cases h
    rfl
  · cases h
    rfl
  · split at h <;> cases h
    rfl

theorem eq_of_addMethod_eq_error {name context : String} {e : ModelFault}
    (h : addMethod name context m r = .error e r') : r' = r := by
  unfold addMethod at h
  simp only [bind_eq_error_iff, inspect_eq_error_iff, inspect_eq_ok_iff, check_eq_error_iff,
    check_eq_ok_iff, modify_ne_error, and_false, exists_false, or_false] at h
  obtain ⟨_, rfl⟩ | ⟨_, _, ⟨_, rfl⟩, _, rfl⟩ := h <;> rfl

/-- The notes on an explicit method come after the only step that can fail. -/
theorem eq_of_addExplicit_eq_error {e : ModelFault} (h : addExplicit m r = .error e r') :
    r' = r := by
  unfold addExplicit at h
  simp only [bind_eq_error_iff, modify_ne_error, and_false, exists_false, or_false] at h
  exact eq_of_addMethod_eq_error h

theorem addExplicit_eq_ok_iff :
    addExplicit m r = .ok u r' ↔ ∃ s, addMethod r.utility "the model" m r = .ok u s ∧
      r' = { s with explicit := s.explicit ++ [m.signature] }.noteReduced m.reducedSignature := by
  unfold addExplicit
  simp only [bind_eq_ok_iff, modify_eq_ok_iff]
  constructor
  · rintro ⟨_, s, hs, _, _, rfl, rfl⟩
    exact ⟨s, hs, rfl⟩
  · rintro ⟨s, hs, rfl⟩
    exact ⟨u, s, hs, u, _, rfl, rfl⟩

end Resolution

namespace Registry

variable {r r' r'' : Registry} {name : String}

/-! ## Registries that differ in one name -/

/-- Two registries have the same definitions but for those of `name`, which both have or lack. -/
structure AgreesOff (name : String) (r r' : Registry) : Prop where
  off : ∀ other, other ≠ name → r'.get? other = r.get? other
  on : (r'.get? name).isSome = (r.get? name).isSome

theorem AgreesOff.refl (name : String) (r : Registry) : AgreesOff name r r :=
  ⟨fun _ _ => rfl, rfl⟩

theorem AgreesOff.trans (h₁ : AgreesOff name r r') (h₂ : AgreesOff name r' r'') :
    AgreesOff name r r'' :=
  ⟨fun other ho => (h₂.off other ho).trans (h₁.off other ho), h₂.on.trans h₁.on⟩

theorem agreesOff_modify {f : Definition → Definition}
    (hf : ∀ d, d.name = name → (f d).name = name) : AgreesOff name r (r.modify name f) := by
  refine ⟨fun other ho => ?_, ?_⟩
  · rw [get?_modify hf, if_neg ho]
  · rw [get?_modify hf, if_pos rfl, Option.isSome_map]

namespace AgreesOff

variable {trail : List String} {context : String}

theorem ancestorsVia_eq (h : AgreesOff name r r') (hn : name ∈ trail) (parents : List TypeExpr) :
    r'.ancestorsVia context trail parents = r.ancestorsVia context trail parents := by
  refine ancestorsVia_congr (fun other ho => h.off other fun he => ho (he ▸ hn)) (fun other => ?_) _
  by_cases ho : other = name
  · rw [ho, h.on]
  · rw [h.off other ho]

/-- **The ancestors of a changed definition** are those of its new parents before the change. -/
theorem ancestors_eq (h : AgreesOff name r r') {d : Definition} (hd : d.name = name) :
    r'.ancestors d = r.ancestorsVia d.name [d.name] d.supertypes :=
  h.ancestorsVia_eq (by simp [hd]) d.supertypes

theorem ancestors_parent_eq (h : AgreesOff name r r') {d : Definition} (hd : d.name = name)
    {types : List TypeExpr} (ht : r'.ancestors d = .ok types) {parent : TypeExpr}
    (hp : parent ∈ d.supertypes) {p : Definition} (hget : r'.get? parent.name = some p) :
    r.get? parent.name = some p ∧ r'.ancestors p = r.ancestors p := by
  obtain ⟨us, hus⟩ := ancestorsVia_of_subset (List.cons_subset.mpr ⟨hp, List.nil_subset _⟩) ht
  obtain ⟨p', inherited, _, _, hp', hn, hi, _⟩ := ancestorsVia_cons_eq_ok_iff.mp hus
  cases hget.symm.trans hp'
  refine ⟨?_, ?_⟩
  · rw [← h.off parent.name, hget]
    rintro rfl
    exact hn (by simp [hd, name_of_get? hget])
  · rw [ancestors_of_ancestorsVia hi]
    rw [h.ancestorsVia_eq (by simp [hd])] at hi
    rw [ancestors_of_ancestorsVia hi]

theorem hasAncestor_parent (h : AgreesOff name r r') {d : Definition} (hd : d.name = name)
    {types : List TypeExpr} (ht : r'.ancestors d = .ok types) {parent : TypeExpr}
    (hp : parent ∈ d.supertypes) {ancestor : String} (ha : r'.HasAncestor parent.name ancestor) :
    r.HasAncestor parent.name ancestor := by
  obtain ⟨p, us, hget, hus, hm⟩ := ha
  obtain ⟨hget', he⟩ := h.ancestors_parent_eq hd ht hp hget
  exact ⟨p, us, hget', he ▸ hus, hm⟩

end AgreesOff

end Registry

/-! ## Registries of the same frame -/

/-- Two definitions have the same name, parameters and parents. -/
structure Definition.SameFrame (d d' : Definition) : Prop where
  name : d'.name = d.name
  typeParams : d'.typeParams = d.typeParams
  shape : d'.shape = d.shape

namespace Definition.SameFrame

variable {d d' d'' : Definition}

theorem refl (d : Definition) : SameFrame d d := ⟨rfl, rfl, rfl⟩

theorem trans (h₁ : SameFrame d d') (h₂ : SameFrame d' d'') : SameFrame d d'' :=
  ⟨h₂.name.trans h₁.name, h₂.typeParams.trans h₁.typeParams, h₂.shape.trans h₁.shape⟩

theorem symm (h : SameFrame d d') : SameFrame d' d :=
  ⟨h.name.symm, h.typeParams.symm, h.shape.symm⟩

theorem kind (h : SameFrame d d') : d'.kind = d.kind := by
  rw [Definition.kind, h.shape, Definition.kind]

theorem owner (h : SameFrame d d') : d'.owner = d.owner := by
  rw [Definition.owner, h.name, h.kind, h.typeParams, Definition.owner]

theorem supertypes (h : SameFrame d d') : d'.supertypes = d.supertypes := by
  rw [Definition.supertypes, h.shape, Definition.supertypes]

theorem superclass? (h : SameFrame d d') : d'.superclass? = d.superclass? := by
  rw [Definition.superclass?, h.shape, Definition.superclass?]

theorem interfaces (h : SameFrame d d') : d'.interfaces = d.interfaces := by
  rw [Definition.interfaces, h.shape, Definition.interfaces]

theorem selfType (h : SameFrame d d') : d'.selfType = d.selfType := by
  rw [Definition.selfType, h.name, h.typeParams, Definition.selfType]

end Definition.SameFrame

namespace Definition

variable {d d' : Definition} {m : Method}

theorem addMethod_eq_ok_iff :
    d.addMethod m = .ok d' ↔ (m.reown d.owner).signature ∉ d.methods.keys ∧
      d' = { d with
        methods := d.methods.insert (m.reown d.owner).signature (m.reown d.owner) } := by
  unfold addMethod
  dsimp only
  by_cases hc : d.methods.contains (m.reown d.owner).signature = true
  · simp [hc, Table.contains_iff.mp hc]
  · simp [hc, mt Table.contains_iff.mpr hc, eq_comm]

theorem sameFrame_of_addMethod (h : d.addMethod m = .ok d') : d.SameFrame d' := by
  obtain ⟨_, rfl⟩ := addMethod_eq_ok_iff.mp h
  exact ⟨rfl, rfl, rfl⟩

end Definition

namespace Registry

variable {r r' r'' : Registry} {name : String}

/-- Two registries have definitions of the same names, which are related in pairs. -/
def Related (R : Definition → Definition → Prop) (r r' : Registry) : Prop :=
  ∀ name, Option.Rel R (r.get? name) (r'.get? name)

namespace Related

variable {R S : Definition → Definition → Prop} {d : Definition}

theorem refl (hR : ∀ d, R d d) (r : Registry) : Related R r r := by
  intro name
  cases r.get? name with
  | none => exact .none
  | some d => exact .some (hR d)

theorem of_get?_eq (hR : ∀ d, R d d) (h : ∀ name, r'.get? name = r.get? name) : Related R r r' := by
  intro name
  rw [h]
  exact refl hR r name

theorem trans (hR : ∀ d d' d'', R d d' → R d' d'' → R d d'') (h₁ : Related R r r')
    (h₂ : Related R r' r'') : Related R r r'' := by
  intro name
  have h₁ := h₁ name
  have h₂ := h₂ name
  revert h₁ h₂
  generalize r.get? name = a, r'.get? name = b, r''.get? name = c
  rintro (⟨h₁⟩ | _) (⟨h₂⟩ | _)
  · exact .some (hR _ _ _ h₁ h₂)
  · exact .none

theorem imp (hR : ∀ d d', R d d' → S d d') (h : Related R r r') : Related S r r' := by
  intro name
  have h := h name
  revert h
  generalize r.get? name = a, r'.get? name = b
  rintro (⟨h⟩ | _)
  · exact .some (hR _ _ h)
  · exact .none

theorem flip (h : Related R r r') : Related (fun d d' => R d' d) r' r := by
  intro name
  have h := h name
  revert h
  generalize r.get? name = a, r'.get? name = b
  rintro (⟨h⟩ | _)
  · exact .some h
  · exact .none

theorem exists_of_get? (h : Related R r r') (hd : r.get? name = some d) :
    ∃ d', r'.get? name = some d' ∧ R d d' := by
  have h := h name
  rw [hd] at h
  revert h
  generalize r'.get? name = b
  rintro ⟨h⟩
  exact ⟨_, rfl, h⟩

theorem get?_eq_none (h : Related R r r') (hd : r.get? name = none) : r'.get? name = none := by
  have h := h name
  rw [hd] at h
  revert h
  generalize r'.get? name = b
  rintro ⟨⟩
  rfl

theorem of_agreesOff (hR : ∀ d, R d d) (ho : AgreesOff name r r') {d' : Definition}
    (hd : r.get? name = some d) (hd' : r'.get? name = some d') (h : R d d') : Related R r r' := by
  intro other
  by_cases hn : other = name
  · rw [hn, hd, hd']
    exact .some h
  · rw [ho.off other hn]
    exact refl hR r other

theorem addMethod {context : String} {m : Method} (hR : ∀ d, R d d)
    (hadd : ∀ d d', d.addMethod m = .ok d' → R d d') {u : Unit}
    (h : Resolution.addMethod name context m r = .ok u r') : Related R r r' := by
  obtain ⟨d, d', hd, hd', rfl⟩ := Resolution.addMethod_eq_ok_iff.mp h
  have hname : ∀ e : Definition, e.name = name → d'.name = name := fun _ _ =>
    (Definition.sameFrame_of_addMethod hd').name.trans (name_of_get? hd)
  refine of_agreesOff hR (agreesOff_modify hname) hd ?_ (hadd d d' hd')
  rw [get?_modify hname, if_pos rfl, hd]
  rfl

end Related

/-- Two registries have definitions of the same names and frames. -/
abbrev SameFrame (r r' : Registry) : Prop :=
  Related Definition.SameFrame r r'

namespace SameFrame

theorem refl (r : Registry) : SameFrame r r :=
  Related.refl .refl r

theorem trans (h₁ : SameFrame r r') (h₂ : SameFrame r' r'') : SameFrame r r'' :=
  Related.trans (fun _ _ _ => .trans) h₁ h₂

theorem symm (h : SameFrame r r') : SameFrame r' r :=
  (Related.flip h).imp fun _ _ hd => hd.symm

theorem ancestorsVia_eq (h : SameFrame r r') {context : String} {trail : List String}
    (parents : List TypeExpr) :
    r'.ancestorsVia context trail parents = r.ancestorsVia context trail parents := by
  fun_induction ancestorsVia r context trail parents with
  | case1 => rw [ancestorsVia]
  | case2 context trail parent rest hd =>
    have hd' := Related.get?_eq_none h hd
    rw [ancestorsVia]
    split
    · rfl
    · simp_all
  | case3 context trail parent rest d hd hn =>
    obtain ⟨d', hd', hf⟩ := h.exists_of_get? hd
    rw [ancestorsVia]
    split
    · simp_all
    · rename_i e he
      cases hd'.symm.trans he
      rw [dif_pos (hf.name ▸ hn), hf.name]
  | case4 context trail parent rest d hd hn ih₁ ih₂ =>
    obtain ⟨d', hd', hf⟩ := h.exists_of_get? hd
    have hthrough : ∀ inherited, throughParent parent d' inherited =
        throughParent parent d inherited := by
      intro inherited
      rw [throughParent, throughParent, hf.name, hf.typeParams]
    rw [ancestorsVia]
    split
    · simp_all
    · rename_i e he
      cases hd'.symm.trans he
      rw [dif_neg (hf.name ▸ hn), hf.name, hf.supertypes, ih₁, ih₂]
      simp only [hthrough]

theorem ancestors_eq (h : SameFrame r r') {d d' : Definition} (hd : d.SameFrame d') :
    r'.ancestors d' = r.ancestors d := by
  rw [ancestors, hd.name, hd.supertypes]
  exact h.ancestorsVia_eq d.supertypes

end SameFrame

end Registry

end FluentGrammar
