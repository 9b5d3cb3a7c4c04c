import FluentGrammar.Proofs.Hierarchy
import FluentGrammar.Proofs.Replacement
import FluentGrammar.Proofs.StoredMethods

/-!
# Clashes

When the table of a definition cannot be made because two methods clash, then one of its ancestors,
or the definition itself, gets two methods of one signature and different contracts. All other
faults on the way are of other kinds.

* `Clashless`: checks that do not end in a clash, as all that are part of making a stub.
* `Registry.forall_mem_allMethods`: what own methods have and what stubs take over holds in tables.
* **`Registry.exists_clash_of_allMethods`**: the two methods behind a clash.
-/

namespace FluentGrammar

/-! ## Checks that do not clash -/

/-- A clash of methods. -/
def ModelFault.isClash : ModelFault → Bool
  | .nameClash .. => true
  | _ => false

/-- If the check fails, then not by a clash of methods. -/
def Clashless {α : Type} (x : Except ModelFault α) : Prop :=
  ∀ fault, x = .error fault → fault.isClash = false

section Clashless

variable {α β : Type}

theorem clashless_ok (a : α) : Clashless (.ok a : Except ModelFault α) := by
  intro fault h
  cases h

theorem clashless_error {fault : ModelFault} (h : fault.isClash = false) :
    Clashless (.error fault : Except ModelFault α) := by
  intro e he
  cases he
  exact h

theorem Clashless.bind {x : Except ModelFault α} {f : α → Except ModelFault β} (hx : Clashless x)
    (hf : ∀ a, Clashless (f a)) : Clashless (x >>= f) := by
  cases x with
  | error e => exact clashless_error (hx e rfl)
  | ok a => exact hf a

theorem Clashless.map {x : Except ModelFault α} (hx : Clashless x) (f : α → β) :
    Clashless (x.map f) := by
  cases x with
  | error e => exact clashless_error (hx e rfl)
  | ok a => exact clashless_ok (f a)

theorem Clashless.mapM {f : α → Except ModelFault β} (hf : ∀ a, Clashless (f a)) (as : List α) :
    Clashless (as.mapM f) := by
  induction as with
  | nil => exact clashless_ok []
  | cons a as ih =>
    rw [List.mapM_cons]
    exact (hf a).bind fun b => ih.bind fun bs => clashless_ok (b :: bs)

end Clashless

theorem TypeExpr.clashless_replace (s : Substitution) (t : TypeExpr) : Clashless (t.replace s) := by
  intro fault h
  obtain ⟨name, found, rfl⟩ := TypeExpr.fault_of_replace h
  rfl

theorem Inference.clashless_meet (i : Inference) (formal actual : TypeExpr)
    (entry : Option TypeArg) : Clashless (i.meet formal actual entry) := by
  unfold meet
  split
  · exact clashless_error rfl
  split
  · exact clashless_error rfl
  cases entry with
  | none => exact clashless_ok _
  | some bound =>
    simp only
    split
    · exact clashless_ok _
    · exact clashless_error rfl

mutual

theorem clashless_unify : (f a : TypeExpr) → (i : Inference) → Clashless (unify f a i)
  | ⟨name, args, dims⟩, a, i => by
    have ih := clashless_unifyArgs (⟨name, args, dims⟩, a) args a.args i
    rw [unify]
    split
    · exact i.clashless_meet _ _ _
    · split
      · exact clashless_error rfl
      split
      · exact clashless_error rfl
      split
      · exact clashless_error rfl
      · exact ih

theorem clashless_unifyArg (owners : TypeExpr × TypeExpr) : (f a : TypeArg) → (i : Inference) →
    Clashless (unifyArg owners f a i)
  | .plain f, .plain a, i => clashless_unify f a i
  | .plain f, .any, _ => clashless_unify f _ _
  | .plain f, .upper _, _ => clashless_unify f _ _
  | .plain f, .lower _, _ => clashless_unify f _ _
  | .any, .any, i => clashless_ok i
  | .upper f, .upper a, i => clashless_unify f a i
  | .lower f, .lower a, i => clashless_unify f a i
  | .any, .plain _, _ | .any, .upper _, _ | .any, .lower _, _ | .upper _, .plain _, _
  | .upper _, .any, _ | .upper _, .lower _, _ | .lower _, .plain _, _ | .lower _, .any, _
  | .lower _, .upper _, _ => clashless_error rfl

theorem clashless_unifyArgs (owners : TypeExpr × TypeExpr) : (fs as : List TypeArg) →
    (i : Inference) → Clashless (unifyArgs owners fs as i)
  | [], _, i => by
    rw [unifyArgs]
    · exact clashless_ok i
    · simp
  | _ :: _, [], i => by
    rw [unifyArgs]
    · exact clashless_ok i
    · simp
  | f :: fs, a :: as, i => by
    have ih := clashless_unifyArg owners f a i
    rw [unifyArgs]
    split
    · rename_i j _
      exact clashless_unifyArgs owners fs as j
    · rename_i e he
      exact clashless_error (ih e he)

end

theorem Method.clashless_stub (m : Method) (target : Owner) (ancestor : TypeExpr) :
    Clashless (m.stub target ancestor) := by
  have hbindings : Clashless (ownerBindings m.owner ancestor) := by
    unfold ownerBindings
    split
    · exact clashless_ok _
    · exact (clashless_unify _ _ _).map _
  have htypes : ∀ (s : Substitution) ts, Clashless (List.mapM (TypeExpr.replace s) ts) :=
    fun s => Clashless.mapM (TypeExpr.clashless_replace s)
  have hbounds : ∀ (s : Substitution) (p : TypeParam), Clashless (p.replace s) :=
    fun s p => (htypes s p.bounds).bind fun _ => clashless_ok _
  have hparam : ∀ (s : Substitution) (p : Param), Clashless (p.replace s) :=
    fun s p => (TypeExpr.clashless_replace s p.type).bind fun _ => clashless_ok _
  exact hbindings.bind fun _ => (Clashless.mapM (hbounds _) _).bind fun _ =>
    (TypeExpr.clashless_replace _ m.result).bind fun _ => (Clashless.mapM (hparam _) _).bind fun _ =>
      (htypes _ _).bind fun _ => clashless_ok _

namespace Registry

variable {r : Registry}

theorem clashless_throughParent (parent : TypeExpr) (d : Definition) (inherited : List TypeExpr) :
    Clashless (throughParent parent d inherited) := by
  have hbind : Clashless (d.typeParams.bind d.name parent.args) := by
    unfold TypeParams.bind
    split
    · exact clashless_ok _
    split
    · exact clashless_error rfl
    · exact clashless_ok _
  refine hbind.bind fun s => Clashless.bind ?_ fun _ => clashless_ok _
  unfold replaceDistinct
  split
  · exact clashless_ok _
  · exact (Clashless.mapM (TypeExpr.clashless_replace s) _).map _

theorem clashless_ancestorsVia (context : String) (trail : List String) (parents : List TypeExpr) :
    Clashless (r.ancestorsVia context trail parents) := by
  fun_induction ancestorsVia r context trail parents with
  | case1 => exact clashless_ok _
  | case2 => exact clashless_error rfl
  | case3 => exact clashless_error rfl
  | case4 context trail parent rest d hd hn ih₁ ih₂ =>
    exact ih₁.bind fun _ => (clashless_throughParent _ _ _).bind fun _ =>
      ih₂.bind fun _ => clashless_ok _

theorem clashless_stubFor (d : Definition) (m : Method) :
    Clashless (stubFor d (r.ancestors d) m) := by
  refine Clashless.bind ?_ fun _ => m.clashless_stub _ _
  unfold ancestorFor
  split
  · exact clashless_ok _
  · refine (clashless_ancestorsVia _ _ _).bind fun types => ?_
    split
    · exact clashless_ok _
    · exact clashless_error rfl

/-! ## The methods behind a clash -/

/-- A stub that is merged into a table is new or stands back for what is there. -/
theorem values_of_inheritMethod {target : Definition} {ancestors : LazyAncestors}
    {table t : Table Method} {m : Method} (h : inheritMethod target ancestors table m = .ok t) :
    t = table ∨ ∃ b, m.isHidden = false ∧ stubFor target ancestors.get m = .ok b ∧
      t.values = table.values ++ [b] := by
  cases hm : m.isHidden with
  | true =>
    unfold inheritMethod at h
    rw [hm] at h
    exact .inl (Except.ok.inj h).symm
  | false =>
    rw [inheritMethod_of_visible hm] at h
    obtain ⟨b, hb, h⟩ := Except.bind_eq_ok_iff.mp h
    rcases merge_eq_ok_iff.mp h with ⟨hnone, rfl⟩ | ⟨_, _, _, rfl⟩
    · refine .inr ⟨b, rfl, hb, ?_⟩
      rw [Table.values, Table.entries_insert_of_not_mem (Table.get?_eq_none_iff.mp hnone)]
      simp [Table.values]
    · exact .inl rfl

theorem merge_eq_error {owner : String} {table : Table Method} {b : Method} {fault : ModelFault}
    (h : merge owner table b = .error fault) : ∃ e, table.get? b.signature = some e ∧
      e.matchesContract b = false ∧
      fault = .nameClash owner b.signature (clashText e) (clashText b) := by
  unfold merge at h
  split at h
  · cases h
  · rename_i e he
    split at h
    · cases h
    · rename_i hmatch
      exact ⟨e, he, by simpa using hmatch, (Except.error.inj h).symm⟩

section Clash

variable {target : Definition} {fault : ModelFault}

/-- The fault reports a method of the definition, which has the property `own`, and a stub of other
contract, which has the property `stub`. -/
def ClashOf (own stub : Definition → Method → Prop) (fault : ModelFault) : Prop :=
  ∃ d e b, own d e ∧ stub d b ∧ e.matchesContract b = false ∧
    fault = .nameClash d.name b.signature (clashText e) (clashText b)

variable {own stub : Definition → Method → Prop} (hsub : ∀ d b, stub d b → own d b)
include hsub

theorem forall_values_of_inheritMethod {m : Method} {table t : Table Method}
    (htable : ∀ v ∈ table.values, own target v)
    (hstub : m.isHidden = false → ∀ b, r.overrideFor target m = .ok b → stub target b)
    (h : inheritMethod target (r.lazyAncestors target) table m = .ok t) :
    ∀ v ∈ t.values, own target v := by
  intro v hv
  rcases values_of_inheritMethod h with rfl | ⟨b, hvisible, hb, hvalues⟩
  · exact htable v hv
  · rw [hvalues, List.mem_append, List.mem_singleton] at hv
    rcases hv with hv | rfl
    · exact htable v hv
    · exact hsub _ _ (hstub hvisible v hb)

theorem clashOf_of_foldlM_inheritMethod (hclash : fault.isClash = true) {ms : List Method}
    {table : Table Method} (htable : ∀ v ∈ table.values, own target v)
    (hstub : ∀ m ∈ ms, m.isHidden = false → ∀ b, r.overrideFor target m = .ok b → stub target b)
    (h : ms.foldlM (inheritMethod target (r.lazyAncestors target)) table = .error fault) :
    ClashOf own stub fault := by
  induction ms generalizing table with
  | nil => cases h
  | cons m ms ih =>
    obtain ⟨hhead, htail⟩ := List.forall_mem_cons.mp hstub
    rw [List.foldlM_cons] at h
    rcases Except.bind_eq_error_iff.mp h with hm | ⟨u, hu, h⟩
    · cases hhidden : m.isHidden with
      | true =>
        unfold inheritMethod at hm
        rw [hhidden] at hm
        cases hm
      | false =>
        rw [inheritMethod_of_visible hhidden, get_lazyAncestors] at hm
        rcases Except.bind_eq_error_iff.mp hm with hb | ⟨b, hb, hm⟩
        · rw [clashless_stubFor target m fault hb] at hclash
          cases hclash
        · obtain ⟨e, he, hmatch, hfault⟩ := merge_eq_error hm
          exact ⟨target, e, b, htable e (mem_values_of_get? he), hhead hhidden b hb, hmatch, hfault⟩
    · exact ih (forall_values_of_inheritMethod hsub htable hhead hu) htail h

theorem forall_values_of_foldlM_inheritMethod {ms : List Method} {table t : Table Method}
    (htable : ∀ v ∈ table.values, own target v)
    (hstub : ∀ m ∈ ms, m.isHidden = false → ∀ b, r.overrideFor target m = .ok b → stub target b)
    (h : ms.foldlM (inheritMethod target (r.lazyAncestors target)) table = .ok t) :
    ∀ v ∈ t.values, own target v := by
  induction ms generalizing table with
  | nil => exact Except.ok.inj h ▸ htable
  | cons m ms ih =>
    obtain ⟨hhead, htail⟩ := List.forall_mem_cons.mp hstub
    obtain ⟨u, hu, h⟩ := Except.bind_eq_ok_iff.mp h
    exact ih (forall_values_of_inheritMethod hsub htable hhead hu) htail h

variable (hown : ∀ d, r.get? d.name = some d → ∀ m ∈ d.methods.values, own d m)
  (hstep : ∀ d parent p e b, r.get? d.name = some d → parent ∈ d.supertypes →
    r.get? parent.name = some p → p.name ≠ d.name → own p e → e.isHidden = false →
    r.overrideFor d e = .ok b → stub d b)
include hown hstep

/-- What own methods have and what stubs take over holds of all methods in a table. -/
theorem forall_mem_allMethods {d : Definition} (hd : r.get? d.name = some d) {t : Table Method}
    (h : r.allMethods d = .ok t) : ∀ v ∈ t.values, own d v := by
  revert hd
  refine allMethods_induction (motive := fun d t => r.get? d.name = some d →
    ∀ v ∈ t.values, own d v) (fun d t h ih hd v hv => ?_) h
  rcases mem_values_allMethods h hv with hmem | ⟨_, parent, hp, p, u, e, hget, hu, he, hover⟩
  · exact hown d hd v hmem
  · obtain ⟨u', hu', hall⟩ := ih parent hp p hget
    cases hu.symm.trans hu'
    have hname := name_of_get? hget
    obtain ⟨hmem, hvisible⟩ := mem_visible.mp he
    exact hsub d v (hstep d parent p e v hd hp hget (hname ▸ ne_of_allMethods h hp)
      (hall (hname ▸ hget) e hmem) hvisible hover)

theorem clashOf_of_inheritVia (hclash : fault.isClash = true) {trail : List String}
    {ancestors : LazyAncestors} {table : Table Method} {parents : List TypeExpr}
    (hd : r.get? target.name = some target) (htrail : target.name ∈ trail)
    (ha : ancestors = r.lazyAncestors target) (htable : ∀ v ∈ table.values, own target v)
    (hparents : parents ⊆ target.supertypes)
    (h : r.inheritVia trail target ancestors table parents = .error fault) :
    ClashOf own stub fault := by
  fun_induction inheritVia r trail target ancestors table parents with
  | case1 => cases h
  | case2 =>
    obtain rfl := Except.error.inj h
    cases hclash
  | case3 =>
    obtain rfl := Except.error.inj h
    cases hclash
  | case4 trail target ancestors table parent rest d hget hn ih₁ ih₂ =>
    subst ha
    have hname := name_of_get? hget
    have hd' : r.get? d.name = some d := hname ▸ hget
    obtain ⟨hparent, hrest⟩ := List.cons_subset.mp hparents
    rcases Except.bind_eq_error_iff.mp h with hi | ⟨inherited, hi, h⟩
    · exact ih₁ hd' (by simp) rfl (hown d hd') (List.Subset.refl _) hi
    have hinherited := forall_mem_allMethods hsub hown hstep hd' (allMethods_of_inheritVia hi)
    have hstub : ∀ m ∈ inherited.values, m.isHidden = false → ∀ b,
        r.overrideFor target m = .ok b → stub target b := fun m hm hvisible b hb =>
      hstep target parent d m b hd hparent hget (fun he => hn (he ▸ htrail)) (hinherited m hm)
        hvisible hb
    rcases Except.bind_eq_error_iff.mp h with hu | ⟨u, hu, h⟩
    · exact clashOf_of_foldlM_inheritMethod hsub hclash htable hstub hu
    · exact ih₂ u hd htrail rfl (forall_values_of_foldlM_inheritMethod hsub htable hstub hu) hrest h

/-- **The methods behind a clash.** The fault reports a method that is on some definition already
and a stub that does not have its contract. -/
theorem exists_clash_of_allMethods {d : Definition} (hd : r.get? d.name = some d)
    (hclash : fault.isClash = true) (h : r.allMethods d = .error fault) : ClashOf own stub fault :=
  clashOf_of_inheritVia hsub hown hstep hclash hd (by simp) rfl (hown d hd) (List.Subset.refl _) h

end Clash

end Registry

end FluentGrammar
