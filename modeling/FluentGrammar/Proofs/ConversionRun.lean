import FluentGrammar.Proofs.ConversionClosure

/-!
# The closure of a class as a run

What one conversion keeps, the closure of a class keeps: a property of the registry and a property
of the types in the queue go together, as a conversion is applied to a type of the queue and what is
gained joins it. Conversions change the definition of the class and nothing else, and of that
definition only the interfaces, the paths and, at its end, the table of methods.

* `closeClass_induction`: from single conversions to the closure of a class.
* `Registry.ModifiedAt`: a registry in which the definition of one name was changed.
* `Definition.Enlarged`: a class with more methods and other interfaces.
* `gainInterface_enlarged`: a class that gains an interface, with the methods that come with it.
* **`closeClass_only_adds`**: the closure of a class only adds.
-/

namespace FluentGrammar

/-! ## Induction -/

section Induction

variable {r r' : Registry} {name utility : String} {conversions : List Conversion}

theorem Frontier.mem_queue_pushAll {f : Frontier} {ts : List TypeExpr} {t : TypeExpr}
    (h : t ∈ (f.pushAll ts).queue) : t ∈ f.queue ∨ t ∈ ts := by
  induction ts generalizing f with
  | nil => exact .inl h
  | cons u ts ih =>
    rcases ih h with h | h
    · unfold push at h
      split at h
      · rcases List.mem_append.mp h with h | h
        · exact .inl h
        · exact .inr (List.mem_singleton.mp h ▸ List.mem_cons_self)
      · exact .inl h
    · exact .inr (List.mem_cons_of_mem u h)

variable {P : Registry → Prop} {Q : Registry → TypeExpr → Prop}

theorem applyConversions_induction {via : TypeExpr} {cs : List Conversion}
    (step : ∀ c ∈ cs, ∀ s s' gained, P s → Q s via →
      applyConversion name utility via c s = .ok gained s' →
      P s' ∧ (∀ t, Q s t → Q s' t) ∧ ∀ t ∈ gained, Q s' t)
    {f : Frontier} (hP : P r) (hvia : Q r via) (hQ : ∀ t ∈ f.queue, Q r t)
    {g : { g : Frontier // g.size = f.size }}
    (h : applyConversions name utility via f cs r = .ok g r') :
    P r' ∧ ∀ t ∈ g.1.queue, Q r' t := by
  induction cs generalizing r f with
  | nil =>
    obtain ⟨hg, rfl⟩ := applyConversions_nil_eq_ok h
    rw [hg]
    exact ⟨hP, hQ⟩
  | cons c cs ih =>
    obtain ⟨gained, s, g', hstep, hrest, hg⟩ := applyConversions_cons_eq_ok h
    obtain ⟨hstart, hcs⟩ := List.forall_mem_cons.mp step
    obtain ⟨hP', hkeep, hgained⟩ := hstart r s gained hP hvia hstep
    have hqueue : ∀ t ∈ (f.pushAll gained).queue, Q s t := fun t ht =>
      (Frontier.mem_queue_pushAll ht).elim (fun hq => hkeep t (hQ t hq)) (hgained t)
    rw [hg]
    exact ih hcs hP' (hkeep via hvia) hqueue hrest

theorem explore_induction
    (step : ∀ via, ∀ c ∈ conversions, ∀ s s' gained, P s → Q s via →
      applyConversion name utility via c s = .ok gained s' →
      P s' ∧ (∀ t, Q s t → Q s' t) ∧ ∀ t ∈ gained, Q s' t)
    {f : Frontier} (hP : P r) (hQ : ∀ t ∈ f.queue, Q r t) {u : Unit}
    (h : explore name utility conversions f r = .ok u r') : P r' := by
  induction hsize : f.size using Nat.strong_induction_on generalizing r f with
  | _ size ih =>
    obtain ⟨queue, unseen⟩ := f
    cases queue with
    | nil => exact explore_nil_eq_ok h ▸ hP
    | cons via queue =>
      obtain ⟨hvia, hqueue⟩ := List.forall_mem_cons.mp hQ
      obtain ⟨g, s, hstep, hrest⟩ := explore_cons_eq_ok h
      obtain ⟨hP', hQ'⟩ := applyConversions_induction (step via) hP hvia hqueue hstep
      refine ih g.1.size ?_ hP' hQ' hrest rfl
      rw [g.2, ← hsize]
      simp [Frontier.size]

/-- **Induction on the closure of a class.** A property of the registry is kept by each conversion
of a type that has some other property, as all ancestors of the class have at first and all that is
gained has from then on. -/
theorem closeClass_induction {d : Definition} {types : List TypeExpr} (hd : r.get? name = some d)
    (ht : r.ancestors d = .ok types) (hP : P r) (hQ : ∀ t ∈ types, Q r t)
    (step : ∀ via, ∀ c ∈ conversions, ∀ s s' gained, P s → Q s via →
      applyConversion name utility via c s = .ok gained s' →
      P s' ∧ (∀ t, Q s t → Q s' t) ∧ ∀ t ∈ gained, Q s' t)
    {u : Unit} (h : closeClass name utility conversions r = .ok u r') : P r' := by
  obtain ⟨e, types', he, ht', h⟩ := closeClass_eq_ok_iff.mp h
  cases hd.symm.trans he
  cases ht.symm.trans ht'
  exact explore_induction step hP (fun t hm => hQ t (List.mem_of_mem_filter hm)) h

end Induction

/-! ## Changes to one definition -/

namespace Registry

variable {r r' r'' : Registry} {name : String}

/-- `r'` is `r` with the definition of `name` changed, and nothing else. -/
def ModifiedAt (name : String) (r r' : Registry) : Prop :=
  ∃ f : Definition → Definition, (∀ e, e.name = name → (f e).name = name) ∧ r' = r.modify name f

theorem modify_id (r : Registry) (name : String) : r.modify name id = r := by
  simp [modify]

theorem modify_modify {f g : Definition → Definition}
    (hf : ∀ e, e.name = name → (f e).name = name) :
    (r.modify name f).modify name g = r.modify name (g ∘ f) := by
  have hchange : ∀ e : Definition,
      (if (if e.name = name then f e else e).name = name then
        g (if e.name = name then f e else e) else (if e.name = name then f e else e)) =
      if e.name = name then g (f e) else e := by
    intro e
    by_cases he : e.name = name
    · simp [he, hf e he]
    · simp [he]
  have hnames : ∀ ds : List Definition,
      (ds.map fun e => if e.name = name then f e else e).map Definition.name =
        ds.map Definition.name := by
    intro ds
    rw [List.map_map]
    refine List.map_congr_left fun e _ => ?_
    by_cases he : e.name = name
    · simp [he, hf e he]
    · simp [he]
  by_cases hm : name ∈ r.definitions.map Definition.name
  · simp only [modify, if_pos hm, hnames, List.map_map, Function.comp_def, hchange]
  · simp only [modify, if_neg hm, List.map_map, Function.comp_def, hchange]

theorem get?_modify_self {f : Definition → Definition} {d : Definition}
    (hf : ∀ e, e.name = name → (f e).name = name) (hd : r.get? name = some d) :
    (r.modify name f).get? name = some (f d) := by
  rw [get?_modify hf, if_pos rfl, hd, Option.map_some]

theorem modifiedAt_modify {f : Definition → Definition}
    (hf : ∀ e, e.name = name → (f e).name = name) : ModifiedAt name r (r.modify name f) :=
  ⟨f, hf, rfl⟩

theorem ModifiedAt.refl (name : String) (r : Registry) : ModifiedAt name r r :=
  ⟨id, fun _ he => he, (modify_id r name).symm⟩

theorem ModifiedAt.trans (h₁ : ModifiedAt name r r') (h₂ : ModifiedAt name r' r'') :
    ModifiedAt name r r'' := by
  obtain ⟨f, hf, rfl⟩ := h₁
  obtain ⟨g, hg, rfl⟩ := h₂
  exact ⟨g ∘ f, fun e he => hg _ (hf e he), modify_modify hf⟩

end Registry

namespace Definition

variable {d d' d'' : Definition} {ms ns : List Method}

theorem superclass?_mapInterfaces (f : List TypeExpr → List TypeExpr) :
    (d.mapInterfaces f).superclass? = d.superclass? := by
  unfold superclass? mapInterfaces
  cases d.shape <;> rfl

theorem interfaces_mapInterfaces {f : List TypeExpr → List TypeExpr}
    (h : d.isNamedClass = true) : (d.mapInterfaces f).interfaces = f d.interfaces := by
  obtain ⟨superclass, interfaces, paths, hs⟩ := isNamedClass_iff.mp h
  simp [Definition.interfaces, mapInterfaces, hs]

theorem interfaces_of_dropped {paths : List ConversionPath} {names : List String}
    (h : d.isNamedClass = true)
    (hshape : d'.shape = ((d.addPaths paths).removeInterfaces names).shape) :
    d'.interfaces = d.interfaces.filter (·.name ∉ names) ∧ d'.superclass? = d.superclass? := by
  have hp : (d.addPaths paths).isNamedClass = true := (isNamedClass_addPaths paths).trans h
  constructor
  · rw [Definition.interfaces, hshape]
    change ((d.addPaths paths).mapInterfaces _).interfaces = _
    rw [interfaces_mapInterfaces hp, interfaces_addPaths]
  · rw [superclass?, hshape]
    change ((d.addPaths paths).mapInterfaces _).superclass? = _
    rw [superclass?_mapInterfaces, superclass?_addPaths]

theorem interfaces_addInterface_subset (t : TypeExpr) (h : d.isNamedClass = true) :
    (d.addInterface t).interfaces ⊆ d.interfaces ++ [t] := by
  unfold addInterface
  split
  · rw [interfaces_mapInterfaces h]
    exact List.Subset.refl _
  · exact List.subset_append_left ..

@[simp] theorem methods_addInterface (t : TypeExpr) : (d.addInterface t).methods = d.methods := by
  unfold addInterface
  split <;> rfl

/-- The class `d'` is `d` with the methods `ms` at the end of its table and with new interfaces
after those it kept. -/
structure Enlarged (ms : List Method) (d d' : Definition) : Prop where
  rest : d' = { d with methods := d'.methods, shape := d'.shape }
  named : d.isNamedClass = true → d'.isNamedClass = true
  superclass : d'.superclass? = d.superclass?
  methods : d'.methods.entries = d.methods.entries ++ ms.map fun m => (m.signature, m)
  interfaces : ∃ kept new, kept.Sublist d.interfaces ∧ d'.interfaces = kept ++ new

theorem Enlarged.refl (d : Definition) : Enlarged [] d d :=
  ⟨rfl, id, rfl, by simp, d.interfaces, [], .refl _, by simp⟩

theorem Enlarged.trans (h₁ : Enlarged ms d d') (h₂ : Enlarged ns d' d'') :
    Enlarged (ms ++ ns) d d'' := by
  obtain ⟨kept₁, new₁, hkept₁, hi₁⟩ := h₁.interfaces
  obtain ⟨kept₂, new₂, hkept₂, hi₂⟩ := h₂.interfaces
  rw [hi₁] at hkept₂
  obtain ⟨kept, more, rfl, hkept, _⟩ := List.sublist_append_iff.mp hkept₂
  refine ⟨?_, fun h => h₂.named (h₁.named h), h₂.superclass.trans h₁.superclass, ?_, kept,
    more ++ new₂, hkept.trans hkept₁, by rw [hi₂, List.append_assoc]⟩
  · rw [h₂.rest, h₁.rest]
  · rw [h₂.methods, h₁.methods, List.map_append, List.append_assoc]

theorem Enlarged.owner (h : Enlarged ms d d') (hd : d.isNamedClass = true) : d'.owner = d.owner := by
  have hk : d'.kind = d.kind :=
    (of_decide_eq_true (h.named hd)).trans (of_decide_eq_true hd).symm
  rw [Definition.owner, hk, h.rest, Definition.owner]

theorem Enlarged.get?_of_get? (h : Enlarged ms d d') {key : String} {m : Method}
    (hm : d.methods.get? key = some m) : d'.methods.get? key = some m := by
  rw [Table.get?_eq_some_iff, h.methods]
  exact List.mem_append_left _ (Table.get?_eq_some_iff.mp hm)

theorem Enlarged.get?_cases (h : Enlarged ms d d') {key : String} {m : Method}
    (hm : d'.methods.get? key = some m) : d.methods.get? key = some m ∨ m ∈ ms := by
  rw [Table.get?_eq_some_iff, h.methods] at hm
  rcases List.mem_append.mp hm with hm | hm
  · exact .inl (Table.get?_eq_some_iff.mpr hm)
  · obtain ⟨n, hn, he⟩ := List.mem_map.mp hm
    exact .inr ((Prod.mk.inj he).2 ▸ hn)

theorem Enlarged.mem_keys (h : Enlarged ms d d') {m : Method} (hm : m ∈ ms) :
    m.signature ∈ d'.methods.keys := by
  rw [Table.keys, h.methods, List.map_append, List.map_map]
  exact List.mem_append_right _ (List.mem_map.mpr ⟨m, hm, rfl⟩)

theorem enlarged_addInterface (d : Definition) (t : TypeExpr) :
    Enlarged [] d (d.addInterface t) := by
  unfold addInterface
  split
  · rename_i hl
    have hd : d.isNamedClass = true := (Bool.and_eq_true_iff.mp hl).1
    exact ⟨rfl, isNamedClass_mapInterfaces _, superclass?_mapInterfaces _, by simp [mapInterfaces],
      d.interfaces, [t], .refl _, interfaces_mapInterfaces hd⟩
  · exact .refl d

theorem enlarged_removeInterfaces_addPaths (hd : d.isNamedClass = true)
    (paths : List ConversionPath) (names : List String) :
    Enlarged [] d ((d.addPaths paths).removeInterfaces names) := by
  have hp : (d.addPaths paths).isNamedClass = true := (isNamedClass_addPaths paths).trans hd
  refine ⟨rfl, fun _ => isNamedClass_mapInterfaces _ hp, ?_, ?_,
    d.interfaces.filter (·.name ∉ names), [], List.filter_sublist, ?_⟩
  · exact (superclass?_mapInterfaces _).trans (superclass?_addPaths paths)
  · simp [removeInterfaces, mapInterfaces, addPaths]
  · rw [List.append_nil, removeInterfaces, interfaces_mapInterfaces hp, interfaces_addPaths]

theorem enlarged_of_addMethod {m : Method} (h : d.addMethod m = .ok d') :
    Enlarged [m.reown d.owner] d d' := by
  obtain ⟨hk, rfl⟩ := addMethod_eq_ok_iff.mp h
  exact ⟨rfl, id, rfl, Table.entries_insert_of_not_mem hk _, d.interfaces, [], .refl _,
    (List.append_nil _).symm⟩

end Definition

/-! ## One conversion -/

section Step

variable {base r r' : Registry} {name utility : String} {d : Definition}
  {types gained : List TypeExpr} {via target : TypeExpr} {c : Conversion}

theorem enlarged_of_addMethods {ms : List Method} {u : Unit} (hd : r.get? name = some d)
    (h : ms.forM (Resolution.addMethod name name) r = .ok u r') :
    ∃ d', r'.get? name = some d' ∧ r.ModifiedAt name r' ∧
      d.Enlarged (ms.map (·.reown d.owner)) d' := by
  induction ms generalizing r d with
  | nil =>
    obtain rfl := Resolution.forM_nil_eq_ok_iff.mp h
    exact ⟨d, hd, .refl name r, .refl d⟩
  | cons m ms ih =>
    obtain ⟨s, hs, h⟩ := Resolution.forM_cons_eq_ok_iff.mp h
    obtain ⟨e, e', he, hadd, rfl⟩ := Resolution.addMethod_eq_ok_iff.mp hs
    cases hd.symm.trans he
    have hname : e'.name = name :=
      (Definition.sameFrame_of_addMethod hadd).name.trans (Registry.name_of_get? hd)
    obtain ⟨d', hd', hmodified, henlarged⟩ :=
      ih (Registry.get?_modify_self (fun _ _ => hname) hd) h
    rw [(Definition.sameFrame_of_addMethod hadd).owner] at henlarged
    refine ⟨d', hd', ?_, (Definition.enlarged_of_addMethod hadd).trans henlarged⟩
    exact (Registry.modifiedAt_modify fun _ _ => hname).trans hmodified

/-- The methods that come with an interface: those that are open in the new table and were not known
in the old one. -/
theorem gainInterface_enlarged (hr : ClassAt base name r d types)
    (h : gainInterface name utility via target c r = .ok gained r') :
    ∃ known table methods d', r.allMethods d = .ok known ∧
      (r.modify name (·.addInterface target)).allMethods (d.addInterface target) = .ok table ∧
      convertedMethods utility c.method.name known.keys table = .ok methods ∧
      r'.get? name = some d' ∧ r.ModifiedAt name r' ∧
      d.Enlarged (methods.map (·.reown d.owner)) d' := by
  obtain ⟨old, before, known, d₁, types₁, redundant, table, methods, hold, -, hknown, hd₁, -, -, -,
    htable, hmethods, hadd⟩ := gainInterface_eq_ok h
  cases hr.found.symm.trans hold
  have hf : ∀ e : Definition, e.name = name → (e.addInterface target).name = name :=
    fun e he => (Definition.name_addInterface target).trans he
  have hget := Registry.get?_modify_self hf hr.found
  cases hget.symm.trans hd₁
  have hkeeps : ∀ (paths : List ConversionPath) (names : List String) (e : Definition),
      e.name = name → ((e.addPaths paths).removeInterfaces names).name = name :=
    fun _ _ _ he => he
  obtain ⟨d', hd', hmodified, henlarged⟩ :=
    enlarged_of_addMethods (Registry.get?_modify_self (hkeeps _ _) hget) hadd
  have hshape : ∀ paths names,
      d.Enlarged [] (((d.addInterface target).addPaths paths).removeInterfaces names) :=
    fun paths names => (d.enlarged_addInterface target).trans
      (Definition.enlarged_removeInterfaces_addPaths
        (Definition.isNamedClass_addInterface target hr.named) paths names)
  rw [(hshape _ _).owner hr.named] at henlarged
  refine ⟨known, table, methods, d', hknown, htable, hmethods, hd', ?_,
    (hshape _ _).trans henlarged⟩
  exact ((Registry.modifiedAt_modify hf).trans
    (Registry.modifiedAt_modify (hkeeps _ _))).trans hmodified

theorem applyConversion_enlarged (hr : ClassAt base name r d types)
    (h : applyConversion name utility via c r = .ok gained r') :
    ∃ d' types' ms, ClassAt base name r' d' types' ∧ r.ModifiedAt name r' ∧ d.Enlarged ms d' ∧
      (base.Unshadowed → ∀ n ∈ types.map TypeExpr.name, n ∈ types'.map TypeExpr.name) := by
  rcases applyConversion_cases hr h with ⟨_, rfl, _⟩ | ⟨_, target, _, _, _, hnew, hgain⟩
  · exact ⟨d, types, [], hr, .refl name _, .refl d, fun _ _ => id⟩
  · obtain ⟨_, _, _, d', _, _, _, hd', hmodified, henlarged⟩ := gainInterface_enlarged hr hgain
    obtain ⟨_, _, e, types', _, _, _, hr', _⟩ := gainInterface_cases hr hgain
    cases hd'.symm.trans hr'.found
    refine ⟨d', types', _, hr', hmodified, henlarged, fun hb n hn => ?_⟩
    obtain ⟨e, us, he, hnames, _⟩ := gainInterface_spec hb hr hnew hgain
    cases hr'.found.symm.trans he.found
    cases hr'.ancestors.symm.trans he.ancestors
    exact (hnames n).mpr (.inl hn)

end Step

/-! ## The whole closure -/

section Run

variable {r r' : Registry} {name utility : String} {conversions : List Conversion}
  {d : Definition}

/-- **The closure of a class only adds.** Nothing but the definition of the class is changed, and of
that nothing but its interfaces, its paths and its methods. Its methods stay in their places, and
new ones follow them. Some of the interfaces it implements may be dropped; in a registry in which no
definition inherits from a type of the name of one of its own type parameters, all names of
ancestors are kept nevertheless. -/
theorem closeClass_only_adds (hd : r.get? name = some d) (hc : d.isNamedClass = true)
    (h : closeClass name utility conversions r = .ok () r') :
    ∃ f before after, r' = r.modify name f ∧ (∀ other, other ≠ name → r'.get? other = r.get? other) ∧
      r'.get? name = some (f d) ∧
      f d = { d with methods := (f d).methods, shape := (f d).shape } ∧
      (f d).isNamedClass = true ∧ (f d).superclass? = d.superclass? ∧
      (∃ added, (f d).methods.entries = d.methods.entries ++ added) ∧
      (∃ kept new, kept.Sublist d.interfaces ∧ (f d).interfaces = kept ++ new) ∧
      r.ancestors d = .ok before ∧ r'.ancestors (f d) = .ok after ∧
      (r.Unshadowed → ∀ n ∈ before.map TypeExpr.name, n ∈ after.map TypeExpr.name) := by
  obtain ⟨e, before, he, hbefore, _⟩ := closeClass_eq_ok_iff.mp h
  cases hd.symm.trans he
  have hrun : ∃ d' after ms, ClassAt r name r' d' after ∧ r.ModifiedAt name r' ∧ d.Enlarged ms d' ∧
      (r.Unshadowed → ∀ n ∈ before.map TypeExpr.name, n ∈ after.map TypeExpr.name) := by
    refine closeClass_induction (P := fun s => ∃ e types ms, ClassAt r name s e types ∧
      r.ModifiedAt name s ∧ d.Enlarged ms e ∧
      (r.Unshadowed → ∀ n ∈ before.map TypeExpr.name, n ∈ types.map TypeExpr.name))
      (Q := fun _ _ => True) hd hbefore ?_ (fun _ _ => trivial) ?_ h
    · exact ⟨d, before, [], ⟨.refl name r, hd, hc, hbefore⟩, .refl name r, .refl d, fun _ _ => id⟩
    · rintro via c _ s s' gained ⟨e, types, ms, hclass, hmodified, henlarged, hnames⟩ _ hstep
      obtain ⟨e', types', ns, hclass', hmodified', henlarged', hnames'⟩ :=
        applyConversion_enlarged hclass hstep
      exact ⟨⟨e', types', ms ++ ns, hclass', hmodified.trans hmodified', henlarged.trans henlarged',
        fun hr n hn => hnames' hr n (hnames hr n hn)⟩, fun _ => id, fun _ _ => trivial⟩
  obtain ⟨d', after, ms, hr', ⟨f, hf, rfl⟩, henlarged, hnames⟩ := hrun
  cases hr'.found.symm.trans (Registry.get?_modify_self hf hd)
  exact ⟨f, before, after, rfl, hr'.agrees.off, hr'.found, henlarged.rest, hr'.named,
    henlarged.superclass, ⟨_, henlarged.methods⟩, henlarged.interfaces, hbefore, hr'.ancestors,
    hnames⟩

end Run

/-- The class implements `A`, `Base` and `Mid`, which inherits from `Base`; from `A` a conversion
leads to `Sub`, which inherits from `Mid`. -/
def layeredModel : Registry :=
  let method := fun (owner : Owner) (name : String) => Method.make owner name (.named "void") []
  let r := closureModel
    [("A", [], []), ("Base", [], []), ("Mid", [], [.named "Base"]), ("Sub", [], [.named "Mid"])]
    [.named "A", .named "Base", .named "Mid"]
  let r := r.modify "Sub" fun e => e.withMethod (method e.owner "run")
  r.modify "C" fun e => e.withMethod (method e.owner "size")

/-- The class of the layers drops `Base` and `Mid` at once, and its new method follows the old one.
-/
theorem closeClass_only_adds_layered :
    layeredModel.Unshadowed ∧ ∃ r' d f before after, layeredModel.get? "C" = some d ∧
      d.isNamedClass = true ∧
      closeClass "C" "Forms" [conversionOf [] (.named "A") (.named "Sub")] layeredModel =
        .ok () r' ∧
      r' = layeredModel.modify "C" f ∧ r'.get? "C" = some (f d) ∧
      f d = { d with methods := (f d).methods, shape := (f d).shape } ∧
      d.interfaces = [.named "A", .named "Base", .named "Mid"] ∧
      (f d).interfaces = [.named "A", .named "Sub"] ∧
      d.methods.keys = ["size()"] ∧ (f d).methods.keys = ["size()", "run()"] ∧
      layeredModel.ancestors d = .ok before ∧ r'.ancestors (f d) = .ok after ∧
      ∀ n ∈ before.map TypeExpr.name, n ∈ after.map TypeExpr.name := by
  have hr : layeredModel.Unshadowed := by decide +kernel
  obtain ⟨d, hd⟩ : ∃ d, layeredModel.get? "C" = some d :=
    Option.isSome_iff_exists.mp (by decide +kernel)
  have hdp : (layeredModel.get? "C").any fun d => decide (d.isNamedClass = true ∧
      d.interfaces = [.named "A", .named "Base", .named "Mid"] ∧
      d.methods.keys = ["size()"]) := by decide +kernel
  simp only [hd, Option.any_some, decide_eq_true_eq] at hdp
  obtain ⟨hnamed, hold, hkeys⟩ := hdp
  obtain ⟨_, r', hrun, hp⟩ := Resolution.exists_of_succeeds
    (x := closeClass "C" "Forms" [conversionOf [] (.named "A") (.named "Sub")])
    (p := fun r' => (r'.get? "C").any fun (e : Definition) => decide
      (e.interfaces = [.named "A", .named "Sub"] ∧ e.methods.keys = ["size()", "run()"]))
    (show Resolution.succeeds _ layeredModel _ = true by decide +kernel)
  obtain ⟨f, before, after, hmodify, _, hd', hrest, _, _, _, _, hbefore, hafter, hnames⟩ :=
    closeClass_only_adds hd hnamed hrun
  simp only [hd', Option.any_some, decide_eq_true_eq] at hp
  exact ⟨hr, r', d, f, before, after, hd, hnamed, hrun, hmodify, hd', hrest, hold, hp.1, hkeys, hp.2,
    hbefore, hafter, hnames hr⟩

/-- **A shadowed name is lost.** Through `J<Foo>` the class inherits from `Foo`; as `J` itself
inherits from `T`, the interface `T` is dropped, and no ancestor has its name any more. -/
theorem closeClass_loses_shadowed :
    ∃ r', closeClass "C" "Forms"
        [conversionOf [] (.named "A") (.generic "J" [.plain (.named "Foo")])]
        (shadowedModel [.named "A", .named "T"]) = .ok () r' ∧
      (shadowedModel [.named "A", .named "T"]).ancestorNames "C" (.named "C") = .ok ["A", "T"] ∧
      r'.ancestorNames "C" (.named "C") = .ok ["A", "J", "Foo"] := by
  obtain ⟨_, r', hrun, hnames⟩ := Resolution.exists_of_succeeds
    (x := closeClass "C" "Forms"
      [conversionOf [] (.named "A") (.generic "J" [.plain (.named "Foo")])])
    (p := fun r' => r'.ancestorNames "C" (.named "C") = .ok ["A", "J", "Foo"])
    (show Resolution.succeeds _ (shadowedModel [.named "A", .named "T"]) _ = true by
      decide +kernel)
  exact ⟨r', hrun, by decide +kernel, of_decide_eq_true hnames⟩

end FluentGrammar
