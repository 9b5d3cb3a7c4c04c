import FluentGrammar.Proofs.ArchetypeMethods

/-!
# Calls of archetype methods

The body of an archetype method on an anonymous class calls the arguments of the rule. The verb of
the call is that of the archetype from which the method was declared, which may be the archetype of
an interface above the target; but only arguments of the target's own archetype are called. If the
two archetypes differ, an argument may be called by a name that its interface does not have.

* `Definition.Offers`: an interface has a method that a call can mean.
* `Registry.Written`, `written_of_runStages`: the bodies of all anonymous classes.
* `Definition.Archetyped.offers_iff`: what an interface with an archetype offers under a verb.
* `Registry.CallsResolve`, **`archetypeCalls_resolve_iff`**: which calls mean a method of the
  argument's interface.
-/

namespace FluentGrammar

open Registry

variable {settings : Settings} {units : List CompilationUnit} {r r' : Registry}
  {rule : ProductionRule} {kind : String} {a d : Definition}

/-- The definition has a method of its own with this name and this number of parameters. -/
def Definition.Offers (d : Definition) (name : String) (count : Nat) : Prop :=
  ∃ m ∈ d.methods.values, m.name = name ∧ m.params.length = count

instance (d : Definition) (name : String) (count : Nat) : Decidable (d.Offers name count) :=
  inferInstanceAs (Decidable (∃ m ∈ d.methods.values, m.name = name ∧ m.params.length = count))

/-! ## Bodies -/

/-- The methods of the anonymous class of a rule come from entries of archetypes, and they have the
bodies that are written for those. -/
def Registry.Written (settings : Settings) (r : Registry) (rule : ProductionRule)
    (a : Definition) : Prop :=
  ∃ kind, targetArchetype r rule = .ok kind ∧ ∀ n ∈ a.methods.values, ∃ method,
    archetypeMethodOf? r settings n = some method ∧
    n.body = some (archetypeBody r settings rule kind method n)

theorem Registry.Written.evolves (h : r.Written settings rule a) (hs : r.Sound)
    (he : r.Evolves r') : r'.Written settings rule a := by
  obtain ⟨kind, hkind, hall⟩ := h
  refine ⟨kind, ?_, fun n hn => ?_⟩
  · rw [targetArchetype, he.archetype?_eq hs]
    exact hkind
  · obtain ⟨method, hmethod, hbody⟩ := hall n hn
    refine ⟨method, ?_, ?_⟩
    · rw [archetypeMethodOf?_congr (he.archetype?_eq hs _), hmethod]
    · rw [archetypeBody_congr (he.archetype?_eq hs), hbody]

theorem written_of_anonymousFor {name : String} (hkind : targetArchetype r rule = .ok kind)
    (h : anonymousFor r.takeAnonymousName settings rule kind name = .ok a) :
    r.Written settings rule a := by
  obtain ⟨_, _, _, _, -, hall⟩ := anonymousFor_spec h
  refine ⟨kind, hkind, fun n hn => ?_⟩
  obtain ⟨m, _, method, himplements⟩ := hall n hn
  obtain ⟨b, hb, -, hname, horigin, -⟩ := himplements.stub
  have hstub := isStub_of_overrideFor hb
  have hentry := himplements.entry
  refine ⟨method, ?_, himplements.body⟩
  rw [archetypeMethodOf?, hname, hstub.name, horigin, hstub.origin]
  exact hentry

/-- **The bodies of all anonymous classes**, in the order of the rules. -/
theorem written_of_runStages (hp : ∀ unit ∈ units, ∀ d ∈ unit.declarations, d.Proper)
    (h : runStages settings units (Stage.standard.take 3) = .ok r) :
    List.Forall₂ (r.Written settings) (units.flatMap CompilationUnit.rules) r.anonymous := by
  obtain ⟨_, h⟩ := runStages_eq_ok_iff.mp h
  simp only [Stage.standard, List.take_succ_cons, List.take_zero, Resolution.forM_cons_eq_ok_iff,
    Resolution.forM_nil_eq_ok_iff] at h
  obtain ⟨r₁, h₁, r₂, h₂, _, h₃, rfl⟩ := h
  obtain ⟨_, _, _, _, hs₂, _⟩ := load_spec hp h₁ h₂
  refine (addFactories_induction
    (fun rules s => s.Sound ∧ List.Forall₂ (s.Written settings) rules s.anonymous)
    (fun rules imports s t _ hrs himports => ?_) (fun rules rule s t _ hrs hrule => ?_)
    ⟨hs₂, by rw [(loaded_of_load hp h₁ h₂).anonymous]; exact .nil⟩ h₃).2
  · have hevolves := evolves_addUtilityImports himports
    rw [(get?_of_addUtilityImports hrs.1 himports).2.1]
    exact ⟨hrs.1.evolves hevolves, hrs.2.imp fun _ _ hw => hw.evolves hrs.1 hevolves⟩
  · have hevolves := handleRule_evolves hrs.1 hrule
    obtain ⟨kind, a, hkind, ha, -, hanonymous, -⟩ := get?_of_handleRule hrs.1 hrule
    rw [hanonymous]
    refine ⟨hrs.1.evolves hevolves, List.rel_append
      (hrs.2.imp fun _ _ hw => hw.evolves hrs.1 hevolves) (.cons ?_ .nil)⟩
    exact (written_of_anonymousFor hkind ha).evolves hrs.1 hevolves

/-! ## Calls -/

theorem Definition.Archetyped.offers_iff (h : d.Archetyped settings) (verb : String) (count : Nat) :
    d.Offers (settings.archetypeMethodName verb d.name) count ↔
      ∃ entry ∈ settings.given d, entry.verb = verb ∧ entry.params.length = count := by
  constructor
  · rintro ⟨m, hm, hname, hcount⟩
    have hreserved : settings.isReserved m.name = true :=
      hname ▸ Settings.isReserved_archetypeMethodName ..
    obtain ⟨entry, hentry, rfl⟩ := h.reserved m hm hreserved
    exact ⟨entry, hentry, Settings.archetypeMethodName_inj.mp hname, hcount⟩
  · rintro ⟨entry, hentry, rfl, rfl⟩
    exact ⟨_, h.given entry hentry, rfl, rfl⟩

/-- Every method of the anonymous class `a` of a rule stems from an interface `q` with an archetype
and has the body that is written for an entry of it. A call in this body goes to an argument whose
interface `d` has the archetype of the target. The interface `d` has a method of that name and of as
many parameters as the call has arguments exactly if its archetype has an entry with that verb and
that number of parameters; and it always has one if `q` has the archetype of the target. -/
def Registry.CallsResolve (settings : Settings) (r : Registry) (rule : ProductionRule)
    (a : Definition) : Prop :=
  ∃ kind, targetArchetype r rule = .ok kind ∧
    ∀ n ∈ a.methods.values, ∃ q method, r.get? n.origin = some q ∧
      archetypeMethodOf? r settings n = some method ∧
      n.body = some (archetypeBody r settings rule kind method n) ∧
      ∀ arg ∈ rule.arguments, ∀ call,
        archetypeCall? r settings kind method.verb
          (Text.joinWith ", " (n.params.map Param.name)) arg = some call →
        ∃ d, r.get? arg.2.name = some d ∧ d.archetype? = some kind ∧
          call = arg.1 ++ "." ++ settings.archetypeMethodName method.verb d.name ++ "(" ++
            Text.joinWith ", " (n.params.map Param.name) ++ ")" ∧
          (d.Offers (settings.archetypeMethodName method.verb d.name) n.params.length ↔
            ∃ entry ∈ settings.given d, entry.verb = method.verb ∧
              entry.params.length = n.params.length) ∧
          (q.archetype? = some kind →
            d.Offers (settings.archetypeMethodName method.verb d.name) n.params.length)

/-- **Which calls mean a method of the argument's interface**, for all rules of units that were read
from trees, once the rules have been handled. -/
theorem archetypeCalls_resolve_iff {trees : List Tree} (hu : readUnits settings trees = .ok units)
    (h : runStages settings units (Stage.standard.take 3) = .ok r) :
    List.Forall₂ (r.CallsResolve settings) (units.flatMap CompilationUnit.rules) r.anonymous := by
  have hp := proper_readUnits hu
  have hs := sound_of_runStages hp (List.take_prefix _ _) h
  obtain ⟨harchetyped, htraced⟩ := traced_of_runStages hp h
  refine (forall₂_and_mem_right (written_of_runStages hp h)).imp fun rule a hrule => ?_
  obtain ⟨⟨kind, hkind, hall⟩, ha⟩ := hrule
  refine ⟨kind, hkind, fun n hn => ?_⟩
  obtain ⟨method, hmethod, hbody⟩ := hall n hn
  obtain ⟨q, hq, hinterface, hreserved, -, hname⟩ := exists_of_archetypeMethodOf? hmethod
  refine ⟨q, method, hq, hmethod, hbody, fun arg _ call hcall => ?_⟩
  rw [archetypeCall?_eq] at hcall
  split at hcall
  · rename_i hargument
    obtain ⟨d, hd, hdkind⟩ := Option.bind_eq_some_iff.mp hargument
    have harchetype := harchetyped _ d hd (Definition.kind_of_archetype? (by simp [hdkind]))
    have hoffers := harchetype.offers_iff method.verb n.params.length
    refine ⟨d, hd, hdkind, ?_, hoffers, fun hqkind => hoffers.mpr ?_⟩
    · rw [name_of_get? hd]
      exact (Option.some.inj hcall).symm
    · -- The method was declared from an entry for `q`, and that is one for `d` as well.
      have hmem := List.mem_append_right r.definitions ha
      have hne := hs.ne_utility_of_kind hmem (by simp [hs.unnamed a ha])
      obtain ⟨entry, hentry, hentryName, hcount⟩ :=
        htraced _ a hne (hs.get?_of_mem hmem) n hn q hq hinterface hreserved
      have hverb := Settings.archetypeMethodName_inj.mp (hentryName.symm.trans hname)
      rw [Settings.given, hqkind, ← hdkind] at hentry
      exact ⟨entry, hentry, hverb, hcount.symm⟩
  · cases hcall

/-! ## Two kinds -/

/-- Two archetypes with one method each. -/
def twoKinds : Config where
  generator := { utilityClass := "Forms", reservedPrefix := "symgen$" }
  logging := {}
  archetypes := [⟨"Sql", [{ verb := "print" }]⟩, ⟨"Doc", [{ verb := "show" }]⟩]

/-- The settings of `twoKinds`. -/
def twoKindsSettings : Settings :=
  ⟨"Forms", "symgen$", "Test", [⟨"Sql", [⟨"print", .named "void", [], none⟩]⟩,
    ⟨"Doc", [⟨"show", .named "void", [], none⟩]⟩]⟩

/-- The target `T` of a rule has another archetype than its parent `Q`. -/
def Tree.mixedKinds : Tree :=
  node "Unit"
    [interfaceNode "Q" [] [leaf "Archetype" "Doc"],
     interfaceNode "T" [] [node "Extends" [typeNode "Q" []], leaf "Archetype" "Sql"],
     interfaceNode "I" [] [leaf "Archetype" "Sql"],
     conversionNode "T" "I"]

/-- The anonymous class for `T` has a method from each of the two archetypes, and both call `I`. -/
theorem archetypeCalls_resolve_iff_mixed :
    ∃ units r, readUnits twoKindsSettings [.mixedKinds] = .ok units ∧
      runStages twoKindsSettings units (Stage.standard.take 3) = .ok r ∧
      r.anonymous.map (fun a => a.methods.values.map Method.body) =
        [[some "x.symgen$print$I();", some "x.symgen$show$I();"]] ∧
      List.Forall₂ (r.CallsResolve twoKindsSettings) (units.flatMap CompilationUnit.rules)
        r.anonymous := by
  have hrun : ((readUnits twoKindsSettings [.mixedKinds]).toOption.any fun units =>
      (runStages twoKindsSettings units (Stage.standard.take 3)).toOption.any fun r =>
        r.anonymous.map (fun a => a.methods.values.map Method.body) =
          [[some "x.symgen$print$I();", some "x.symgen$show$I();"]]) = true := by
    decide +kernel
  obtain ⟨units, hu, hrun⟩ := Except.exists_of_any hrun
  obtain ⟨r, hr, hbodies⟩ := Except.exists_of_any hrun
  exact ⟨units, r, hu, hr, of_decide_eq_true hbodies, archetypeCalls_resolve_iff hu hr⟩

/-- **Calls need not mean anything.** The configuration is valid, and the rules are handled; but a
body calls a method of `I` that `I` does not have. -/
theorem archetypeCalls_unresolved :
    twoKinds.validate = .ok twoKinds ∧ Settings.ofConfig twoKinds = .ok twoKindsSettings ∧
      ∃ units r, readUnits twoKindsSettings [.mixedKinds] = .ok units ∧
        runStages twoKindsSettings units (Stage.standard.take 3) = .ok r ∧
        ∃ a ∈ r.anonymous, ∃ n ∈ a.methods.values, n.body = some "x.symgen$show$I();" ∧
          ∃ d ∈ r.get? "I", ¬ d.Offers "symgen$show$I" 0 := by
  have hrun : ((readUnits twoKindsSettings [.mixedKinds]).toOption.any fun units =>
      (runStages twoKindsSettings units (Stage.standard.take 3)).toOption.any fun r =>
        ∃ a ∈ r.anonymous, ∃ n ∈ a.methods.values, n.body = some "x.symgen$show$I();" ∧
          ∃ d ∈ r.get? "I", ¬ d.Offers "symgen$show$I" 0) = true := by
    decide +kernel
  obtain ⟨units, hu, hrun⟩ := Except.exists_of_any hrun
  obtain ⟨r, hr, hcalls⟩ := Except.exists_of_any hrun
  exact ⟨by decide +kernel, by decide +kernel, units, r, hu, hr, of_decide_eq_true hcalls⟩

end FluentGrammar
