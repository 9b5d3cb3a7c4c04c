import FluentGrammar.Proofs.Alike
import FluentGrammar.Resolution.Stage

/-!
# The steps of a stage

What each stage consists of: the steps it takes for one declaration, rule, method or class, where
`start` is the registry with which the stage begins. Whatever all of these steps keep is kept by the
stage, and two sources of tables that no step can tell apart lead to the same outcome of the stage.
So a property of registries is followed through the stages by what the steps do to it.

* `Stage.StepsAlike`: the steps of a stage, compared over two sources of tables.
* `TableSource.explore_alike`: the steps in which a class gains interfaces.
* `forall₂_documentRules`, `documentPromotions_induction`: the steps in which interfaces and methods
  are documented.
* **`Stage.run_alike`**: a stage runs alike if its steps do.
* `Stage.run_preserves`: it keeps what its steps keep.
-/

namespace FluentGrammar

variable {tables : TableSource} {settings : Settings} {units : List CompilationUnit}
  {P : Registry → Prop} {start r r' : Registry}

/-- All steps of a stage that begins with `start` run over the source as they do over the tables of
the registry, and keep `P`. -/
def Stage.StepsAlike (tables : TableSource) (settings : Settings) (units : List CompilationUnit)
    (P : Registry → Prop) (start : Registry) : Stage → Prop
  | .loadInterfaces =>
    ∀ d ∈ units.flatMap CompilationUnit.interfaces, Preserves P (loadInterface settings d)
  | .loadClasses =>
    ∀ d ∈ units.flatMap CompilationUnit.classes, Preserves P (Resolution.addDefinition d)
  | .productionRules =>
    ∀ unit ∈ units, Preserves P (addUtilityImports unit.imports) ∧ ∀ rule ∈ unit.rules,
      Alike P (tables.handleRule settings rule) (handleRule settings rule) (fun _ => P)
  | .explicitMethods =>
    ∀ unit ∈ units, Preserves P (addUtilityImports unit.imports) ∧
      ∀ m ∈ unit.methods, m.isStatic = true → Preserves P (Resolution.addExplicit m)
  | .conversionClosure =>
    ∀ d ∈ start.classes, d.name ≠ start.utility → ∀ via target, ∀ c ∈ start.conversions,
      Alike P (tables.gainInterface d.name start.utility via target c)
        (gainInterface d.name start.utility via target c) (fun _ => P)
  | .interfaceEnhancement =>
    ∀ m ∈ start.explicitMethods.filter start.isUnambiguous, Preserves P (promoteMethod m)
  | .implementMethods =>
    ∀ sorted, start.sortedClasses = .ok sorted →
      ∀ name ∈ (sorted.map Definition.name).filter (· ≠ start.utility) ++
        start.anonymous.map Definition.name,
      Alike P (tables.implementClass name) (implementClass name) (fun _ => P)
  | .ambiguityResolution =>
    ∀ name ∈ (start.classes.map Definition.name).filter (· ≠ start.utility),
      ∀ group ∈ start.ambiguousGroups.entries,
      Alike P (tables.selectFor name group) (selectFor name group) (fun _ => P)
  | .finalize => Alike P (tables.finish settings) (finish settings) (fun _ => P)

/-! ## Explorations -/

section Exploration

variable {name utility : String} {via : TypeExpr} {conversions : List Conversion} {f : Frontier}

namespace TableSource

theorem applyConversions_alike {cs : List Conversion}
    (h : ∀ target, ∀ c ∈ cs, Alike P (tables.gainInterface name utility via target c)
      (FluentGrammar.gainInterface name utility via target c) (fun _ => P)) :
    Alike P (tables.applyConversions name utility via f cs)
      (FluentGrammar.applyConversions name utility via f cs) (fun _ => P) := by
  induction cs generalizing f with
  | nil => exact Alike.pure fun _ hr => hr
  | cons c cs ih =>
    refine Alike.bind (R := fun _ => P) ?_ fun gained =>
      Alike.bind (ih fun target e he => h target e (List.mem_cons_of_mem c he)) fun g =>
        Alike.pure fun _ hr => hr
    refine Alike.bind (.inspect fun _ _ => rfl) fun target => ?_
    cases target with
    | none => exact Alike.pure fun _ hr => hr.1
    | some target => exact (h target c List.mem_cons_self).imp (fun _ hr => hr.1) fun _ _ => id

theorem explore_alike
    (h : ∀ via target, ∀ c ∈ conversions, Alike P (tables.gainInterface name utility via target c)
      (FluentGrammar.gainInterface name utility via target c) (fun _ => P)) :
    Alike P (tables.explore name utility conversions f)
      (FluentGrammar.explore name utility conversions f) (fun _ => P) := by
  induction hsize : f.size using Nat.strongRecOn generalizing f with
  | _ size ih =>
    obtain ⟨queue, unseen⟩ := f
    rw [FluentGrammar.explore, TableSource.explore, TableSource.explore]
    cases queue with
    | nil => exact Alike.pure fun _ hr => hr
    | cons via queue =>
      refine (applyConversions_alike (h via)).bind fun g => ih g.1.size ?_ rfl
      rw [g.2, ← hsize]
      simp [Frontier.size]

end TableSource

end Exploration

/-! ## Documentation -/

theorem forall₂_documentRules {R : Definition → Definition → Prop}
    (h : ∀ (d : Definition) (comment : String), R d { d with comment := comment }) :
    List.Forall₂ R r.definitions (documentRules r).definitions := by
  rw [documentRules, List.forall₂_map_right_iff, List.forall₂_same]
  intro d _
  split
  · exact h d _
  · exact h d d.comment

theorem documentPromotions_induction (P : Registry → Prop)
    (step : ∀ s signature, P s → P (documentPromotion s signature)) (h : P r) :
    P (documentPromotions r) := by
  unfold documentPromotions
  generalize r.explicitMethods.map Method.signature = signatures
  induction signatures generalizing r with
  | nil => exact h
  | cons signature signatures ih => exact ih (step r signature h)

/-! ## Stages -/

/-- **A stage runs alike over two sources of tables** if each of its steps does, and it keeps what
they keep. -/
theorem Stage.run_alike {stage : Stage} (h : stage.StepsAlike tables settings units P start) :
    Alike (fun r => P r ∧ r = start) (tables.run settings units stage)
      (stage.run settings units) (fun _ => P) := by
  cases stage with
  | loadInterfaces => exact (Alike.forM h).imp (fun _ hr => hr.1) fun _ _ => id
  | loadClasses =>
    refine Alike.bind ((Alike.forM fun d hd => .located (h d hd)).imp (fun _ hr => hr.1)
      fun _ _ => id) fun _ => Alike.bind .get fun s => ?_
    refine Alike.imp (.forM fun d _ => ?_) (fun _ hr => hr.1) fun _ _ => id
    exact .located (.imp (.inspect fun _ _ => rfl) (fun _ => id) fun _ _ hr => hr.1)
  | productionRules =>
    refine Alike.imp (.forM fun unit hunit => .forM fun rule hrule => ?_) (fun _ hr => hr.1)
      fun _ _ => id
    exact (h unit hunit).1.bind fun _ => (h unit hunit).2 rule hrule
  | explicitMethods =>
    refine Alike.imp (.forM fun unit hunit => .forM fun m hm => ?_) (fun _ hr => hr.1) fun _ _ => id
    unfold handleExplicit
    by_cases hstatic : m.isStatic = true
    · simp only [hstatic, Bool.not_true, Bool.false_eq_true, if_false]
      exact (h unit hunit).1.bind fun _ => .located ((h unit hunit).2 m hm hstatic)
    · simp only [hstatic, Bool.not_false, if_true]
      exact .refl fun _ _ _ _ hthrow => by cases hthrow
  | conversionClosure =>
    refine Alike.get_bind (.forM fun d hd => ?_)
    by_cases hutility : d.name = start.utility
    · rw [if_pos hutility, if_pos hutility]
      exact Alike.pure fun _ hr => hr
    · rw [if_neg hutility, if_neg hutility]
      refine Alike.located (Alike.bind (.inspect fun _ _ => rfl) fun e => ?_)
      refine Alike.bind (.inspect fun _ _ => rfl) fun ancestors => Alike.bind .get fun s => ?_
      exact (TableSource.explore_alike (h d hd hutility)).imp (fun _ hr => hr.1.1.1) fun _ _ => id
  | interfaceEnhancement =>
    exact Alike.get_bind (.forM fun m hm => .located (h m hm))
  | implementMethods =>
    refine Alike.get_bind (Alike.bind (.unlocated .check) fun sorted => ?_)
    refine Alike.of_fact (fun r hr => hr.2) fun hsorted => ?_
    exact Alike.imp (.forM (h sorted hsorted)) (fun _ hr => hr.1) fun _ _ => id
  | ambiguityResolution =>
    exact Alike.get_bind (.forM fun name hname => .forM (h name hname))
  | finalize => exact Alike.imp h (fun _ hr => hr.1) fun _ _ => id

theorem Stage.run_preserves {stage : Stage} {u : Unit}
    (h : stage.StepsAlike Registry.allMethods settings units P r) (hr : P r)
    (hrun : stage.run settings units r = .ok u r') : P r' :=
  (Stage.run_alike h r ⟨hr, rfl⟩).2 u r' hrun

end FluentGrammar
