import FluentGrammar.Proofs.FinalTables

/-!
# Stored methods after every stage

A method comes into a definition in seven ways: it is read, it belongs to an archetype, it makes a
rule, a conversion or an explicit method, or it settles what a class inherits. Whatever the way, it
is stored under its signature and belongs to the definition, and what was computed about it from the
kind of its owner has not gone stale. This holds wherever the stages are stopped.

* `sound_of_runStages`: the registry is sound after every prefix of the stages.
* **`runStages_stored`**: what holds of every stored method, test interfaces included.
-/

namespace FluentGrammar

variable {settings : Settings} {units : List CompilationUnit} {r : Registry}

theorem Definition.WellFormed.nodup_signatures {d : Definition} (h : d.WellFormed) :
    (d.methods.values.map Method.signature).Nodup := by
  have hkeys : d.methods.values.map Method.signature = d.methods.keys := by
    rw [Table.values, Table.keys, List.map_map]
    exact List.map_congr_left fun e he => (h e he).1.symm
  rw [hkeys]
  exact d.methods.nodup

/-- **The registry is sound after every prefix of the stages.** -/
theorem sound_of_runStages (hp : ∀ unit ∈ units, ∀ d ∈ unit.declarations, d.Proper)
    {stages : List Stage} (hstages : stages <+: Stage.standard)
    (h : runStages settings units stages = .ok r) : r.Sound := by
  obtain ⟨_, hrun⟩ := runStages_eq_ok_iff.mp h
  -- The two loading stages need a registry without anonymous classes; all others only need a sound
  -- one.
  cases stages with
  | nil =>
    obtain rfl := Resolution.forM_nil_eq_ok_iff.mp hrun
    exact sound_empty _
  | cons first stages =>
    obtain ⟨rfl, hrest⟩ := List.cons_prefix_cons.mp hstages
    obtain ⟨r₁, hfirst, hrun₁⟩ := Resolution.forM_cons_eq_ok_iff.mp hrun
    obtain ⟨loaded, _, hr₁, hs₁⟩ := loadInterfaces_spec
      (fun d hd => (proper_of_mem_interfaces hp hd).2.1) (sound_empty _) rfl hfirst
    cases stages with
    | nil =>
      obtain rfl := Resolution.forM_nil_eq_ok_iff.mp hrun₁
      exact hs₁
    | cons second stages =>
      obtain ⟨rfl, hlater⟩ := List.cons_prefix_cons.mp hrest
      obtain ⟨r₂, hsecond, hrun₂⟩ := Resolution.forM_cons_eq_ok_iff.mp hrun₁
      have hs₂ := (loadClasses_spec hp hs₁ (by rw [hr₁]; rfl) hsecond).2.1
      refine hs₂.evolves (Stage.forM_run_evolves (declaredMethods_of_proper hp) (fun hm => ?_)
        (fun hm => ?_) hs₂ hrun₂)
      · exact absurd (hlater.subset hm) (by decide)
      · exact absurd (hlater.subset hm) (by decide)

/-- **Stored methods are up to date after every stage.** Units are read from trees, and some of the
first stages succeed. Then every definition is well-formed, among them anonymous classes and test
interfaces: each method stands under its signature, belongs to the definition, is public and abstract
as the kind of the definition has it, and is settled: nothing is stored as a placeholder, what was
implemented has a body and is not abstract, and what was declared abstract is abstract and has no
body. So no two methods of a definition have the same signature. -/
theorem runStages_stored (hu : ∀ unit ∈ units, ∃ utility tree, Tree.unitOf utility tree = .ok unit)
    {stages : List Stage} (hstages : stages <+: Stage.standard)
    (h : runStages settings units stages = .ok r) :
    ∀ d ∈ r.definitions ++ r.anonymous ++ r.tests,
      d.WellFormed ∧ (d.methods.values.map Method.signature).Nodup := by
  have hp : ∀ unit ∈ units, ∀ d ∈ unit.declarations, d.Proper := by
    intro unit hunit
    obtain ⟨utility, tree, htree⟩ := hu unit hunit
    exact Tree.proper_unitOf htree
  have hs := sound_of_runStages hp hstages h
  intro d hd
  have hwf : d.WellFormed := by
    rcases List.mem_append.mp hd with hd | hd
    · exact hs.wellFormed d hd
    · exact hs.tests d hd
  exact ⟨hwf, hwf.nodup_signatures⟩

/-- At the end of all stages there are an anonymous class with an implemented method, a class with a
method that was declared abstract, and five test interfaces. -/
theorem runStages_stored_late_member :
    ∃ units r, readUnits sqlSettings [.lateMember "Row" ["abstract"]] = .ok units ∧
      runStages sqlSettings units Stage.standard = .ok r ∧
      (∃ d ∈ r.anonymous, ∃ m ∈ d.methods.values, m.state = .implemented) ∧
      (∃ d ∈ r.definitions, ∃ m ∈ d.methods.values, m.state = .declaredAbstract) ∧
      r.tests.map Definition.name = ["QTest", "CTest", "STest", "XTest", "FormsTest"] ∧
      ∀ d ∈ r.definitions ++ r.anonymous ++ r.tests,
        d.WellFormed ∧ (d.methods.values.map Method.signature).Nodup := by
  have hrun : resolvesTo [.lateMember "Row" ["abstract"]] (fun r =>
      (∃ d ∈ r.anonymous, ∃ m ∈ d.methods.values, m.state = .implemented) ∧
      (∃ d ∈ r.definitions, ∃ m ∈ d.methods.values, m.state = .declaredAbstract) ∧
      r.tests.map Definition.name = ["QTest", "CTest", "STest", "XTest", "FormsTest"]) = true := by
    decide +kernel
  obtain ⟨units, r, hu, _, h, hp⟩ := exists_of_resolvesTo hrun
  obtain ⟨himplemented, habstract, htests⟩ := of_decide_eq_true hp
  refine ⟨units, r, hu, h, himplemented, habstract, htests,
    runStages_stored (fun unit hunit => ?_) (List.prefix_refl _) h⟩
  obtain ⟨tree, _, htree⟩ := Except.exists_of_mem_mapM hu unit hunit
  exact ⟨_, tree, htree⟩

end FluentGrammar
