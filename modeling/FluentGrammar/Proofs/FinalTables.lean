import FluentGrammar.Proofs.Completion

/-!
# Tables of a finished registry

Every abstract method that a class inherits is settled in the end: the tables of a finished registry
have no open methods. Two conditions are needed. If a class names another class as an interface, it
is not known that this one is handled first; and if a type has the name that a type parameter gets
to avoid a collision, a member with another type parameter does not stand for the same signature.

* `exists_of_runStages`: what the last three stages work on.
* `completes_of_runStages`: a finished registry completes one in which all classes are settled.
* **`runStages_settled`**: nothing stays open in a finished registry.
* `runStages_leaves_open`: neither condition can be left out.
-/

namespace FluentGrammar

/-! ## All stages -/

section Resolution

variable {settings : Settings} {trees : List Tree} {units : List CompilationUnit} {r : Registry}

theorem runStages_eq_ok_iff {stages : List Stage} :
    runStages settings units stages = .ok r ↔ ∃ u,
      stages.forM (Stage.run settings units) (Registry.empty settings.utilityClass) = .ok u r := by
  unfold runStages
  cases stages.forM (Stage.run settings units) (Registry.empty settings.utilityClass) <;> simp

theorem exists_of_runStages (hu : readUnits settings trees = .ok units)
    (hi : ExtendsInterfaces units) (h : runStages settings units Stage.standard = .ok r) :
    ∃ q s t u₁ u₂ u₃, q.Sound ∧ q.Grounded ∧ implementMethods q = .ok u₁ s ∧
      selectMethods s = .ok u₂ t ∧ finish settings t = .ok u₃ r ∧ q.Evolves s ∧ s.Evolves t ∧
      t.Evolves r := by
  have hp := proper_readUnits hu
  have hd := declaredMethods_of_proper hp
  obtain ⟨_, hrun⟩ := runStages_eq_ok_iff.mp h
  rw [show Stage.standard = [.loadInterfaces, .loadClasses] ++ ([.productionRules, .explicitMethods,
    .conversionClosure, .interfaceEnhancement] ++ [.implementMethods, .ambiguityResolution,
    .finalize]) from rfl] at hrun
  obtain ⟨r₂, hload, hrest⟩ := Resolution.forM_append_eq_ok_iff.mp hrun
  obtain ⟨q, hmiddle, hlast⟩ := Resolution.forM_append_eq_ok_iff.mp hrest
  obtain ⟨r₁, h₁, hload₁⟩ := Resolution.forM_cons_eq_ok_iff.mp hload
  obtain ⟨_, h₂, hload₂⟩ := Resolution.forM_cons_eq_ok_iff.mp hload₁
  obtain rfl := Resolution.forM_nil_eq_ok_iff.mp hload₂
  obtain ⟨s, h₇, hlast₇⟩ := Resolution.forM_cons_eq_ok_iff.mp hlast
  obtain ⟨t, h₈, hlast₈⟩ := Resolution.forM_cons_eq_ok_iff.mp hlast₇
  obtain ⟨_, h₉, hlast₉⟩ := Resolution.forM_cons_eq_ok_iff.mp hlast₈
  obtain rfl := Resolution.forM_nil_eq_ok_iff.mp hlast₉
  obtain ⟨hs₂, hg₂⟩ := grounded_of_load hp hi h₁ h₂
  have he := Stage.forM_run_evolves hd (by decide) (by decide) hs₂ hmiddle
  have hs := hs₂.evolves he
  have he₇ := Stage.run_evolves hd (by decide) (by decide) hs h₇
  have he₈ := Stage.run_evolves hd (by decide) (by decide) (hs.evolves he₇) h₈
  have he₉ := Stage.run_evolves hd (by decide) (by decide) ((hs.evolves he₇).evolves he₈) h₉
  exact ⟨q, s, t, _, _, _, hs, hg₂.evolves hs₂ he, h₇, h₈, h₉, he₇, he₈, he₉⟩

theorem completes_of_runStages (hu : readUnits settings trees = .ok units)
    (hi : ExtendsInterfaces units) (h : runStages settings units Stage.standard = .ok r)
    (himplements : r.ImplementsInterfaces) (hhygienic : r.Hygienic) :
    (∃ s, Registry.Completes r.Numbered s r) ∧
      ∀ d ∈ r.classes, d.name ≠ r.utility → ∃ t, r.allMethods d = .ok t := by
  obtain ⟨q, s, t, _, _, _, hq, hgq, h₇, h₈, h₉, he₇, he₈, he₉⟩ := exists_of_runStages hu hi h
  have hs := hq.evolves he₇
  have ht := hs.evolves he₈
  have hr := ht.evolves he₉
  have hgs := hgq.evolves hq he₇
  have hgr := (hgs.evolves hs he₈).evolves ht he₉
  obtain ⟨hlast, htables⟩ := finish_gains ht h₉
  rw [he₈.utility] at hlast
  have hgains := (selectMethods_gains hs h₈).trans (fun _ _ _ => .trans) hlast
  have hframe : Registry.SameFrame s r := hgains.imp fun _ _ hd => hd.frame
  have hearly := himplements.of_sameFrame hr hq ((implementMethods_sameFrame h₇).trans hframe).symm
  have hsettled := implementMethods_settled hq hgq hearly h₇
  have hutility : r.utility = s.utility := he₉.utility.trans he₈.utility
  have htame := hhygienic.tameRegistry hr hgr himplements
  exact ⟨⟨s, hhygienic.freshNames, htame.of_gains hs hgs hutility hgains, htame, hutility, hgains,
    hsettled⟩, htables⟩

end Resolution

/-! ## Grammars -/

namespace Tree

/-- A node with children. -/
def node (kind : String) (children : List Tree) : Tree :=
  ⟨kind, none, none, .synthetic, children⟩

/-- A node with a value. -/
def leaf (kind value : String) : Tree :=
  ⟨kind, some value, none, .synthetic, []⟩

/-- A type with simple arguments. -/
def typeNode (name : String) (args : List String) : Tree :=
  node "Type"
    (leaf "Name" name :: args.map fun arg => node "Argument" [node "Type" [leaf "Name" arg]])

/-- Name and type parameters. -/
def nameNodes (name : String) (typeParams : List String) : List Tree :=
  leaf "Name" name :: typeParams.map fun param => node "TypeParameter" [leaf "Name" param]

/-- A method that returns nothing, given by its modifiers, name, type parameters and parameters. It
has a body if there are modifiers. -/
def methodNode (words : List String) (name : String) (typeParams : List String)
    (params : List (String × String)) : Tree :=
  node "Method" (words.map (leaf "Modifier") ++ nameNodes name typeParams ++
    node "Result" [typeNode "void" []] ::
      (params.map fun (type, name) => node "Parameter" [typeNode type [], leaf "Name" name]) ++
    if words.isEmpty then [] else [⟨"Body", none, some "{ }", .synthetic, []⟩])

/-- An interface with its members. -/
def interfaceNode (name : String) (typeParams : List String) (members : List Tree) : Tree :=
  node "Interface" (nameNodes name typeParams ++ members)

/-- A class, given by its modifiers, name, type parameters, superclass, interfaces and members. -/
def classNode (words : List String) (name : String) (typeParams : List String)
    (superclass : Option (String × List String)) (interfaces : List (String × List String))
    (members : List Tree) : Tree :=
  node "Class" (words.map (leaf "Modifier") ++ nameNodes name typeParams ++
    (superclass.toList.map fun (name, args) => node "Extends" [typeNode name args]) ++
    (interfaces.map fun (name, args) => node "Implements" [typeNode name args]) ++ members)

/-- A rule without a name that makes a `target` of a `source`. -/
def conversionNode (target source : String) : Tree :=
  node "Rule" [node "Target" [typeNode target []],
    node "Symbol" [typeNode source [], leaf "Name" "x"]]

/-- The class `D` implements the class `P<String>`, which is handled after it. -/
def implementedClass : Tree :=
  node "Unit"
    [interfaceNode "I" ["T"] [methodNode [] "f" [] [("T", "x")]],
     classNode [] "D" [] none [("P", ["String"])] [],
     classNode [] "Q" [] none [] [methodNode ["public"] "f" [] [("String", "x")]],
     classNode ["abstract"] "P" ["T"] (some ("Q", [])) [("I", ["T"])] []]

/-- From `Q` the class `S` inherits a method `foo` on `type`, in whose place `C` gets a member late.
The subclass `X` has a type parameter of the same name as that method, and it implements an
interface with a method `foo` on all types. -/
def lateMember (type : String) (words : List String) : Tree :=
  node "Unit"
    [interfaceNode "A" [] [], interfaceNode "B" [] [],
     interfaceNode "J" [] [methodNode [] "foo" ["W"] [("W", "x")]],
     interfaceNode "K" [] [leaf "Archetype" "Sql"],
     classNode [] "Q" ["V"] none [] [methodNode ["public"] "foo" ["T"] [("V", "x")]],
     classNode [] "C" ["V"] (some ("Q", ["V"])) [("A", [])] [],
     classNode [] "S" [] (some ("C", [type])) [] [],
     classNode words "X" ["T"] (some ("S", [])) [("J", [])] [],
     methodNode ["public", "static"] "foo" ["U"] [("A", "a"), (type, "x")],
     methodNode ["public", "static"] "foo" ["U"] [("B", "b"), (type, "x")],
     node "Rule" [node "Target" [typeNode "K" []], leaf "Symbol" "k"]]

end Tree

/-- One archetype with one method. -/
def sqlSettings : Settings :=
  ⟨"Forms", "symgen$", "Test", [⟨"Sql", [⟨"print", .named "void", [], none⟩]⟩]⟩

/-- Resolution of the trees gives a registry with the property `p`. -/
def resolvesTo (trees : List Tree) (p : Registry → Bool) : Bool :=
  (readUnits sqlSettings trees).toOption.any fun units => ExtendsInterfaces units &&
    (runStages sqlSettings units Stage.standard).toOption.any p

theorem exists_of_resolvesTo {trees : List Tree} {p : Registry → Bool}
    (h : resolvesTo trees p = true) : ∃ units r, readUnits sqlSettings trees = .ok units ∧
      ExtendsInterfaces units ∧ runStages sqlSettings units Stage.standard = .ok r ∧ p r = true := by
  obtain ⟨units, hu, h⟩ := Except.exists_of_any h
  obtain ⟨hi, h⟩ := Bool.and_eq_true_iff.mp h
  obtain ⟨r, hr, hp⟩ := Except.exists_of_any h
  exact ⟨units, r, hu, of_decide_eq_true hi, hr, hp⟩

/-- The units of a tree, and what they are resolved to by `k` and by `l` stages, have the property
`p`. -/
def passesTo (k l : Nat) (tree : Tree)
    (p : List CompilationUnit → Registry → Registry → Bool) : Bool :=
  (readUnits sqlSettings [tree]).toOption.any fun units =>
    (runStages sqlSettings units (Stage.standard.take k)).toOption.any fun r =>
      (runStages sqlSettings units (Stage.standard.take l)).toOption.any (p units r)

theorem exists_of_passesTo {k l : Nat} {tree : Tree}
    {p : List CompilationUnit → Registry → Registry → Bool} (h : passesTo k l tree p = true) :
    ∃ units r r', readUnits sqlSettings [tree] = .ok units ∧
      runStages sqlSettings units (Stage.standard.take k) = .ok r ∧
      runStages sqlSettings units (Stage.standard.take l) = .ok r' ∧ p units r r' = true := by
  obtain ⟨units, hu, h⟩ := Except.exists_of_any h
  obtain ⟨r, hr, h⟩ := Except.exists_of_any h
  obtain ⟨r', hr', hp⟩ := Except.exists_of_any h
  exact ⟨units, r, r', hu, hr, hr', hp⟩

/-- The table of the class of a name, which is not the utility class, has an open method. -/
def Registry.leavesOpen (r : Registry) (name : String) : Bool :=
  r.classes.any fun d => d.name = name && d.name ≠ r.utility &&
    (r.allMethods d).toOption.any fun t => t.values.any Method.isOpen

theorem Registry.exists_of_leavesOpen {r : Registry} {name : String} (h : r.leavesOpen name = true) :
    ∃ d t, d ∈ r.classes ∧ d.name = name ∧ d.name ≠ r.utility ∧ r.allMethods d = .ok t ∧
      ∃ m ∈ t.values, m.isOpen = true := by
  obtain ⟨d, hd, h⟩ := List.any_eq_true.mp h
  simp only [Bool.and_eq_true, decide_eq_true_eq] at h
  obtain ⟨⟨hname, hutility⟩, htable⟩ := h
  obtain ⟨t, ht, hopen⟩ := Except.exists_of_any htable
  exact ⟨d, t, hd, hname, hutility, ht, List.any_eq_true.mp hopen⟩

/-! ## Open methods -/

/-- **Nothing stays open.** In a finished registry the table of every class but the utility class
can be made and has no open method, and neither has that of an anonymous class. -/
theorem runStages_settled {settings : Settings} {trees : List Tree} {units : List CompilationUnit}
    {r : Registry} (hu : readUnits settings trees = .ok units)
    (hi : ExtendsInterfaces units) (h : runStages settings units Stage.standard = .ok r)
    (himplements : r.ImplementsInterfaces) (hhygienic : r.Hygienic) :
    (∀ d ∈ r.classes, d.name ≠ r.utility →
      ∃ t, r.allMethods d = .ok t ∧ ∀ m ∈ t.values, m.isOpen = false) ∧
    ∀ d ∈ r.anonymous, ∀ t, r.allMethods d = .ok t → ∀ m ∈ t.values, m.isOpen = false := by
  obtain ⟨⟨s, hc⟩, htables⟩ := completes_of_runStages hu hi h himplements hhygienic
  have hsound := hc.after.sound
  refine ⟨fun d hd hn => ?_, fun d hd t ht m hm => ?_⟩
  · obtain ⟨t, ht⟩ := htables d hd hn
    exact ⟨t, ht, fun m hm => (hc.completed hd ht).settled.isOpen_eq_false
      (hsound.wellFormed_of_mem_classes hd) ht hm⟩
  · exact (hc.settled_anonymous hd).isOpen_eq_false
      (hsound.wellFormed d (List.mem_append_right _ hd)) ht hm

/-- A member takes the place of an inherited method, and the class `X` stays settled. -/
theorem runStages_settled_late_member :
    ∃ units r, readUnits sqlSettings [.lateMember "Row" ["abstract"]] = .ok units ∧
      ExtendsInterfaces units ∧ runStages sqlSettings units Stage.standard = .ok r ∧
      r.ImplementsInterfaces ∧ r.Hygienic ∧
      r.classes.map Definition.name = ["Forms", "Q", "C", "S", "X"] ∧ r.anonymous.length = 1 ∧
      (∀ d ∈ r.classes, d.name ≠ r.utility →
        ∃ t, r.allMethods d = .ok t ∧ ∀ m ∈ t.values, m.isOpen = false) ∧
      ∀ d ∈ r.anonymous, ∀ t, r.allMethods d = .ok t → ∀ m ∈ t.values, m.isOpen = false := by
  have hrun : resolvesTo [.lateMember "Row" ["abstract"]] (fun r => r.ImplementsInterfaces ∧
      r.Hygienic ∧ r.classes.map Definition.name = ["Forms", "Q", "C", "S", "X"] ∧
      r.anonymous.length = 1) = true := by
    decide +kernel
  obtain ⟨units, r, hu, hi, h, hp⟩ := exists_of_resolvesTo hrun
  obtain ⟨himplements, hhygienic, hclasses, hanonymous⟩ := of_decide_eq_true hp
  exact ⟨units, r, hu, hi, h, himplements, hhygienic, hclasses, hanonymous,
    runStages_settled hu hi h himplements hhygienic⟩

/-- **Neither condition can be left out.** A class that implements a class which is handled later
has an open method, and so has one where a type is named like a type parameter with a number. -/
theorem runStages_leaves_open :
    (∃ units r d t, readUnits sqlSettings [.implementedClass] = .ok units ∧
      ExtendsInterfaces units ∧ runStages sqlSettings units Stage.standard = .ok r ∧
      r.Hygienic ∧ d ∈ r.classes ∧ d.name = "D" ∧ d.name ≠ r.utility ∧ r.allMethods d = .ok t ∧
      ∃ m ∈ t.values, m.isOpen = true) ∧
    ∃ units r d t, readUnits sqlSettings [.lateMember "T1" []] = .ok units ∧
      ExtendsInterfaces units ∧ runStages sqlSettings units Stage.standard = .ok r ∧
      r.ImplementsInterfaces ∧ d ∈ r.classes ∧ d.name = "X" ∧ d.name ≠ r.utility ∧
      r.allMethods d = .ok t ∧ ∃ m ∈ t.values, m.isOpen = true := by
  have hclass : resolvesTo [.implementedClass]
      (fun r => r.Hygienic && r.leavesOpen "D") = true := by
    decide +kernel
  have hnumber : resolvesTo [.lateMember "T1" []]
      (fun r => r.ImplementsInterfaces && r.leavesOpen "X") = true := by
    decide +kernel
  obtain ⟨units, r, hu, hi, h, hp⟩ := exists_of_resolvesTo hclass
  obtain ⟨hhygienic, hopen⟩ := Bool.and_eq_true_iff.mp hp
  obtain ⟨d, t, hd⟩ := Registry.exists_of_leavesOpen hopen
  obtain ⟨units', r', hu', hi', h', hp'⟩ := exists_of_resolvesTo hnumber
  obtain ⟨himplements, hopen'⟩ := Bool.and_eq_true_iff.mp hp'
  obtain ⟨d', t', hd'⟩ := Registry.exists_of_leavesOpen hopen'
  exact ⟨⟨units, r, d, t, hu, hi, h, of_decide_eq_true hhygienic, hd⟩,
    units', r', d', t', hu', hi', h', of_decide_eq_true himplements, hd'⟩

end FluentGrammar
