import FluentGrammar.Proofs.EmittedNames
import FluentGrammar.Proofs.TypeTokens

/-!
# Names of tests

The tests of a class are named after its methods. Where several methods have one name, the second
and later tests get their numbers. The numbers are counted for every name on its own, so a numbered
name can be that of another method: `f` twice and `f_2` give two tests `test_f_2`. This is the only
way in which two tests get one name. Where it does not happen there is one test for each method, and
where it does there is no test interface.

* `occurrences`, `numberRepeats_eq`: every name with the number of its occurrence.
* `Clashing`, `nodup_numberRepeats_iff`: when names with numbers are different.
* `HasTests`, `testInterface?_of_not_clashing`, `testInterface?_of_clashing`: test interfaces.
* **`tests_unique_iff`**: the tests of classes and of the utility class.
-/

namespace FluentGrammar

/-! ## Occurrences -/

/-- A name with an underscore and a number. -/
def underscored (base : String) (n : Nat) : String :=
  base ++ "_" ++ toString n

/-- The name of a test with the number of its occurrence. -/
def testName (base : String) (n : Nat) : String :=
  if n = 1 then base else underscored base n

/-- Texts are the same up to the first occurrence of a character and after it. -/
theorem append_cons_inj_of_not_mem {x : Char} {a a' b b' : List Char} (ha : x ∉ a) (ha' : x ∉ a')
    (h : a ++ x :: b = a' ++ x :: b') : a = a' ∧ b = b' := by
  have hstop : ∀ a b : List Char, x ∉ a → (a ++ x :: b).takeWhile (· ≠ x) = a ∧
      (a ++ x :: b).dropWhile (· ≠ x) = x :: b := fun a b ha =>
    takeWhile_append_of_stop (fun c hc => decide_eq_true fun he => ha (he ▸ hc)) (by simp)
  obtain ⟨htake, hdrop⟩ := hstop a b ha
  obtain ⟨htake', hdrop'⟩ := hstop a' b' ha'
  rw [h] at htake hdrop
  exact ⟨htake.symm.trans htake', List.tail_eq_of_cons_eq (hdrop.symm.trans hdrop')⟩

/-- The number after the last underscore can be read off. -/
theorem underscored_inj {base base' : String} {n n' : Nat} :
    underscored base n = underscored base' n' ↔ base = base' ∧ n = n' := by
  refine ⟨fun h => ?_, fun h => by rw [h.1, h.2]⟩
  have hlist : (Nat.toDigits 10 n).reverse ++ '_' :: base.toList.reverse =
      (Nat.toDigits 10 n').reverse ++ '_' :: base'.toList.reverse := by
    simpa [underscored, Nat.toString_eq_repr, Nat.toList_repr] using
      congrArg (fun s : String => s.toList.reverse) h
  have hdigits : ∀ k, '_' ∉ (Nat.toDigits 10 k).reverse := by
    intro k
    rw [List.mem_reverse]
    exact Nat.underscore_not_in_toDigits
  obtain ⟨hn, hbase⟩ := append_cons_inj_of_not_mem (hdigits n) (hdigits n') hlist
  refine ⟨String.toList_inj.mp (List.reverse_injective hbase), ?_⟩
  rw [← Nat.ofDigitChars_ten_toDigits (n := n), List.reverse_injective hn,
    Nat.ofDigitChars_ten_toDigits]

/-- Every name with the number of its occurrence. The names in `seen` have occurred before. -/
def occurrences (seen : List String) : List String → List (String × Nat)
  | [] => []
  | name :: names => (name, seen.count name + 1) :: occurrences (name :: seen) names

theorem numberRepeats_eq (seen names : List String) :
    numberRepeats seen names = (occurrences seen names).map fun e => testName e.1 e.2 := by
  induction names generalizing seen with
  | nil => rfl
  | cons name names ih => simp [numberRepeats, occurrences, ih, testName, underscored]

theorem mem_occurrences {seen names : List String} {name : String} {n : Nat} :
    (name, n) ∈ occurrences seen names ↔
      seen.count name < n ∧ n ≤ seen.count name + names.count name := by
  induction names generalizing seen with
  | nil => simp [occurrences]
  | cons other names ih =>
    rw [occurrences, List.mem_cons, ih, Prod.mk.injEq]
    by_cases he : name = other
    · subst he
      simp only [List.count_cons_self, true_and]
      omega
    · simp [List.count_cons_of_ne (Ne.symm he), he]

theorem nodup_occurrences (seen names : List String) : (occurrences seen names).Nodup := by
  induction names generalizing seen with
  | nil => exact List.nodup_nil
  | cons name names ih =>
    refine List.nodup_cons.mpr ⟨fun hmem => ?_, ih (name :: seen)⟩
    have := (mem_occurrences.mp hmem).1
    simp at this

/-! ## Names that clash -/

/-- A name that occurs several times is, with one of its numbers, another one of the names. -/
def Clashing (names : List String) : Prop :=
  ∃ name n, 2 ≤ n ∧ n ≤ names.count name ∧ underscored name n ∈ names

instance : DecidablePred Clashing := fun names =>
  decidable_of_iff ((names.any fun name => (List.range (names.count name + 1)).any fun n =>
      decide (2 ≤ n ∧ underscored name n ∈ names)) = true) <| by
    simp only [List.any_eq_true, List.mem_range, decide_eq_true_eq, Nat.lt_succ_iff]
    constructor
    · rintro ⟨name, -, n, hle, htwo, hmem⟩
      exact ⟨name, n, htwo, hle, hmem⟩
    · rintro ⟨name, n, htwo, hle, hmem⟩
      exact ⟨name, List.one_le_count_iff.mp (by omega), n, hle, htwo, hmem⟩

theorem testName_eq_iff {name name' : String} {n n' : Nat} :
    testName name n = testName name' n' ↔ (name, n) = (name', n') ∨
      n = 1 ∧ n' ≠ 1 ∧ name = underscored name' n' ∨
      n ≠ 1 ∧ n' = 1 ∧ underscored name n = name' := by
  unfold testName
  by_cases hn : n = 1 <;> by_cases hn' : n' = 1 <;> simp [hn, hn', underscored_inj]
  omega

/-- **Names with numbers are different just if no name clashes.** -/
theorem nodup_numberRepeats_iff (names : List String) :
    (numberRepeats [] names).Nodup ↔ ¬ Clashing names := by
  have hmem : ∀ name n, (name, n) ∈ occurrences [] names ↔ 0 < n ∧ n ≤ names.count name := by
    intro name n
    simp [mem_occurrences]
  rw [numberRepeats_eq, List.nodup_map_iff_inj_on (nodup_occurrences [] names)]
  constructor
  · rintro hinj ⟨name, n, htwo, hle, hname⟩
    have hone : (underscored name n, 1) ∈ occurrences [] names :=
      (hmem _ _).mpr ⟨Nat.one_pos, List.one_le_count_iff.mpr hname⟩
    have hsame := hinj _ hone _ ((hmem name n).mpr ⟨by omega, hle⟩)
      (testName_eq_iff.mpr (.inr (.inl ⟨rfl, by omega, rfl⟩)))
    have := congrArg Prod.snd hsame
    omega
  · rintro hfree ⟨name, n⟩ he ⟨name', n'⟩ he' hsame
    obtain ⟨hpos, hle⟩ := (hmem _ _).mp he
    obtain ⟨hpos', hle'⟩ := (hmem _ _).mp he'
    rcases testName_eq_iff.mp hsame with heq | ⟨rfl, hn', rfl⟩ | ⟨hn, rfl, rfl⟩
    · exact heq
    · exact absurd ⟨name', n', by omega, hle', List.one_le_count_iff.mp hle⟩ hfree
    · exact absurd ⟨name, n, by omega, hle, List.one_le_count_iff.mp hle'⟩ hfree

theorem clashing_map_append (front : String) (names : List String) :
    Clashing (names.map (front ++ ·)) ↔ Clashing names := by
  have hinj : Function.Injective (front ++ ·) := fun a b h => (String.append_right_inj front).mp h
  have hfront : ∀ name n, underscored (front ++ name) n = front ++ underscored name n := by
    intro name n
    simp only [underscored, String.append_assoc]
  constructor
  · rintro ⟨name, n, htwo, hle, hmem⟩
    have hname : name ∈ names.map (front ++ ·) := List.one_le_count_iff.mp (by omega)
    obtain ⟨name, -, rfl⟩ := List.mem_map.mp hname
    rw [List.count_map_of_injective _ _ hinj] at hle
    rw [hfront, List.mem_map_of_injective hinj] at hmem
    exact ⟨name, n, htwo, hle, hmem⟩
  · rintro ⟨name, n, htwo, hle, hmem⟩
    refine ⟨front ++ name, n, htwo, ?_, ?_⟩
    · rwa [List.count_map_of_injective _ _ hinj]
    · rwa [hfront, List.mem_map_of_injective hinj]

/-- A name that stands with a position several times is, with this position, another one of the
names, and stands with one of the numbers as its position. -/
def ClashingPositions (pairs : List (String × Nat)) : Prop :=
  ∃ name position n, 2 ≤ n ∧ n ≤ pairs.count (name, position) ∧
    (underscored name position, n) ∈ pairs

theorem clashing_map_underscored (pairs : List (String × Nat)) :
    Clashing (pairs.map fun e => underscored e.1 e.2) ↔ ClashingPositions pairs := by
  have hinj : Function.Injective fun e : String × Nat => underscored e.1 e.2 := fun e e' h =>
    Prod.ext_iff.mpr (underscored_inj.mp h)
  constructor
  · rintro ⟨name, n, htwo, hle, hmem⟩
    have hname : name ∈ pairs.map fun e => underscored e.1 e.2 :=
      List.one_le_count_iff.mp (by omega)
    obtain ⟨e, -, rfl⟩ := List.mem_map.mp hname
    rw [List.count_map_of_injective _ _ hinj] at hle
    exact ⟨e.1, e.2, n, htwo, hle, (List.mem_map_of_injective hinj (a := (_, n))).mp hmem⟩
  · rintro ⟨name, position, n, htwo, hle, hmem⟩
    refine ⟨underscored name position, n, htwo, ?_, List.mem_map_of_mem hmem⟩
    rwa [List.count_map_of_injective _ (fun e : String × Nat => underscored e.1 e.2) hinj
      (name, position)]

instance : DecidablePred ClashingPositions := fun pairs =>
  decidable_of_iff _ (clashing_map_underscored pairs)

/-! ## Test interfaces -/

section Tests

variable {α : Type} {base comment : α → String} {xs : List α}

theorem reown_testMethod (owner : Owner) (name comment : String) :
    (testMethod owner name comment).reown owner = testMethod owner name comment := by
  simp [testMethod, Method.reown, Method.make]

theorem signature_testMethod (owner : Owner) (name comment : String) :
    (testMethod owner name comment).signature = name ++ "()" := by
  show name ++ "(" ++ "" ++ ")" = _
  rw [String.append_empty, String.append_assoc]
  rfl

/-- The tests for the members of a list, with names and comments given by the members. -/
def testList (owner : Owner) (base comment : α → String) (xs : List α) : List Method :=
  ((numberRepeats [] (xs.map base)).zip (xs.map comment)).map fun e => testMethod owner e.1 e.2

theorem length_numberRepeats (seen names : List String) :
    (numberRepeats seen names).length = names.length := by
  induction names generalizing seen with
  | nil => rfl
  | cons name names ih => simp [numberRepeats, ih]

theorem names_testList (owner : Owner) (base comment : α → String) (xs : List α) :
    (testList owner base comment xs).map Method.name = numberRepeats [] (xs.map base) := by
  rw [testList, List.map_map]
  exact List.map_fst_zip (by simp [length_numberRepeats])

theorem signatures_testList (owner : Owner) (base comment : α → String) (xs : List α) :
    (testList owner base comment xs).map Method.signature =
      (numberRepeats [] (xs.map base)).map (· ++ "()") := by
  rw [← names_testList owner base comment xs, testList, List.map_map, List.map_map, List.map_map]
  exact List.map_congr_left fun e _ => signature_testMethod owner e.1 e.2

theorem map_reown_testList (owner : Owner) (base comment : α → String) (xs : List α) :
    (testList owner base comment xs).map (·.reown owner) = testList owner base comment xs := by
  rw [testList, List.map_map]
  exact List.map_congr_left fun e _ => reown_testMethod owner e.1 e.2

theorem nodup_signatures_testList (owner : Owner) (base comment : α → String) (xs : List α) :
    ((testList owner base comment xs).map Method.signature).Nodup ↔ ¬ Clashing (xs.map base) := by
  rw [signatures_testList, ← nodup_numberRepeats_iff]
  exact List.nodup_map_iff fun a b h => (String.append_left_inj "()").mp h

theorem forall₂_tests (owner : Owner) (seen : List String) (xs : List α) :
    List.Forall₂ (fun x test => test.comment = comment x ∧
        ∃ n, 0 < n ∧ test.name = testName (base x) n) xs
      (((numberRepeats seen (xs.map base)).zip (xs.map comment)).map fun e =>
        testMethod owner e.1 e.2) := by
  induction xs generalizing seen with
  | nil => exact .nil
  | cons x xs ih =>
    refine .cons ⟨rfl, seen.count (base x) + 1, Nat.succ_pos _, ?_⟩ (ih (base x :: seen))
    simp [testMethod, Method.make, testName, underscored]

/-- The tests on an interface, if there is one. -/
def testsOf (o : Option Definition) : List Method :=
  (o.map fun d => d.methods.values).getD []

/-- There is one test for each member of a list, under its own name or with a number, and tests have
different names. Without anything to test there is no interface. -/
structure HasTests (base comment : α → String) (xs : List α) (o : Option Definition) : Prop where
  each : List.Forall₂ (fun x test => test.comment = comment x ∧
    ∃ n, 0 < n ∧ test.name = testName (base x) n) xs (testsOf o)
  nodup : ((testsOf o).map Method.name).Nodup
  isSome_iff : o.isSome = true ↔ xs ≠ []

/-- The interface that is to hold the tests. -/
def testOwner (name : String) : Definition :=
  { Definition.interface name with access := .publicAccess }

theorem testInterface?_eq (name : String) (hne : xs ≠ []) :
    testInterface? name (xs.map fun x => (base x, comment x)) =
      ((testOwner name).addMethods (testList (testOwner name).owner base comment xs)).map some := by
  unfold testInterface?
  rw [if_neg (by simpa using hne), List.map_map, List.map_map]
  rfl

/-- **Where no names clash there is one test for each member of the list.** -/
theorem testInterface?_of_not_clashing (name : String) (h : ¬ Clashing (xs.map base)) :
    ∃ o, testInterface? name (xs.map fun x => (base x, comment x)) = .ok o ∧
      HasTests base comment xs o := by
  by_cases hne : xs = []
  · subst hne
    exact ⟨none, rfl, .nil, List.nodup_nil, by simp⟩
  obtain ⟨d, hd⟩ : ∃ d, (testOwner name).addMethods
      (testList (testOwner name).owner base comment xs) = .ok d := by
    have hnodup := (nodup_signatures_testList (testOwner name).owner base comment xs).mpr h
    rw [← map_reown_testList, List.map_map] at hnodup
    exact Definition.exists_addMethods hnodup fun _ _ hkey => by cases hkey
  have hvalues : testsOf (some d) = testList (testOwner name).owner base comment xs := by
    show d.methods.entries.map Prod.snd = _
    rw [(Definition.addMethods_spec hd).2, map_reown_testList]
    show List.map Prod.snd ([] ++ _) = _
    rw [List.nil_append, List.map_map]
    exact List.map_id _
  refine ⟨some d, by rw [testInterface?_eq name hne, hd]; rfl, ?_, ?_, by simpa using hne⟩
  · rw [hvalues]
    exact forall₂_tests _ [] xs
  · rw [hvalues, names_testList]
    exact (nodup_numberRepeats_iff _).mpr h

theorem testInterface?_of_clashing (name : String) (h : Clashing (xs.map base)) :
    ∃ test, testInterface? name (xs.map fun x => (base x, comment x)) =
      .error (.duplicateMethod name (test ++ "()")) := by
  have hne : xs ≠ [] := by
    rintro rfl
    obtain ⟨_, _, _, _, hmem⟩ := h
    cases hmem
  rw [testInterface?_eq name hne]
  cases hadd : (testOwner name).addMethods (testList (testOwner name).owner base comment xs) with
  | ok d =>
    have hkeys := d.methods.nodup
    rw [(Definition.addMethods_spec hadd).2, map_reown_testList, List.map_append, List.map_map]
      at hkeys
    exact absurd h ((nodup_signatures_testList _ base comment xs).mp hkeys.of_append_right)
  | error e =>
    obtain ⟨m, hm, rfl⟩ := Definition.exists_of_addMethods_error hadd
    obtain ⟨t, -, rfl⟩ := List.mem_map.mp hm
    refine ⟨t.1, ?_⟩
    rw [reown_testMethod, signature_testMethod]
    rfl

end Tests

/-! ## Classes and the utility class -/

/-- The methods of a table that are tested: those that are public and have no reserved names. -/
def testedMethods (settings : Settings) (table : Table Method) : List Method :=
  table.values.filter fun m => m.isPublic && !settings.isReserved m.name

/-- A parameter of an explicit method is tested if it is of an interface type. The first one is
tested only if a member was made of the method. -/
def Registry.IsTestedParam (r : Registry) (m : Method) (p : Param) (position : Nat) : Prop :=
  (position = 0 → r.promotionsOf m.signature ≠ []) ∧
    ∃ d, r.get? p.callType.name = some d ∧ d.isInterface = true

instance (r : Registry) (m : Method) (p : Param) (position : Nat) :
    Decidable (r.IsTestedParam m p position) :=
  decidable_of_iff ((position = 0 → r.promotionsOf m.signature ≠ []) ∧
    (r.get? p.callType.name).any Definition.isInterface = true) <| by
      rw [Registry.IsTestedParam, Option.any_eq_true]

/-- The explicit methods with those of their parameters that are tested, and their positions. -/
def Registry.testedParams (r : Registry) : List (Method × Param × Nat) :=
  r.explicitMethods.flatMap fun m =>
    (m.params.zipIdx.filter fun e => r.IsTestedParam m e.1 e.2).map fun e => (m, e)

theorem explicitTests_eq (r : Registry) (m : Method) :
    explicitTests r m = (m.params.zipIdx.filter fun e => r.IsTestedParam m e.1 e.2).map fun e =>
      ("test_" ++ underscored m.name e.2,
        "@see " ++ r.utility ++ "#" ++ m.signature ++ " argument " ++ e.1.name) := by
  have hfilter : ∀ e : Param × Nat, ((e.2 ≠ 0 || !(r.promotionsOf m.signature).isEmpty) &&
      ((r.get? e.1.callType.name).map Definition.isInterface).getD false) =
        decide (r.IsTestedParam m e.1 e.2) := by
    intro e
    rw [Bool.eq_iff_iff, decide_eq_true_eq, Registry.IsTestedParam, Bool.and_eq_true]
    refine and_congr ?_ ?_
    · by_cases hzero : e.2 = 0 <;> simp [hzero]
    · cases r.get? e.1.callType.name <;> simp
  unfold explicitTests
  dsimp only
  rw [List.filter_congr fun e _ => hfilter e]
  refine List.map_congr_left fun e _ => ?_
  simp only [underscored, String.append_assoc]

theorem tests_utility_eq (r : Registry) :
    r.explicitMethods.flatMap (explicitTests r) = r.testedParams.map fun e =>
      ("test_" ++ underscored e.1.name e.2.2,
        "@see " ++ r.utility ++ "#" ++ e.1.signature ++ " argument " ++ e.2.1.name) := by
  rw [Registry.testedParams, List.map_flatMap]
  refine List.flatMap_congr fun m _ => ?_
  rw [explicitTests_eq, List.map_map]
  rfl

/-- **Tests are unique just if no names clash.** Names with numbers are different from one another
if no name, with one of its numbers, is another one of them. Then a class has one test for each of
its public methods whose names are not reserved, and the utility class has one for each tested
parameter of its explicit methods. Otherwise there is no test interface, since a method would be in
it twice. -/
theorem tests_unique_iff (r : Registry) (settings : Settings) :
    (∀ names : List String, (numberRepeats [] names).Nodup ↔ ¬ Clashing names) ∧
    (∀ (d : Definition) (table : Table Method), r.allMethods d = .ok table →
      (Clashing ((testedMethods settings table).map Method.name) → ∃ test,
        classTests r settings d =
          .error (.duplicateMethod (d.name ++ settings.testSuffix) (test ++ "()"))) ∧
      (¬ Clashing ((testedMethods settings table).map Method.name) → ∃ o,
        classTests r settings d = .ok o ∧
        HasTests (fun m => "test_" ++ m.name) (fun m => "@see " ++ d.name ++ "#" ++ m.signature)
          (testedMethods settings table) o)) ∧
    (ClashingPositions (r.testedParams.map fun e => (e.1.name, e.2.2)) → ∃ test,
      utilityTests r settings =
        .error (.duplicateMethod (r.utility ++ settings.testSuffix) (test ++ "()"))) ∧
    (¬ ClashingPositions (r.testedParams.map fun e => (e.1.name, e.2.2)) → ∃ o,
      utilityTests r settings = .ok o ∧
      HasTests (fun e => "test_" ++ underscored e.1.name e.2.2)
        (fun e => "@see " ++ r.utility ++ "#" ++ e.1.signature ++ " argument " ++ e.2.1.name)
        r.testedParams o) := by
  refine ⟨nodup_numberRepeats_iff, fun d table htable => ?_, ?_⟩
  · have htests : classTests r settings d = testInterface? (d.name ++ settings.testSuffix)
        ((testedMethods settings table).map fun m =>
          ("test_" ++ m.name, "@see " ++ d.name ++ "#" ++ m.signature)) := by
      rw [classTests, TableSource.classTests, htable]
      rfl
    rw [htests, ← clashing_map_append "test_", List.map_map]
    exact ⟨testInterface?_of_clashing _, testInterface?_of_not_clashing _⟩
  · have htests : utilityTests r settings = testInterface? (r.utility ++ settings.testSuffix)
        (r.testedParams.map fun e => ("test_" ++ underscored e.1.name e.2.2,
          "@see " ++ r.utility ++ "#" ++ e.1.signature ++ " argument " ++ e.2.1.name)) := by
      rw [utilityTests, tests_utility_eq]
    rw [htests, ← clashing_map_underscored, ← clashing_map_append "test_", List.map_map,
      List.map_map]
    exact ⟨testInterface?_of_clashing _, testInterface?_of_not_clashing _⟩

/-- A class with the methods `f()` and `f(int x)` and another one without parameters. -/
def overloadedClass (other : String) : Definition :=
  [("f", []), ("f", [{ type := .named "int", name := "x" }]), (other, [])].foldl
    (fun d m => d.withMethod ((Method.make d.owner m.1 .void m.2).withWords ["public"]))
    (Definition.namedClass "C")

/-- An explicit method with the given types of parameters. -/
def explicitMethod (name : String) (types : List String) : Method :=
  (Method.make (Definition.namedClass "Forms").owner name .void
    (types.map fun type => { type := .named type, name := "p" })).withWords ["public", "static"]

/-- The registry with the class and the explicit methods `f(int, I)`, `f(long, I)` and another one,
whose third parameter is of the interface type `I`. -/
def overloadModel (member explicit : String) : Registry :=
  (Registry.empty "Forms").after
    [.define (overloadedClass member), .define (Definition.interface "I"),
     .explicit (explicitMethod "f" ["int", "I"]), .explicit (explicitMethod "f" ["long", "I"]),
     .explicit (explicitMethod explicit ["int", "int", "I"])]

/-- Beside a method `g` the two methods `f` of each kind get tests of their own. -/
theorem tests_unique_overload :
    ∃ table tests utilTests,
      (overloadModel "g" "g").allMethods (overloadedClass "g") = .ok table ∧
      (testedMethods sqlSettings table).map Method.name = ["f", "f", "g"] ∧
      classTests (overloadModel "g" "g") sqlSettings (overloadedClass "g") = .ok tests ∧
      (testsOf tests).length = 3 ∧ ((testsOf tests).map Method.name).Nodup ∧
      utilityTests (overloadModel "g" "g") sqlSettings = .ok utilTests ∧
      (testsOf utilTests).length = 3 ∧ ((testsOf utilTests).map Method.name).Nodup := by
  obtain ⟨-, hclass, -, hutility⟩ := tests_unique_iff (overloadModel "g" "g") sqlSettings
  obtain ⟨table, htable, hany⟩ := Except.exists_of_any
    (p := fun table => (testedMethods sqlSettings table).map Method.name = ["f", "f", "g"])
    (show ((overloadModel "g" "g").allMethods (overloadedClass "g")).toOption.any _ = true by
      decide +kernel)
  have hnames := of_decide_eq_true hany
  have hparams : (overloadModel "g" "g").testedParams.map (fun e => (e.1.name, e.2.2)) =
      [("f", 1), ("f", 1), ("g", 2)] := by decide +kernel
  obtain ⟨tests, htests, hhas⟩ := (hclass _ table htable).2 (by
    rw [hnames]
    decide)
  obtain ⟨utilTests, hutil, hhas'⟩ := hutility (by
    rw [hparams]
    decide)
  refine ⟨table, tests, utilTests, htable, hnames, htests, ?_, hhas.nodup, hutil, ?_, hhas'.nodup⟩
  · rw [← hhas.each.length_eq]
    simpa using congrArg List.length hnames
  · rw [← hhas'.each.length_eq]
    simpa using congrArg List.length hparams

/-- **Tests can have the same name.** Beside two methods `f` the test of `f_2` is in the way, and
beside two tests of the parameter at position 1 of `f` the one at position 2 of `f_1` is. -/
theorem tests_not_unique :
    numberRepeats [] ["f", "f", "f_2"] = ["f", "f_2", "f_2"] ∧
    ((overloadModel "f_2" "f_1").allMethods (overloadedClass "f_2")).toOption.map
      (fun table => (testedMethods sqlSettings table).map Method.name) = some ["f", "f", "f_2"] ∧
    classTests (overloadModel "f_2" "f_1") sqlSettings (overloadedClass "f_2") =
      .error (.duplicateMethod "CTest" "test_f_2()") ∧
    (overloadModel "f_2" "f_1").testedParams.map (fun e => (e.1.name, e.2.2)) =
      [("f", 1), ("f", 1), ("f_1", 2)] ∧
    utilityTests (overloadModel "f_2" "f_1") sqlSettings =
      .error (.duplicateMethod "FormsTest" "test_f_1_2()") := by
  refine ⟨by decide, by decide +kernel, by decide +kernel, by decide +kernel, by decide +kernel⟩

end FluentGrammar
