import FluentGrammar.Proofs.ArchetypeMethods
import FluentGrammar.Proofs.TypeText

/-!
# Settings of valid configurations

The archetypes of a valid configuration are fit for use. Whether a result is void is decided twice,
on the trimmed text when the configuration is checked and on the type that is read when bodies are
written; but a text that is void for the check is read as the void type. So an entry with any other
result has a function to compose it. The methods that an archetype gives an interface have
signatures of their own: they differ from each other in their verbs, and no declared method begins
like them.

That a body returns something cannot be told from the entry alone. A result that names a type
parameter becomes void where the parameter does, and the body is then one for a void method.

* `TypeExpr.ofText_of_trim`: a word between blanks is read as a type of this name.
* `Archetype.Complete`, `Archetype.complete_of_validate`: what the check of a configuration makes
  sure of.
* `ArchetypeMethod.verb_eq_of_signature`: the signature of an archetype method tells its verb.
* `Definition.exists_withArchetypeMethods`: an interface takes all methods of its archetype.
* `not_duplicateMethod_of_loadInterface`: what cannot go wrong when an interface is loaded.
* **`archetypes_of_valid_config`**: the archetypes of a valid configuration are sufficient.
-/

namespace FluentGrammar

/-! ## Words between blanks -/

theorem Text.exists_blanks_of_trimChars (cs : List Char) :
    ∃ front back, cs = front ++ (trimChars cs ++ back) ∧ (∀ c ∈ front, isBlank c = true) ∧
      ∀ c ∈ back, isBlank c = true := by
  refine ⟨cs.takeWhile isBlank, ((trimStartChars cs).reverse.takeWhile isBlank).reverse, ?_,
    fun c hc => List.mem_takeWhile_imp hc,
    fun c hc => List.mem_takeWhile_imp (List.mem_reverse.mp hc)⟩
  have hback : trimChars cs ++ ((trimStartChars cs).reverse.takeWhile isBlank).reverse =
      trimStartChars cs := by
    rw [trimChars, trimEndChars, ← List.reverse_append, List.takeWhile_append_dropWhile,
      List.reverse_reverse]
  rw [hback]
  exact List.takeWhile_append_dropWhile.symm

theorem Splits.append_blanks {front cs : List Char} {ms : List Lexeme} (h : Splits cs ms)
    (hfront : ∀ c ∈ front, Text.isBlank c = true) : Splits (front ++ cs) ms := by
  induction front with
  | nil => exact h
  | cons c front ih =>
    obtain ⟨hc, hfront⟩ := List.forall_mem_cons.mp hfront
    exact .blank hc (ih hfront)

theorem TypeExpr.ofText_of_trim {text name : String} (hname : isWord name = true)
    (h : Text.trim text = name) : TypeExpr.ofText text = .ok (.named name) := by
  obtain ⟨front, back, htext, hfront, hback⟩ := Text.exists_blanks_of_trimChars text.toList
  have htrim : Text.trimChars text.toList = name.toList := by
    rw [← h, Text.trim, String.toList_ofList]
  have hsplits : Splits text.toList [.word name] := by
    have hstops : Stops back := fun c hc =>
      isWordPart_eq_false_of_isBlank (hback c (List.mem_of_mem_head? hc))
    have hnil : Splits back [] := by
      simpa using Splits.append_blanks .nil hback
    rw [htext, htrim]
    exact (hnil.append_word hstops hname).append_blanks hfront
  rw [ofText_eq_ok_iff, splits_iff.mp hsplits]
  exact .simple name 0

/-! ## Valid configurations -/

/-- No two methods have the same verb, and methods that return something can compose it. -/
structure Archetype.Complete (a : Archetype) : Prop where
  verbs : (a.methods.map ArchetypeMethod.verb).Nodup
  composed : ∀ m ∈ a.methods, m.result.isVoid = false → m.compose.isSome = true

theorem ArchetypeMethod.ofEntry_spec {m : ArchetypeMethodEntry} {method : ArchetypeMethod}
    (h : ArchetypeMethod.ofEntry m = .ok method) : method.verb = m.verb ∧
      method.compose = m.compose ∧ TypeExpr.ofText m.result = .ok method.result := by
  obtain ⟨result, hresult, h⟩ := Except.bind_eq_ok_iff.mp h
  obtain ⟨_, _, h⟩ := Except.bind_eq_ok_iff.mp h
  obtain rfl := Except.pure_eq_ok_iff.mp h
  exact ⟨rfl, rfl, hresult⟩

theorem ArchetypeMethod.isVoid_of_ofEntry {m : ArchetypeMethodEntry} {method : ArchetypeMethod}
    (h : ArchetypeMethod.ofEntry m = .ok method) (hvoid : m.isVoid = true) :
    method.result.isVoid = true := by
  have hread := TypeExpr.ofText_of_trim (by decide +kernel) (of_decide_eq_true hvoid)
  rw [← Except.ok.inj (hread.symm.trans (ofEntry_spec h).2.2)]
  rfl

namespace Config

variable {kind : String} {verbs kinds : List String}

theorem spec_of_checkMethods {ms : List ArchetypeMethodEntry}
    (h : checkMethods kind verbs ms = none) : (ms.map ArchetypeMethodEntry.verb).Nodup ∧
      ∀ m ∈ ms, m.verb ∉ verbs ∧ (m.isVoid = false → m.compose.isSome = true) := by
  induction ms generalizing verbs with
  | nil => simp
  | cons m ms ih =>
    rw [checkMethods] at h
    split at h
    · cases h
    split at h
    · cases h
    rename_i hnew hcompose
    obtain ⟨hnodup, hall⟩ := ih h
    refine ⟨List.nodup_cons.mpr ⟨fun hm => ?_, hnodup⟩,
      List.forall_mem_cons.mpr ⟨⟨hnew, fun hvoid => ?_⟩, fun n hn => ⟨fun hv => ?_, ?_⟩⟩⟩
    · obtain ⟨n, hn, hverb⟩ := List.mem_map.mp hm
      exact (hall n hn).1 (hverb ▸ List.mem_cons_self)
    · exact Option.isSome_iff_ne_none.mpr (by simpa [hvoid] using hcompose)
    · exact (hall n hn).1 (List.mem_cons_of_mem _ hv)
    · exact (hall n hn).2

theorem checkMethods_of_checkArchetypes {as : List ArchetypeEntry}
    (h : checkArchetypes kinds as = none) : ∀ a ∈ as, checkMethods a.kind [] a.methods = none := by
  induction as generalizing kinds with
  | nil => simp
  | cons a as ih =>
    rw [checkArchetypes] at h
    split at h
    · cases h
    obtain ⟨hmethods, hrest⟩ := Option.or_eq_none_iff.mp h
    exact List.forall_mem_cons.mpr ⟨hmethods, ih hrest⟩

theorem checkArchetypes_of_validate {c : Config} (h : c.validate = .ok c) :
    checkArchetypes [] c.archetypes = none := by
  unfold validate at h
  split at h
  · cases h
  rename_i hnone
  unfold problem? at hnone
  split at hnone
  · cases hnone
  split at hnone
  · cases hnone
  exact hnone

end Config

theorem Archetype.complete_of_ofEntry {entry : ArchetypeEntry} {a : Archetype}
    (hcheck : Config.checkMethods entry.kind [] entry.methods = none)
    (h : Archetype.ofEntry entry = .ok a) : a.Complete := by
  obtain ⟨methods, hmethods, h⟩ := Except.bind_eq_ok_iff.mp h
  obtain rfl := Except.pure_eq_ok_iff.mp h
  have hread := Except.mapM_eq_ok_iff.mp hmethods
  obtain ⟨hnodup, hall⟩ := Config.spec_of_checkMethods hcheck
  refine ⟨?_, fun method hmethod hresult => ?_⟩
  · have hverbs : entry.methods.map ArchetypeMethodEntry.verb =
        methods.map ArchetypeMethod.verb := by
      rw [← List.forall₂_eq_eq_eq, List.forall₂_map_left_iff, List.forall₂_map_right_iff]
      exact hread.imp fun _ _ h => (ArchetypeMethod.ofEntry_spec h).1.symm
    exact hverbs ▸ hnodup
  · obtain ⟨m, hm, h⟩ := exists_left_of_forall₂ hread method hmethod
    have hvoid : m.isVoid = false := by
      by_contra hvoid
      rw [ArchetypeMethod.isVoid_of_ofEntry h (by simpa using hvoid)] at hresult
      cases hresult
    rw [(ArchetypeMethod.ofEntry_spec h).2.1]
    exact (hall m hm).2 hvoid

/-- **The archetypes of valid configurations are complete.** -/
theorem Archetype.complete_of_validate {c : Config} {settings : Settings}
    (hc : c.validate = .ok c) (hs : Settings.ofConfig c = .ok settings) {a : Archetype}
    (ha : a ∈ settings.archetypes) : a.Complete := by
  obtain ⟨archetypes, harchetypes, hs⟩ := Except.bind_eq_ok_iff.mp hs
  obtain rfl := Except.pure_eq_ok_iff.mp hs
  obtain ⟨entry, hentry, hread⟩ :=
    exists_left_of_forall₂ (Except.mapM_eq_ok_iff.mp harchetypes) a ha
  have hchecks := Config.checkMethods_of_checkArchetypes (Config.checkArchetypes_of_validate hc)
  exact complete_of_ofEntry (hchecks entry hentry) hread

/-! ## Bodies -/

theorem archetypeBody_of_compose {settings : Settings} {method : ArchetypeMethod} {compose : String}
    (r : Registry) (rule : ProductionRule) (kind : String) {stub : Method}
    (h : method.compose = some compose) (hstub : stub.isVoid = false) :
    ∃ items : List String, archetypeBody r settings rule kind method stub =
      "return " ++ compose ++ "(" ++ Text.joinWith ", " items ++ ");" := by
  unfold archetypeBody
  rw [hstub, h]
  exact ⟨_, rfl⟩

/-! ## Signatures -/

section Signatures

variable {settings : Settings} {d : Definition} {m n : ArchetypeMethod} {owner : Owner}

theorem Text.takeWhile_ne_paren (front rest : List Char) :
    (front ++ '(' :: rest).takeWhile (· ≠ '(') = front.takeWhile (· ≠ '(') := by
  induction front with
  | nil => rfl
  | cons c front ih =>
    rw [List.cons_append, List.takeWhile_cons, List.takeWhile_cons, ih]

theorem Text.takeWhile_ne_paren_append {front : List Char} (h : '(' ∉ front) (rest : List Char) :
    (front ++ rest).takeWhile (· ≠ '(') = front ++ rest.takeWhile (· ≠ '(') := by
  rw [List.takeWhile_append_of_pos]
  intro c hc
  exact decide_eq_true fun he => h (he ▸ hc)

/-- A signature tells the name as far as there is no opening parenthesis. -/
theorem Method.takeWhile_signature (m : Method) :
    m.signature.toList.takeWhile (· ≠ '(') = m.name.toList.takeWhile (· ≠ '(') := by
  simp only [signature, signatureOf, String.toList_append, List.append_assoc]
  exact Text.takeWhile_ne_paren _ _

theorem ArchetypeMethod.verb_eq_of_signature (hp : '(' ∉ settings.reservedPrefix.toList)
    (hm : '(' ∉ m.verb.toList) (hn : '(' ∉ n.verb.toList)
    (h : (m.declare settings owner).signature = (n.declare settings owner).signature) :
    m.verb = n.verb := by
  have hname : ∀ {k : ArchetypeMethod}, '(' ∉ k.verb.toList →
      (k.declare settings owner).signature.toList.takeWhile (· ≠ '(') =
        settings.reservedPrefix.toList ++
          (k.verb.toList ++ ('$' :: owner.name.toList).takeWhile (· ≠ '(')) := by
    intro k hk
    rw [Method.takeWhile_signature, ← Text.takeWhile_ne_paren_append hk,
      ← Text.takeWhile_ne_paren_append hp]
    simp [declare, Method.make, Settings.archetypeMethodName]
  have hsame := hname hm
  rw [h, hname hn] at hsame
  exact (String.toList_inj.mp (List.append_cancel_right (List.append_cancel_left hsame))).symm

theorem Settings.isReserved_of_signature (hp : '(' ∉ settings.reservedPrefix.toList) {k l : Method}
    (h : k.signature = l.signature) (hk : settings.isReserved k.name = true) :
    settings.isReserved l.name = true := by
  rw [isReserved, Text.beginsWith, List.isPrefixOf_iff_prefix] at hk ⊢
  have hfront : settings.reservedPrefix.toList <+: k.name.toList.takeWhile (· ≠ '(') := by
    obtain ⟨rest, hrest⟩ := hk
    rw [← hrest, Text.takeWhile_ne_paren_append hp]
    exact List.prefix_append _ _
  rw [← Method.takeWhile_signature, h, Method.takeWhile_signature] at hfront
  exact hfront.trans (List.takeWhile_prefix _)

/-- **An interface takes all methods of its archetype.** No signature is there already. -/
theorem Definition.exists_withArchetypeMethods {kind : String} {archetype : Archetype}
    (hd : ∀ e ∈ d.methods.entries, e.1 = e.2.signature) (hc : checkReserved settings d = .ok ())
    (hkind : d.archetype? = some kind) (ha : settings.archetype? kind = some archetype)
    (hverbs : (archetype.methods.map ArchetypeMethod.verb).Nodup)
    (hp : '(' ∉ settings.reservedPrefix.toList)
    (hparens : ∀ m ∈ archetype.methods, '(' ∉ m.verb.toList) :
    ∃ d', withArchetypeMethods settings d = .ok d' := by
  have hnodup : ((archetype.methods.map (·.declare settings d.owner)).map fun m =>
      (m.reown d.owner).signature).Nodup := by
    simp only [List.map_map, Function.comp_def, ArchetypeMethod.reown_declare]
    rw [List.Nodup, List.pairwise_map] at hverbs ⊢
    refine hverbs.imp_of_mem fun hm hn hne hsame => hne ?_
    exact ArchetypeMethod.verb_eq_of_signature hp (hparens _ hm) (hparens _ hn) hsame
  have hnew : ∀ m ∈ archetype.methods.map (·.declare settings d.owner),
      (m.reown d.owner).signature ∉ d.methods.keys := by
    intro m hm hkey
    obtain ⟨method, hmethod, rfl⟩ := List.mem_map.mp hm
    rw [ArchetypeMethod.reown_declare] at hkey
    obtain ⟨e, he, hsame⟩ := List.mem_map.mp hkey
    have hreserved : settings.isReserved e.2.name = true :=
      Settings.isReserved_of_signature hp (hsame.symm.trans (hd e he))
        (Settings.isReserved_archetypeMethodName method.verb d.name)
    rw [isReserved_eq_false_of_checkReserved hc (List.mem_map_of_mem he)] at hreserved
    cases hreserved
  obtain ⟨d', hd'⟩ := exists_addMethods hnodup hnew
  refine ⟨d', ?_⟩
  simp only [withArchetypeMethods, hkind, ha]
  exact Except.mapError_eq_ok_iff.mpr hd'

end Signatures

/-! ## Loading -/

section Loading

variable {settings : Settings} {d : Definition} {r r' : Registry} {fault : Fault}

theorem Fault.modelFault?_located (location : Location) (fault : ModelFault) :
    ((Fault.model fault).located location).modelFault? = some fault := by
  rw [located]
  split <;> rfl

/-- Loading an interface finds no repeated signature if the interface takes the methods of its
archetype. -/
theorem not_duplicateMethod_of_loadInterface
    (hd : checkReserved settings d = .ok () → ∀ kind archetype, d.archetype? = some kind →
      settings.archetype? kind = some archetype → ∃ d', withArchetypeMethods settings d = .ok d')
    (h : loadInterface settings d r = .error fault r') (owner signature : String) :
    fault.modelFault? ≠ some (.duplicateMethod owner signature) := by
  unfold loadInterface at h
  rcases Resolution.bind_eq_error_iff.mp h with h | ⟨_, _, hc, h⟩
  · obtain ⟨h, -⟩ := Resolution.check_eq_error_iff.mp h
    unfold checkReserved at h
    split at h
    · obtain rfl := Except.error.inj h
      simp [Fault.modelFault?]
    · cases h
  obtain ⟨hc, -⟩ := Resolution.check_eq_ok_iff.mp hc
  rcases Resolution.bind_eq_error_iff.mp h with h | ⟨d', _, -, h⟩
  · obtain ⟨h, -⟩ := Resolution.check_eq_error_iff.mp h
    -- Only an unknown archetype is left.
    cases hkind : d.archetype? with
    | none => simp [withArchetypeMethods, hkind] at h
    | some kind =>
      cases harchetype : settings.archetype? kind with
      | none =>
        simp only [withArchetypeMethods, hkind, harchetype, Except.error.injEq] at h
        simp [← h, Fault.modelFault?]
      | some archetype =>
        obtain ⟨d', hd'⟩ := hd hc kind archetype hkind harchetype
        cases hd'.symm.trans h
  · obtain ⟨modelFault, hadd, rfl⟩ := Resolution.located_eq_error_iff.mp h
    rw [Fault.modelFault?_located]
    rw [Resolution.addDefinition_run] at hadd
    split_ifs at hadd
    · cases hadd
      simp
    · cases hadd
      simp
    · split at hadd <;> cases hadd
      simp

end Loading

/-! ## Sufficiency -/

/-- **The archetypes of a valid configuration are sufficient.** An entry whose result is not void has
a function to compose it; the body for a method that returns something then returns what is
composed. If there is no opening parenthesis in the reserved beginning and in the verbs, an
interface that declares no reserved name takes all methods of its archetype, and interfaces that are
read from trees are loaded without a fault about a repeated signature. -/
theorem archetypes_of_valid_config {c : Config} {settings : Settings} (hc : c.validate = .ok c)
    (hs : Settings.ofConfig c = .ok settings) :
    (∀ a ∈ settings.archetypes, ∀ method ∈ a.methods, method.result.isVoid = false →
      ∃ compose, method.compose = some compose ∧
        ∀ r rule kind, ∀ stub : Method, stub.isVoid = false →
          ∃ items : List String, archetypeBody r settings rule kind method stub =
            "return " ++ compose ++ "(" ++ Text.joinWith ", " items ++ ");") ∧
      ('(' ∉ settings.reservedPrefix.toList →
        (∀ a ∈ settings.archetypes, ∀ method ∈ a.methods, '(' ∉ method.verb.toList) →
        (∀ d : Definition, (∀ e ∈ d.methods.entries, e.1 = e.2.signature) →
          checkReserved settings d = .ok () →
          ∀ kind archetype, d.archetype? = some kind → settings.archetype? kind = some archetype →
            ∃ d', withArchetypeMethods settings d = .ok d' ∧ d'.methods.values =
              d.methods.values ++ archetype.methods.map (·.declare settings d.owner)) ∧
        ∀ trees units, readUnits settings trees = .ok units →
          ∀ r fault r', loadInterfaces settings units r = .error fault r' →
            ∀ owner signature, fault.modelFault? ≠ some (.duplicateMethod owner signature)) := by
  refine ⟨fun a ha method hmethod hresult => ?_, fun hp hparens => ?_⟩
  · have hcomposed := (Archetype.complete_of_validate hc hs ha).composed method hmethod hresult
    obtain ⟨compose, hcompose⟩ := Option.isSome_iff_exists.mp hcomposed
    exact ⟨compose, hcompose, fun r rule kind _ => archetypeBody_of_compose r rule kind hcompose⟩
  have htakes : ∀ d : Definition, (∀ e ∈ d.methods.entries, e.1 = e.2.signature) →
      checkReserved settings d = .ok () → ∀ kind archetype, d.archetype? = some kind →
        settings.archetype? kind = some archetype →
        ∃ d', withArchetypeMethods settings d = .ok d' := by
    intro d hd hreserved kind archetype hkind ha
    have hmem := List.mem_of_find?_eq_some ha
    exact Definition.exists_withArchetypeMethods hd hreserved hkind ha
      (Archetype.complete_of_validate hc hs hmem).verbs hp (hparens _ hmem)
  refine ⟨fun d hd hreserved kind archetype hkind ha => ?_, fun trees units hu r fault r' h => ?_⟩
  · obtain ⟨d', hd'⟩ := htakes d hd hreserved kind archetype hkind ha
    refine ⟨d', hd', ?_⟩
    rw [(values_of_withArchetypeMethods hd').2, Settings.given, hkind, Option.bind_some, ha]
    rfl
  · obtain ⟨d, hd, s, hfault⟩ := Resolution.exists_of_forM_eq_error h
    have hwell := (proper_of_mem_interfaces (proper_readUnits hu) hd).2.1
    exact not_duplicateMethod_of_loadInterface (htakes d fun e he => (hwell e he).1) hfault

/-! ## Results that are type parameters -/

/-- An archetype with a method that returns nothing and one whose result is a type parameter. -/
def boxedValues : Config where
  generator := { utilityClass := "Forms", reservedPrefix := "symgen$" }
  logging := {}
  archetypes := [⟨"Sql", [{ verb := "print", result := "\tvoid " },
    { verb := "value", result := "T", compose := some "Terms.join" }]⟩]

/-- The method of `boxedValues` whose result is a type parameter. -/
def boxedValue : ArchetypeMethod :=
  ⟨"value", .named "T", [], some "Terms.join"⟩

/-- The settings of `boxedValues`. -/
def boxedSettings : Settings :=
  ⟨"Forms", "symgen$", "Test", [⟨"Sql", [⟨"print", .named "void", [], none⟩, boxedValue]⟩]⟩

/-- The interface `Box<T>`, which declares a method `print`. -/
def boxInterface : Definition :=
  ({ Definition.interface "Box" with typeParams := .ofNames ["T"] }.withArchetype "Sql").withMethod
    (.make ⟨"Box", .interface, ["T"]⟩ "print" .void [])

/-- The interface `Box<T>` takes both methods, and bodies for values return something. -/
theorem archetypes_of_boxedValues :
    boxedValues.validate = .ok boxedValues ∧ Settings.ofConfig boxedValues = .ok boxedSettings ∧
      (∀ r rule kind, ∀ stub : Method, stub.isVoid = false →
        ∃ items : List String, archetypeBody r boxedSettings rule kind boxedValue stub =
          "return " ++ "Terms.join" ++ "(" ++ Text.joinWith ", " items ++ ");") ∧
      ∃ d', withArchetypeMethods boxedSettings boxInterface = .ok d' ∧
        d'.methods.values.map Method.name = ["print", "symgen$print$Box", "symgen$value$Box"] := by
  have hc : boxedValues.validate = .ok boxedValues := by decide +kernel
  have hs : Settings.ofConfig boxedValues = .ok boxedSettings := by decide +kernel
  obtain ⟨hbodies, htakes⟩ := archetypes_of_valid_config hc hs
  refine ⟨hc, hs, ?_, ?_⟩
  · obtain ⟨compose, hcompose, hbody⟩ := hbodies _ (List.mem_singleton.mpr rfl) boxedValue
      (List.mem_cons_of_mem _ (List.mem_singleton.mpr rfl)) rfl
    obtain rfl := Option.some.inj hcompose
    exact hbody
  · obtain ⟨d', hd', hvalues⟩ := (htakes (by decide) (by decide)).1 boxInterface (by decide +kernel)
      (by decide +kernel) "Sql" _ rfl rfl
    refine ⟨d', hd', ?_⟩
    rw [hvalues]
    decide +kernel

/-- A rule for boxes of nothing. -/
def Tree.emptyBox : Tree :=
  node "Unit"
    [interfaceNode "Box" ["T"] [leaf "Archetype" "Sql"],
     node "Rule" [node "Target" [typeNode "Box" ["void"]], leaf "Symbol" "EMPTY",
       leaf "Name" "empty"]]

/-- **A result that is not void can become void.** The configuration is valid, and the result of the
entry is not void; but the target of the rule makes it so, and the body returns nothing. -/
theorem archetypeBody_without_return :
    boxedValues.validate = .ok boxedValues ∧ Settings.ofConfig boxedValues = .ok boxedSettings ∧
      ∃ units r, readUnits boxedSettings [.emptyBox] = .ok units ∧
        runStages boxedSettings units (Stage.standard.take 3) = .ok r ∧
        ∃ a ∈ r.anonymous, ∃ n ∈ a.methods.values,
          archetypeMethodOf? r boxedSettings n = some boxedValue ∧
          boxedValue.result.isVoid = false ∧ n.body = some "" := by
  have hrun : ((readUnits boxedSettings [.emptyBox]).toOption.any fun units =>
      (runStages boxedSettings units (Stage.standard.take 3)).toOption.any fun r =>
        ∃ a ∈ r.anonymous, ∃ n ∈ a.methods.values,
          archetypeMethodOf? r boxedSettings n = some boxedValue ∧
          boxedValue.result.isVoid = false ∧ n.body = some "") = true := by
    decide +kernel
  obtain ⟨units, hu, hrun⟩ := Except.exists_of_any hrun
  obtain ⟨r, hr, hbody⟩ := Except.exists_of_any hrun
  exact ⟨by decide +kernel, by decide +kernel, units, r, hu, hr, of_decide_eq_true hbody⟩

end FluentGrammar
