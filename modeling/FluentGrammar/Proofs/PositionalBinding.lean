import FluentGrammar.Definition.Basic
import FluentGrammar.Proofs.StubTypes

/-!
# Binding by position

The parameters of a definition get their arguments in two ways. Ancestors are found by binding each
parameter to the argument at its position. Methods are inherited by inferring the bindings that turn
the definition's own type into the ancestor type; this captures every wildcard under a name of its
own, and looks it up again through that name. Both rewrite types alike, although the bindings are
not the same.

* `Substitution.realizes_of_bind`: what binding by position puts in the place of each name.
* `Substitution.Realizes.lookup_eq`: two substitutions that put the same give the same answers.
* **`bind_agrees_infer`**: the two ways agree.
-/

namespace FluentGrammar

section Realized

variable {s u : Substitution} {names : List String} {args : List TypeArg} {name : String}

theorem Substitution.realizes_of_bind {ps : TypeParams} {owner : String}
    (hps : ∀ name ∈ ps.names, isCapture name = false) (h : ps.bind owner args = .ok s) :
    s.Realizes ps.names (bound ps.names args) :=
  ⟨fun name _ => contains_of_bind h name, fun name _ => by rw [value_of_bind h hps]⟩

/-- The answer for a name says whether it has an entry and what is put in its place. -/
theorem Substitution.lookup_eq_ite (s : Substitution) (name : String) :
    s.lookup name = if s.contains name = true then some (s.value name) else none := by
  rw [value, contains, lookup]
  cases s.get? name <;> rfl

theorem Substitution.Realizes.lookup_eq {f : String → Option TypeArg} (hu : u.Realizes names f)
    (hs : s.Realizes names f) (hname : isCapture name = false) : u.lookup name = s.lookup name := by
  rw [lookup_eq_ite u, lookup_eq_ite s, hu.contains name hname, hs.contains name hname,
    hu.value name hname, hs.value name hname]

theorem bound_of_mem_zip {arg : TypeArg} (hn : names.Nodup) (hlen : args.length = names.length)
    (h : (name, arg) ∈ names.zip args) : bound names args name = some arg := by
  obtain ⟨arg', harg'⟩ := exists_bound hlen (List.of_mem_zip h).1
  have hkeys : ((names.zip args).map Prod.fst).Nodup := by
    rwa [List.map_fst_zip (Nat.le_of_eq hlen.symm)]
  have heq := List.inj_on_of_nodup_map hkeys h (mem_zip_of_bound harg') rfl
  rw [harg', (Prod.mk.inj heq).2]

end Realized

/-! ## The two ways -/

theorem infer_eq_ownerBindings {ps : TypeParams} {args : List TypeArg} (owner : String)
    (kind : Kind) (hargs : args ≠ []) :
    Method.ownerBindings ⟨owner, kind, ps.names⟩ (.generic owner args) =
      ps.infer (.generic owner ps.asArgs) (.generic owner args) := by
  have hself : (TypeParams.ofNames ps.names).asArgs = ps.asArgs := by
    simp [TypeParams.ofNames, TypeParams.names, TypeParams.asArgs]
  rw [Method.ownerBindings, if_neg (by simp [TypeExpr.generic, hargs]), TypeParams.infer,
    TypeParams.infer, TypeParams.names_ofNames, Owner.selfType, hself]

/-- **Binding by position agrees with inference.** Parameters of distinct names can be bound to as
many arguments by position, and bindings are inferred from the definition's own type and its type
with these arguments. Under both a parameter is looked up as the argument at its position, and
every type is replaced alike. So the types of ancestors and of inherited methods are rewritten
alike: the former are replaced under the bindings by position, the latter under those inferred. -/
theorem bind_agrees_infer (ps : TypeParams) (owner : String) (args : List TypeArg)
    (hn : ps.names.Nodup) (howner : owner ∉ ps.names) (hlen : args.length = ps.length)
    (hargs : args ≠ []) (hps : ∀ name ∈ ps.names, isCapture name = false)
    (hwritten : ∀ a ∈ args, a.Written) :
    ∃ s u, ps.bind owner args = .ok s ∧
      ps.infer (.generic owner ps.asArgs) (.generic owner args) = .ok u ∧
      (∀ name ∈ ps.names, u.lookup name = s.lookup name) ∧
      (∀ e ∈ ps.names.zip args, s.lookup e.1 = some (some e.2)) ∧
      (∀ t : TypeExpr, t.Written → t.replace u = t.replace s) ∧
      ∀ d : Definition, d.name = owner → d.typeParams = ps →
        Method.ownerBindings d.owner (.generic owner args) = .ok u := by
  have hlen' : args.length = ps.names.length := by rw [hlen, TypeParams.names, List.length_map]
  obtain ⟨s, hs⟩ := TypeParams.exists_bind owner hlen
  obtain ⟨u, hu⟩ : ∃ u, Method.ownerBindings ⟨owner, .interface, ps.names⟩ (.generic owner args) =
      .ok u := exists_ownerBindings hn hps howner rfl rfl hlen'
  have hrs := Substitution.realizes_of_bind hps hs
  have hru := (realizes_of_ownerBindings hps hwritten (fun _ => hargs) hu).2.2
  rw [infer_eq_ownerBindings owner .interface hargs] at hu
  refine ⟨s, u, hs, hu, fun name hname => hru.lookup_eq hrs (hps name hname), fun e he => ?_,
    fun t ht => t.replace_congr fun name hname => hru.lookup_eq hrs (ht name hname), ?_⟩
  · refine Option.join_eq_some_iff.mp ((hrs.value e.1 (hps e.1 (List.of_mem_zip he).1)).trans ?_)
    exact bound_of_mem_zip hn hlen' he
  · rintro d rfl rfl
    exact (infer_eq_ownerBindings d.name d.kind hargs).trans hu

/-- `Map<K, V>` with the arguments `? extends V` and `Map<K, V[]>`, which mention the parameters:
the wildcard is captured by inference and not by binding. -/
theorem bind_agrees_infer_own_names :
    let ps := TypeParams.ofNames ["K", "V"]
    let args : List TypeArg := [.upper (.named "V"),
      .plain (.generic "Map" [.plain (.named "K"), .plain ⟨"V", [], 1⟩])]
    let t := TypeExpr.generic "Pair" [.plain (.named "K"), .plain ⟨"V", [], 1⟩, .lower (.named "K")]
    ∃ s u, ps.bind "Map" args = .ok s ∧
      ps.infer (.generic "Map" ps.asArgs) (.generic "Map" args) = .ok u ∧
      u.get? "K" ≠ s.get? "K" ∧ u.lookup "K" = s.lookup "K" ∧
      s.lookup "K" = some (some (.upper (.named "V"))) ∧ t.replace u = t.replace s := by
  intro ps args t
  have hwritten : ∀ a ∈ args, a.Written := by
    have hnames : ∀ a ∈ args, ∀ name ∈ a.allNames, isCapture name = false := by decide
    exact fun a ha name hname => hnames a ha name ((TypeArg.mem_allNames name a).mpr hname)
  obtain ⟨s, u, hs, hu, hlookup, harg, hreplace, _⟩ := bind_agrees_infer ps "Map" args (by decide)
    (by decide) (by decide) (by decide) (by decide) hwritten
  have hcaptured : ps.infer (.generic "Map" ps.asArgs) (.generic "Map" args) =
      .ok ⟨[("K", some (.plain (.named "capture#1"))), ("V", some (.plain (.generic "Map"
        [.plain (.named "K"), .plain ⟨"V", [], 1⟩]))),
        ("capture#1", some (.upper (.named "V")))]⟩ := by
    decide +kernel
  have hbound : ps.bind "Map" args = .ok ⟨[("K", some (.upper (.named "V"))),
      ("V", some (.plain (.generic "Map" [.plain (.named "K"), .plain ⟨"V", [], 1⟩])))]⟩ := by
    decide +kernel
  have hne : u.get? "K" ≠ s.get? "K" := by
    rw [← Except.ok.inj (hcaptured.symm.trans hu), ← Except.ok.inj (hbound.symm.trans hs)]
    decide
  exact ⟨s, u, hs, hu, hne, hlookup "K" (by decide), harg ("K", .upper (.named "V")) (by decide),
    hreplace t (by decide)⟩

end FluentGrammar
