import Mathlib.Data.List.Chain
import FluentGrammar.Proofs.Ancestry
import FluentGrammar.Proofs.Foundation

/-!
# The search for ancestors

Ancestors are searched depth first along the names of parents. The names on the way stand on a
stack, which every successful search above a parent leaves as it found it. No name stands there
twice, so the search never goes deeper than there are names, whether or not the hierarchy is sound.
It fails exactly if the hierarchy is broken, and a cycle is reported as the way that leads into it.

* `Registry.searchWithin`, `Registry.ancestorsWithin`: the search on one stack that stops at a given
  depth.
* `Registry.collectWithin_eq`: the number of unvisited names is deep enough.
* `Registry.FoundedAbove`: all names above a definition are registered, and none leads back to
  itself.
* `Registry.foundedAbove_of_ancestors`, `Registry.exists_ancestorsVia`: success means that, and
  follows from it where parents fit their definitions.
* `Registry.cycle_of_ancestorsVia`: the reported way.
* **`Registry.ancestors_search`**: the search ends, and it fails exactly on broken hierarchies.
-/

namespace FluentGrammar

open Relation

namespace Registry

variable {r : Registry} {name context : String} {d : Definition} {trail : List String}
  {parents types : List TypeExpr}

/-! ## The search on one stack -/

/-- What is inherited through parents, and the stack afterwards. The name of each parent is put on
the stack, from which it is taken again after `recurse` has looked above the parent. -/
def collectWithin (r : Registry)
    (recurse : Definition → List String → Option (Except ModelFault (List TypeExpr × List String)))
    (context : String) (stack : List String) :
    List TypeExpr → Option (Except ModelFault (List TypeExpr × List String))
  | [] => some (.ok ([], stack))
  | parent :: rest =>
    match r.get? parent.name with
    | none => some (.error (.unknownType parent.name context))
    | some d =>
      if d.name ∈ stack then some (.error (.cycle (stack ++ [d.name])))
      else
        match recurse d (stack ++ [d.name]) with
        | none => none
        | some (.error fault) => some (.error fault)
        | some (.ok (inherited, stack)) =>
          match throughParent parent d inherited with
          | .error fault => some (.error fault)
          | .ok types =>
            match collectWithin r recurse context stack.dropLast rest with
            | none => none
            | some (.error fault) => some (.error fault)
            | some (.ok (others, stack)) => some (.ok (types ++ others.filter (· ∉ types), stack))

/-- What a definition inherits, and the stack afterwards; none if the search goes deeper than the
given depth. -/
def searchWithin (r : Registry) :
    Nat → Definition → List String → Option (Except ModelFault (List TypeExpr × List String))
  | 0, _, _ => none
  | depth + 1, d, stack => r.collectWithin (r.searchWithin depth) d.name stack d.supertypes

/-- The ancestors of a definition; none if the search goes deeper than the given depth. -/
def ancestorsWithin (r : Registry) (depth : Nat) (d : Definition) :
    Option (Except ModelFault (List TypeExpr)) :=
  (r.searchWithin depth d [d.name]).map fun answer => answer.map Prod.fst

/-- **The search does not go deeper than there are unvisited names**, and a successful one leaves
the stack as it was. -/
theorem collectWithin_eq {depth : Nat} (hdepth : r.unvisited trail ≤ depth) :
    r.collectWithin (r.searchWithin depth) context trail parents =
      some ((r.ancestorsVia context trail parents).map (·, trail)) := by
  fun_induction ancestorsVia r context trail parents generalizing depth with
  | case1 => rfl
  | case2 context trail parent rest hd => simp [collectWithin, hd, Except.map]
  | case3 context trail parent rest d hd hn => simp [collectWithin, hd, hn, Except.map]
  | case4 context trail parent rest d hd hn above beside =>
    have hlt := unvisited_lt (name_of_get? hd ▸ mem_names_of_get? hd) hn
    obtain ⟨depth, rfl⟩ : ∃ k, depth = k + 1 := ⟨depth - 1, by omega⟩
    have habove : r.searchWithin (depth + 1) d (trail ++ [d.name]) =
        some ((r.ancestorsVia d.name (trail ++ [d.name]) d.supertypes).map
          (·, trail ++ [d.name])) := above (by omega)
    simp only [collectWithin, hd, hn, if_false, habove]
    cases r.ancestorsVia d.name (trail ++ [d.name]) d.supertypes with
    | error fault => rfl
    | ok inherited =>
      simp only [Except.map, List.dropLast_concat, beside hdepth]
      cases hts : throughParent parent d inherited with
      | error fault => simp [hts, bind, Except.bind]
      | ok ts =>
        simp only [hts, bind, Except.bind]
        cases r.ancestorsVia context trail rest with
        | error fault => rfl
        | ok others => rfl

/-- **The search ends**, at a depth of no more than the number of names. -/
theorem ancestorsWithin_eq (hd : r.get? name = some d) {depth : Nat}
    (hdepth : r.names.length ≤ depth) : r.ancestorsWithin depth d = some (r.ancestors d) := by
  have hname : d.name ∈ r.names := name_of_get? hd ▸ mem_names_of_get? hd
  have hlt : r.unvisited [d.name] < r.unvisited [] := unvisited_lt hname List.not_mem_nil
  have hle : r.unvisited [] ≤ r.names.length := List.length_filter_le _ _
  obtain ⟨depth, rfl⟩ : ∃ k, depth = k + 1 := ⟨depth - 1, by omega⟩
  rw [ancestorsWithin, searchWithin, collectWithin_eq (by omega), ancestors]
  cases r.ancestorsVia d.name [d.name] d.supertypes <;> rfl

/-! ## Sound hierarchies -/

/-- All names above a name are registered, and no name from there on leads back to itself. -/
structure FoundedAbove (r : Registry) (name : String) : Prop where
  registered : ∀ b, TransGen r.Extends name b → b ∈ r.names
  acyclic : ∀ c, ReflTransGen r.Extends name c → ¬ TransGen r.Extends c c

/-- A parent is used without arguments or with as many as its definition has parameters. -/
def Fits (r : Registry) (t : TypeExpr) : Prop :=
  ∀ p, r.get? t.name = some p → t.args = [] ∨ t.args.length = p.typeParams.length

/-- All parents that are named from a definition on fit their definitions. -/
def FitsAbove (r : Registry) (name : String) : Prop :=
  ∀ c e, ReflTransGen r.Extends name c → r.get? c = some e → ∀ t ∈ e.supertypes, r.Fits t

/-- No type parameter is applied to arguments in a parent. -/
def ParamsBare (r : Registry) : Prop :=
  ∀ e ∈ r.definitions ++ r.anonymous, ∀ t ∈ e.supertypes, ∀ n ∈ t.applied, n ∉ r.paramNames

theorem exists_ancestors_above (h : r.ancestorsVia context trail parents = .ok types) :
    ∀ parent ∈ parents, ∀ c, ReflTransGen r.Extends parent.name c →
      ∃ e us, r.get? c = some e ∧ r.ancestors e = .ok us := by
  refine ancestorsVia_induction (motive := fun _ parents _ => ∀ parent ∈ parents, ∀ c,
    ReflTransGen r.Extends parent.name c → ∃ e us, r.get? c = some e ∧ r.ancestors e = .ok us)
    (fun _ _ hp => by cases hp) ?_ h
  intro trail parent rest d inherited ts others hd _ hi _ above beside p hp c hc
  rcases List.mem_cons.mp hp with rfl | hp
  · rcases hc.cases_head with rfl | ⟨b, ⟨e, he, hb⟩, hc⟩
    · exact ⟨d, inherited, hd, hi⟩
    · cases hd.symm.trans he
      obtain ⟨t, ht, rfl⟩ := List.mem_map.mp hb
      exact above t ht c hc
  · exact beside p hp c hc

/-- **Success means a sound hierarchy.** -/
theorem foundedAbove_of_ancestors (hd : r.get? name = some d) (h : r.ancestors d = .ok types) :
    r.FoundedAbove name := by
  refine ⟨fun b hb => (reachable_of_ancestors hd h hb).1, fun c hc hcc => ?_⟩
  rcases hc.cases_head with rfl | ⟨b, ⟨e, he, hb⟩, hc⟩
  · exact (reachable_of_ancestors hd h hcc).2 rfl
  · cases hd.symm.trans he
    obtain ⟨t, ht, rfl⟩ := List.mem_map.mp hb
    obtain ⟨e, us, he, hus⟩ := exists_ancestors_above h t ht c hc
    exact (reachable_of_ancestors he hus hcc).2 rfl

/-- What a bound name stands for is one of the arguments, also if it is followed through the name
of a captured wildcard. -/
theorem mem_args_of_value {ps : TypeParams} {owner n : String} {args : List TypeArg}
    {s : Substitution} {arg : TypeArg} (h : ps.bind owner args = .ok s)
    (hv : s.value n = some arg) : arg ∈ args := by
  have hget : ∀ {x : String} {b : TypeArg}, s.get? x = some (some b) → b ∈ args := by
    intro x b hb
    rw [Substitution.get?_of_bind h] at hb
    split at hb
    · exact (mem_of_bound (Option.some.inj hb)).2
    · cases hb
  have hfollow : ∀ b ∈ args, s.follow b ∈ args := by
    intro b hb
    unfold Substitution.follow
    split
    · split
      · rename_i t _
        cases hc : (s.get? t.name).getD none with
        | none => exact hb
        | some c =>
          refine hget (x := t.name) ?_
          cases hx : s.get? t.name with
          | none => simp [hx] at hc
          | some entry => simpa [hx] using hc
      · exact hb
    · exact hb
  obtain ⟨entry, hentry, hlast⟩ :
      ∃ entry, s.get? n = some entry ∧ entry.map s.follow = some arg := by
    unfold Substitution.value Substitution.lookup at hv
    cases hx : s.get? n with
    | none => simp [hx] at hv
    | some entry => exact ⟨entry, rfl, by simpa [hx] using hv⟩
  obtain ⟨b, rfl, rfl⟩ := Option.map_eq_some_iff.mp hlast
  exact hfollow b (hget hentry)

/-- A parent that fits brings what its definition inherits, if none of its parameters is applied
there. A name is applied in what comes through the parent only if it was so before or is so in the
parent. -/
theorem exists_throughParent {parent : TypeExpr} {inherited : List TypeExpr}
    (hfits : parent.args = [] ∨ parent.args.length = d.typeParams.length)
    (hn : inherited.Nodup)
    (hbare : ∀ t ∈ inherited, ∀ n ∈ t.applied, n ∉ d.typeParams.names) :
    ∃ ts, throughParent parent d inherited = .ok ts ∧ ∀ u ∈ ts, ∀ n ∈ u.applied,
      n ∈ parent.applied ∨ ∃ t ∈ inherited, n ∈ t.applied := by
  obtain ⟨s, hs⟩ : ∃ s, d.typeParams.bind d.name parent.args = .ok s := by
    rcases hfits with hraw | hlen
    · exact ⟨.unresolved d.typeParams.names, by rw [hraw]; rfl⟩
    · exact TypeParams.exists_bind d.name hlen
  refine ⟨_, (throughParent_eq_ok_iff_subst hn).mpr ⟨s, hs, hbare, rfl⟩, fun u hu n hn => ?_⟩
  rcases List.mem_cons.mp hu with rfl | hu
  · exact .inl hn
  · obtain ⟨t, ht, rfl⟩ := List.mem_map.mp (mem_firstOccurrences.mp (List.mem_filter.mp hu).1)
    rcases t.applied_subst hn with ⟨hn, _⟩ | ⟨x, arg, _, harg, hn⟩
    · exact .inr ⟨t, ht, hn⟩
    · exact .inl (TypeExpr.mem_applied_of_mem_args (mem_args_of_value hs harg) hn)

/-- **A sound hierarchy means success**, if parents fit their definitions and no type parameter is
applied. -/
theorem exists_ancestorsVia (hparams : r.ParamsBare)
    (hfounded : ∀ p ∈ parents, ∀ b, ReflTransGen r.Extends p.name b →
      b ∈ r.names ∧ b ∉ trail ∧ ¬ TransGen r.Extends b b)
    (hfits : ∀ p ∈ parents, r.Fits p ∧ r.FitsAbove p.name)
    (hbare : ∀ p ∈ parents, ∀ n ∈ p.applied, n ∉ r.paramNames) :
    ∃ types, r.ancestorsVia context trail parents = .ok types ∧
      ∀ t ∈ types, ∀ n ∈ t.applied, n ∉ r.paramNames := by
  fun_induction ancestorsVia r context trail parents with
  | case1 => exact ⟨[], rfl, by simp⟩
  | case2 context trail parent rest hd =>
    obtain ⟨d, hd'⟩ := mem_names_iff.mp (hfounded parent List.mem_cons_self _ .refl).1
    rw [hd] at hd'
    cases hd'
  | case3 context trail parent rest d hd hn =>
    exact absurd (name_of_get? hd ▸ hn) (hfounded parent List.mem_cons_self _ .refl).2.1
  | case4 context trail parent rest d hd hn above beside =>
    obtain ⟨hfounded, hothers⟩ := List.forall_mem_cons.mp hfounded
    obtain ⟨⟨hfit, hfits⟩, hfitsRest⟩ := List.forall_mem_cons.mp hfits
    obtain ⟨hbare, hbareRest⟩ := List.forall_mem_cons.mp hbare
    have hmem : d ∈ r.definitions ++ r.anonymous := List.mem_of_find?_eq_some hd
    have hstep : ∀ t ∈ d.supertypes, ∀ b, ReflTransGen r.Extends t.name b →
        TransGen r.Extends parent.name b := fun t ht b hb =>
      TransGen.head' (extends_of_mem hd ht) hb
    obtain ⟨inherited, hi, hinherited⟩ := above
      (fun t ht b hb => by
        have hb := hstep t ht b hb
        obtain ⟨hreg, htrail, hac⟩ := hfounded b hb.to_reflTransGen
        refine ⟨hreg, fun hm => ?_, hac⟩
        rcases List.mem_append.mp hm with hm | hm
        · exact htrail hm
        · rw [List.mem_singleton.mp hm, name_of_get? hd] at hb
          exact (hfounded _ .refl).2.2 hb)
      (fun t ht => ⟨hfits parent.name d .refl hd t ht, fun c e hc =>
        hfits c e ((hstep t ht c hc).to_reflTransGen)⟩)
      (hparams d hmem)
    obtain ⟨ts, hts, happlied⟩ := exists_throughParent (hfit d hd) (nodup_ancestorsVia hi)
      fun t ht n hn hm => hinherited t ht n hn (List.mem_flatMap.mpr ⟨d, hmem, hm⟩)
    obtain ⟨others, ho, hothers⟩ := beside hothers hfitsRest hbareRest
    refine ⟨ts ++ others.filter (· ∉ ts), ?_, fun t ht n hn => ?_⟩
    · simp only [Except.bind_eq_ok_iff, Except.pure_eq_ok_iff]
      exact ⟨inherited, hi, ts, hts, others, ho, rfl⟩
    rcases mem_append_filter.mp ht with ht | ht
    · rcases happlied t ht n hn with hn | ⟨u, hu, hn⟩
      · exact hbare n hn
      · exact hinherited u hu n hn
    · exact hothers t ht n hn

theorem exists_ancestors (hd : r.get? name = some d) (hfounded : r.FoundedAbove name)
    (hfits : r.FitsAbove name) (hparams : r.ParamsBare) : ∃ types, r.ancestors d = .ok types := by
  have hstep : ∀ t ∈ d.supertypes, ∀ b, ReflTransGen r.Extends t.name b →
      TransGen r.Extends name b := fun t ht b hb => TransGen.head' (extends_of_mem hd ht) hb
  change ∃ types, r.ancestorsVia d.name [d.name] d.supertypes = .ok types
  refine (exists_ancestorsVia hparams (fun t ht b hb => ?_) (fun t ht => ⟨?_, fun c e hc => ?_⟩)
    (hparams d (List.mem_of_find?_eq_some hd))).imp fun _ h => h.1
  · have hb := hstep t ht b hb
    have hac := hfounded.acyclic b hb.to_reflTransGen
    refine ⟨hfounded.registered b hb, fun hm => ?_, hac⟩
    rw [List.mem_singleton.mp hm, name_of_get? hd] at hb hac
    exact hac hb
  · exact hfits name d .refl hd t ht
  · exact hfits c e (hstep t ht c hc).to_reflTransGen

/-! ## The way into a cycle -/

theorem fault_of_throughParent {parent : TypeExpr} {inherited : List TypeExpr} {e : ModelFault}
    (h : throughParent parent d inherited = .error e) :
    ∃ n expected found, e = .arityMismatch n expected found := by
  unfold throughParent at h
  rcases Except.bind_eq_error_iff.mp h with h | ⟨s, _, h⟩
  · unfold TypeParams.bind at h
    split at h
    · cases h
    split at h
    · exact ⟨_, _, _, (Except.error.inj h).symm⟩
    · cases h
  rcases Except.bind_eq_error_iff.mp h with h | ⟨us, _, h⟩
  · unfold replaceDistinct at h
    split at h
    · cases h
    obtain ⟨t, _, ht⟩ := Except.exists_of_mapM_eq_error (Except.map_eq_error_iff.mp h)
    obtain ⟨n, found, rfl⟩ := TypeExpr.fault_of_replace ht
    exact ⟨n, 0, found, rfl⟩
  · cases h

theorem isChain_append_parent {passed : List String} {e : Definition} {parent : TypeExpr}
    (hd : r.get? name = some d) (hp : parent ∈ d.supertypes) (he : r.get? parent.name = some e)
    (htrail : trail = passed ++ [name]) (hchain : trail.IsChain r.Extends) :
    (trail ++ [e.name]).IsChain r.Extends := by
  have hstep : r.Extends name e.name := name_of_get? he ▸ extends_of_mem hd hp
  rw [htrail] at hchain ⊢
  rw [List.append_assoc]
  exact List.isChain_append_cons_cons.mpr ⟨hchain, hstep, List.isChain_singleton _⟩

/-- **A reported cycle is a way** that goes on from the trail along the names of parents and ends at
a name it has passed. -/
theorem cycle_of_ancestorsVia {passed members : List String} (hd : r.get? name = some d)
    (hsub : parents ⊆ d.supertypes) (htrail : trail = passed ++ [name])
    (hchain : trail.IsChain r.Extends)
    (h : r.ancestorsVia context trail parents = .error (.cycle members)) :
    ∃ way last, members = trail ++ way ++ [last] ∧ members.IsChain r.Extends ∧
      last ∈ trail ++ way := by
  fun_induction ancestorsVia r context trail parents generalizing name d passed with
  | case1 => cases h
  | case2 => cases h
  | case3 context trail parent rest e he hn =>
    cases h
    obtain ⟨hp, _⟩ := List.cons_subset.mp hsub
    exact ⟨[], e.name, by simp, isChain_append_parent hd hp he htrail hchain, by simpa using hn⟩
  | case4 context trail parent rest e he hn above beside =>
    obtain ⟨hp, hrest⟩ := List.cons_subset.mp hsub
    rcases Except.bind_eq_error_iff.mp h with h | ⟨inherited, _, h⟩
    · have he' : r.get? e.name = some e := name_of_get? he ▸ he
      have hlonger := isChain_append_parent hd hp he htrail hchain
      obtain ⟨way, last, rfl, hmembers, hlast⟩ := above he' (fun _ => id) rfl hlonger h
      exact ⟨e.name :: way, last, by simp, by simpa using hmembers, by simpa using hlast⟩
    rcases Except.bind_eq_error_iff.mp h with h | ⟨ts, _, h⟩
    · obtain ⟨_, _, _, hfault⟩ := fault_of_throughParent h
      cases hfault
    rcases Except.bind_eq_error_iff.mp h with h | ⟨others, _, h⟩
    · exact beside hd hrest htrail hchain h
    · cases h

/-- **The search for ancestors ends and fails exactly on broken hierarchies.** It goes no deeper
than there are names. If it succeeds, all names above the definition are registered and no cycle can
be reached. Conversely it succeeds there, if all parents from the definition on fit their
definitions and no type parameter is applied in a parent. A cycle is reported as a way that begins
at the definition and ends at a name it has passed. -/
theorem ancestors_search (r : Registry) (name : String) (d : Definition)
    (hd : r.get? name = some d) :
    (∀ depth, r.names.length ≤ depth → r.ancestorsWithin depth d = some (r.ancestors d)) ∧
      (∀ types, r.ancestors d = .ok types → r.FoundedAbove name) ∧
      (r.FoundedAbove name → r.FitsAbove name → r.ParamsBare →
        ∃ types, r.ancestors d = .ok types) ∧
      ∀ members, r.ancestors d = .error (.cycle members) →
        ∃ way last, members = name :: way ++ [last] ∧ members.IsChain r.Extends ∧
          last ∈ name :: way := by
  have hname := name_of_get? hd
  refine ⟨fun depth => ancestorsWithin_eq hd, fun types => foundedAbove_of_ancestors hd,
    fun hfounded hfits hparams => ?_, fun members h => ?_⟩
  · exact exists_ancestors hd hfounded hfits hparams
  · obtain ⟨way, last, rfl, hchain, hlast⟩ := cycle_of_ancestorsVia (hname ▸ hd) (fun _ => id)
      (show [d.name] = [] ++ [d.name] from rfl) (List.isChain_singleton _) h
    rw [hname] at hchain hlast ⊢
    exact ⟨way, last, by simp, by simpa using hchain, by simpa using hlast⟩

/-- `C<T>` inherits from `Q` along three ways, on one of them without its argument. `D` inherits
from `A`, which leads to `B` and back to itself. -/
def mixedModel : Registry :=
  ofInterfaces
    [("Q", ["X"], []),
     ("P", ["Y"], [.generic "Q" [.plain (.named "Y")]]),
     ("R", [], [.named "Q"]),
     ("C", ["T"], [.generic "P" [.plain (.generic "List" [.plain (.named "T")])], .named "R",
       .generic "Q" [.any]]),
     ("A", [], [.named "B"]),
     ("B", [], [.named "A"]),
     ("D", [], [.named "C", .named "A"])]

/-- The search succeeds for `C`, and for `D` it reports the way `D`, `A`, `B`, `A`. -/
theorem ancestors_search_mixed :
    ∃ c d, mixedModel.get? "C" = some c ∧ mixedModel.get? "D" = some d ∧
      mixedModel.FoundedAbove "C" ∧ mixedModel.FitsAbove "C" ∧ mixedModel.ParamsBare ∧
      (∃ types, mixedModel.ancestors c = .ok types) ∧
      mixedModel.ancestorsWithin 8 d = some (mixedModel.ancestors d) ∧
      mixedModel.ancestors d = .error (.cycle ["D", "A", "B", "A"]) ∧
      ∃ way last, ["D", "A", "B", "A"] = "D" :: way ++ [last] ∧
        ["D", "A", "B", "A"].IsChain mixedModel.Extends ∧ last ∈ "D" :: way := by
  have hc : ((mixedModel.get? "C").any fun c =>
      (mixedModel.ancestors c).toOption.any fun _ => true) = true := by
    decide +kernel
  have hd : ((mixedModel.get? "D").any fun d =>
      mixedModel.ancestors d = .error (.cycle ["D", "A", "B", "A"])) = true := by
    decide +kernel
  have hfits : ∀ e ∈ mixedModel.definitions ++ mixedModel.anonymous, ∀ t ∈ e.supertypes,
      ∀ p ∈ mixedModel.get? t.name, t.args = [] ∨ t.args.length = p.typeParams.length := by
    decide +kernel
  have hparams : mixedModel.ParamsBare := by
    unfold ParamsBare
    decide +kernel
  obtain ⟨c, hc, hsome⟩ := (Option.any_eq_true _ _).mp hc
  obtain ⟨d, hd, hcycle⟩ := (Option.any_eq_true _ _).mp hd
  obtain ⟨types, htypes, _⟩ := Except.exists_of_any hsome
  obtain ⟨_, hfounded, hback, _⟩ := ancestors_search mixedModel "C" c hc
  obtain ⟨hdepth, _, _, hway⟩ := ancestors_search mixedModel "D" d hd
  have hfitsAbove : mixedModel.FitsAbove "C" := fun _ e _ he t ht p hp =>
    hfits e (List.mem_of_find?_eq_some he) t ht p hp
  have hcycle := of_decide_eq_true hcycle
  exact ⟨c, d, hc, hd, hfounded types htypes, hfitsAbove, hparams,
    hback (hfounded types htypes) hfitsAbove hparams, hdepth 8 (by decide), hcycle, hway _ hcycle⟩

end Registry

end FluentGrammar
