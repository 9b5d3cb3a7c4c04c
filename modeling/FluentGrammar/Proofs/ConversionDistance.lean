import FluentGrammar.Proofs.ConversionClosure
import Mathlib.Order.Bounds.Defs

/-!
# Distances of conversions

The paths that the closure of a class records are shortest ones. The names in question form a graph,
in which a conversion leads from each explored type to its target and to what the definition of the
target inherits from. Each recorded path is the last step of a walk from the interfaces the class
started with, and no walk overtakes it, since the queue was in ascending order all the time.

* `ConversionWalk`: a walk along conversions and its length.
* `Closing.walk`, `Closing.distanceTo_le`: recorded distances are lengths of walks, and no walk is
  shorter.
* **`closeClass_shortest`**: what is reachable is recorded, by a shortest walk.
-/

namespace FluentGrammar

/-- A walk along conversions from the ancestors a class started with: its end and its length. Each
step leaves an explored type. -/
inductive ConversionWalk (r : Registry) (name : String) (conversions : List Conversion)
    (starts : List TypeExpr) (paths : Table ConversionPath) : String → Nat → Prop
  | start {t : TypeExpr} : t ∈ starts → ConversionWalk r name conversions starts paths t.name 0
  | step {via : TypeExpr} {n : String} {k : Nat} :
      ConversionWalk r name conversions starts paths via.name k → Explored starts paths via →
      Leads r name conversions via n → ConversionWalk r name conversions starts paths n (k + 1)

section

variable {base r r' : Registry} {name utility n : String} {conversions : List Conversion}
  {before done types : List TypeExpr} {unseen : List String} {d : Definition} {k : Nat}

namespace Closing

theorem distanceTo_of_mem_before {f : Frontier}
    (h : Closing base name conversions before done f d types) (hn : n ∈ before.map TypeExpr.name) :
    d.paths.get? n = none ∧ d.distanceTo n = 0 := by
  have hnone : d.paths.get? n = none :=
    Table.get?_eq_none_iff.mpr fun hm => h.fresh n hm hn
  exact ⟨hnone, by rw [Definition.distanceTo, hnone]; rfl⟩

theorem distanceTo_of_get? {p : ConversionPath} (hp : d.paths.get? n = some p) :
    d.distanceTo n = p.distance := by
  rw [Definition.distanceTo, hp]
  rfl

/-- An explored type is at the end of a walk of its distance, once all shorter paths are. -/
theorem walk_of_explored {f : Frontier} (h : Closing base name conversions before done f d types)
    {via : TypeExpr} (hvia : Explored (before.filter (isArchetyped base)) d.paths via)
    (ih : ∀ n p, d.paths.get? n = some p → p.distance ≤ d.distanceTo via.name →
      ConversionWalk base name conversions (before.filter (isArchetyped base)) d.paths n
        p.distance) :
    ConversionWalk base name conversions (before.filter (isArchetyped base)) d.paths via.name
      (d.distanceTo via.name) := by
  rcases hvia with hs | ⟨p, hp, rfl⟩
  · have hm : via.name ∈ before.map TypeExpr.name :=
      List.mem_map.mpr ⟨via, (List.mem_filter.mp hs).1, rfl⟩
    rw [(h.distanceTo_of_mem_before hm).2]
    exact .start hs
  · obtain ⟨⟨key, _⟩, he, rfl⟩ := List.mem_map.mp hp
    have hget := Table.get?_eq_some_iff.mpr he
    rw [(h.path key _ hget).1, distanceTo_of_get? hget]
    refine ih key _ hget ?_
    rw [(h.path key _ hget).1, distanceTo_of_get? hget]

theorem walk {f : Frontier} (h : Closing base name conversions before done f d types)
    {p : ConversionPath} (hp : d.paths.get? n = some p) :
    ConversionWalk base name conversions (before.filter (isArchetyped base)) d.paths n
      p.distance := by
  induction hk : p.distance using Nat.strong_induction_on generalizing n p with
  | _ k ih =>
    obtain ⟨_, hvia, hleads, hdist⟩ := h.path n p hp
    rw [← hk, hdist]
    refine .step (h.walk_of_explored hvia fun m q hq hle => ih q.distance ?_ hq rfl) hvia hleads
    omega

/-- Where everything explored is done, no walk is shorter than the distance to its end. -/
theorem distanceTo_le (h : Closing base name conversions before done ⟨[], unseen⟩ d types)
    (hw : ConversionWalk base name conversions (before.filter (isArchetyped base)) d.paths n k) :
    n ∈ types.map TypeExpr.name ∧ d.distanceTo n ≤ k := by
  induction hw with
  | @start t hs =>
    have hm : t.name ∈ before.map TypeExpr.name :=
      List.mem_map.mpr ⟨t, (List.mem_filter.mp hs).1, rfl⟩
    exact ⟨(h.names _).mpr (.inl hm), (h.distanceTo_of_mem_before hm).2.le⟩
  | @step via n k _ hvia hleads ih =>
    have hdone : via ∈ done := by simpa using (h.explored via).mp hvia
    obtain ⟨c, hc, s, target, hs, ht, hself, hn⟩ := hleads
    obtain ⟨target', ht', hall⟩ := h.handled via hdone c hc s hs
    cases ht.symm.trans ht'
    obtain ⟨hm, hle⟩ := hall.resolve_left hself n hn
    exact ⟨hm, hle.trans (Nat.succ_le_succ ih.2)⟩

theorem isLeast_distanceTo (h : Closing base name conversions before done ⟨[], unseen⟩ d types)
    {via : TypeExpr} (hvia : Explored (before.filter (isArchetyped base)) d.paths via) :
    IsLeast {k | ConversionWalk base name conversions (before.filter (isArchetyped base)) d.paths
      via.name k} (d.distanceTo via.name) :=
  ⟨h.walk_of_explored hvia fun _ _ hp _ => h.walk hp, fun _ hw => (h.distanceTo_le hw).2⟩

end Closing

/-- **Recorded conversions are shortest.** In a registry in which no definition inherits from a type
of the name of one of its own type parameters, let a class without paths be closed. Then a name that
was not among its ancestors has a path exactly if a walk leads there. The distance of the path is the
least length of such walks, and it is one more than that of the type it comes from. No ancestor the
class started with gets a path. -/
theorem closeClass_shortest (hr : r.Unshadowed) (hd : r.get? name = some d)
    (hc : d.isNamedClass = true) (hp : d.paths = ∅)
    (h : closeClass name utility conversions r = .ok () r') :
    ∃ before d', r.ancestors d = .ok before ∧ r'.get? name = some d' ∧
      (∀ n, n ∉ before.map TypeExpr.name →
        ((∃ p, d'.paths.get? n = some p) ↔
          ∃ k, ConversionWalk r name conversions (before.filter (isArchetyped r)) d'.paths n k)) ∧
      (∀ n p, d'.paths.get? n = some p →
        IsLeast {k | ConversionWalk r name conversions (before.filter (isArchetyped r)) d'.paths n k}
          p.distance ∧
        Explored (before.filter (isArchetyped r)) d'.paths p.via ∧
        ∃ k, p.distance = k + 1 ∧ IsLeast {k | ConversionWalk r name conversions
          (before.filter (isArchetyped r)) d'.paths p.via.name k} k) ∧
      ∀ n ∈ before.map TypeExpr.name, d'.paths.get? n = none ∧ d'.distanceTo n = 0 := by
  obtain ⟨before, d', types', done, unseen, hbefore, hclass, hclosing⟩ :=
    closeClass_closing hr hd hc hp h
  refine ⟨before, d', hbefore, hclass.found, fun n hn => ⟨?_, ?_⟩, fun n p hget => ⟨?_, ?_, ?_⟩,
    fun n hn => hclosing.distanceTo_of_mem_before hn⟩
  · rintro ⟨p, hget⟩
    exact ⟨p.distance, hclosing.walk hget⟩
  · rintro ⟨k, hw⟩
    have hkey := ((hclosing.names n).mp (hclosing.distanceTo_le hw).1).resolve_left hn
    exact Option.ne_none_iff_exists'.mp fun hnone => Table.get?_eq_none_iff.mp hnone hkey
  · refine ⟨hclosing.walk hget, fun k hw => ?_⟩
    rw [← Closing.distanceTo_of_get? hget]
    exact (hclosing.distanceTo_le hw).2
  · exact (hclosing.path n p hget).2.1
  · obtain ⟨_, hvia, _, hdist⟩ := hclosing.path n p hget
    exact ⟨_, hdist, hclosing.isLeast_distanceTo hvia⟩

end

/-- In the chain from `A` by `B<A>` to `D<A>` a shortest walk to `D` has two steps, and `A` has no
path. -/
theorem closeClass_shortest_chain :
    chainModel.Unshadowed ∧ ∃ r' d before d',
      closeClass "C" "Forms" chainConversions chainModel = .ok () r' ∧
      chainModel.get? "C" = some d ∧ d.isNamedClass = true ∧ d.paths = ∅ ∧
      chainModel.ancestors d = .ok before ∧ r'.get? "C" = some d' ∧
      IsLeast {k | ConversionWalk chainModel "C" chainConversions
        (before.filter (isArchetyped chainModel)) d'.paths "D" k} 2 ∧
      d'.paths.get? "A" = none := by
  have hr : chainModel.Unshadowed := by decide +kernel
  obtain ⟨_, r', hrun, hdist⟩ := Resolution.exists_of_succeeds
    (x := closeClass "C" "Forms" chainConversions)
    (p := fun r' => ((r'.get? "C").bind fun d => (d.paths.get? "D").map ConversionPath.distance) =
      some 2)
    (show Resolution.succeeds _ chainModel _ = true by decide +kernel)
  have hd : chainModel.get? "C" =
      some (Definition.make "C" (.namedClass none [.named "A"] ∅)) := by decide +kernel
  obtain ⟨before, d', hbefore, hd', -, hleast, hnone⟩ :=
    closeClass_shortest hr hd (by decide) (by decide) hrun
  have hstart : chainModel.ancestors (.make "C" (.namedClass none [.named "A"] ∅)) =
      .ok [.named "A"] := by decide +kernel
  cases hbefore.symm.trans hstart
  simp only [hd', Option.bind_some, decide_eq_true_eq, Option.map_eq_some_iff] at hdist
  obtain ⟨p, hp, hpd⟩ := hdist
  exact ⟨hr, r', _, _, d', hrun, hd, by decide, by decide, hstart, hd', hpd ▸ (hleast "D" p hp).1,
    (hnone "A" (by decide)).1⟩

/-- **Shadowed names are gained twice.** The class implements `T`, which it loses to `J<Foo>`
because `J` itself inherits from `T`; the next conversion brings `T` back, now with a path. -/
theorem closeClass_path_to_start_shadowed :
    ∃ r' d before d', closeClass "C" "Forms"
        [conversionOf [] (.named "A") (.generic "J" [.plain (.named "Foo")]),
          conversionOf [] (.named "A") (.named "T")]
        (shadowedModel [.named "A", .named "T"]) = .ok () r' ∧
      (shadowedModel [.named "A", .named "T"]).get? "C" = some d ∧ d.isNamedClass = true ∧
      d.paths = ∅ ∧ (shadowedModel [.named "A", .named "T"]).ancestors d = .ok before ∧
      "T" ∈ before.map TypeExpr.name ∧ r'.get? "C" = some d' ∧ d'.distanceTo "T" = 1 := by
  obtain ⟨_, r', hrun, hdist⟩ := Resolution.exists_of_succeeds
    (x := closeClass "C" "Forms"
      [conversionOf [] (.named "A") (.generic "J" [.plain (.named "Foo")]),
        conversionOf [] (.named "A") (.named "T")])
    (p := fun r' => (r'.get? "C").map (·.distanceTo "T") = some 1)
    (show Resolution.succeeds _ (shadowedModel [.named "A", .named "T"]) _ = true by
      decide +kernel)
  obtain ⟨d', hd', hpath⟩ := Option.map_eq_some_iff.mp (of_decide_eq_true hdist)
  exact ⟨r', Definition.make "C" (.namedClass none [.named "A", .named "T"] ∅),
    [.named "A", .named "T"], d', hrun, by decide +kernel, by decide, by decide, by decide +kernel,
    by decide, hd', hpath⟩

end FluentGrammar
