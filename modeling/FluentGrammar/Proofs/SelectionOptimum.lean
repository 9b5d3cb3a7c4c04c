import Mathlib.Data.List.MinMax
import Mathlib.Data.List.Perm.Basic
import FluentGrammar.Proofs.Run
import FluentGrammar.Resolution.Selection

/-!
# The best explicit method

Of the explicit methods that suit a class, those of least distance are kept, and of these the ones
of greatest richness. Two filters by a least and a greatest value are one filter by a condition that
compares each candidate with all others, and such a condition does not depend on the order of the
candidates. So selection finds the lexicographic optimum, and permuting the candidates changes
nothing but the order in which a tie is reported.

* `Accepts`: an explicit method suits a class by the first ancestor of its receiver's name.
* `acceptable`: the candidates that a list of methods gives, in order.
* `IsBest`, `best`: the candidates that no other one surpasses.
* `nearest_eq_filter`, `richest_eq_filter`: the two filters as comparisons.
* `select_cases`: selection in terms of the best candidates.
* `select_perm`, `tie_perm`: the order of the methods.
* **`select_optimum`**: when there is no answer, a winner or a tie.
-/

namespace FluentGrammar

variable {r : Registry} {d : Definition} {ancestors : List TypeExpr} {m : Method} {c : Candidate}
  {cs cs' : List Candidate} {ms ms' : List Method}

/-! ## Acceptable candidates -/

/-- The method, seen as a candidate, suits a class with the given ancestors: it has a receiver, and
the type of the receiver unifies with the first ancestor of its name, which gives the bindings. -/
structure Accepts (ancestors : List TypeExpr) (m : Method) (c : Candidate) : Prop where
  method : c.method = m
  receiver : ∃ p rest, m.params = p :: rest ∧ p.callType.name = c.ancestor.name ∧
    m.typeParams.infer p.callType c.ancestor = .ok c.bindings
  first : ∃ before after, ancestors = before ++ c.ancestor :: after ∧
    ∀ t ∈ before, t.name ≠ c.ancestor.name

theorem candidate?_eq_some_iff : candidate? ancestors m = some c ↔ Accepts ancestors m c := by
  unfold candidate?
  simp only [Option.bind_eq_bind, Option.bind_eq_some_iff, List.head?_eq_some_iff]
  constructor
  · rintro ⟨p, ⟨rest, hp⟩, ancestor, ha, h⟩
    obtain ⟨hname, before, after, hsplit, hbefore⟩ := List.find?_eq_some_iff_append.mp ha
    split at h
    · rename_i bindings hinfer
      obtain rfl := Option.some.inj h
      have hname : ancestor.name = p.callType.name := of_decide_eq_true hname
      refine ⟨rfl, ⟨p, rest, hp, hname.symm, hinfer⟩, before, after, hsplit, fun t ht he => ?_⟩
      simpa [he.trans hname] using hbefore t ht
    · cases h
  · rintro ⟨rfl, ⟨p, rest, hp, hname, hinfer⟩, before, after, hsplit, hbefore⟩
    refine ⟨p, ⟨rest, hp⟩, c.ancestor, List.find?_eq_some_iff_append.mpr ⟨?_, before, after, hsplit,
      fun t ht => ?_⟩, ?_⟩
    · exact decide_eq_true hname.symm
    · simpa [hname] using hbefore t ht
    · simp only [hinfer]

/-- The candidates that suit a class with the given ancestors, in the order of the methods. -/
def acceptable (ancestors : List TypeExpr) (ms : List Method) : List Candidate :=
  ms.filterMap (candidate? ancestors)

theorem mem_acceptable : c ∈ acceptable ancestors ms ↔ ∃ m ∈ ms, Accepts ancestors m c := by
  simp only [acceptable, List.mem_filterMap, candidate?_eq_some_iff]

/-! ## Best candidates -/

/-- No candidate has a smaller distance, and none of the same distance has a greater richness. -/
def IsBest (r : Registry) (d : Definition) (cs : List Candidate) (c : Candidate) : Prop :=
  (∀ c' ∈ cs, c.distance d ≤ c'.distance d) ∧
    ∀ c' ∈ cs, c'.distance d = c.distance d →
      ∀ k ∈ (richness r c.method.result).toOption, ∀ k' ∈ (richness r c'.method.result).toOption,
        k' ≤ k

instance : DecidablePred (IsBest r d cs) := fun _ => inferInstanceAs (Decidable (_ ∧ _))

/-- The best candidates, in order. -/
def best (r : Registry) (d : Definition) (cs : List Candidate) : List Candidate :=
  cs.filter (IsBest r d cs)

theorem exists_least {α β : Type} [LinearOrder β] (f : α → β) {as : List α} (h : as ≠ []) :
    ∃ a ∈ as, ∀ b ∈ as, f a ≤ f b := by
  have hsome : as.argmin f ≠ none := fun hnone => h (List.argmin_eq_none.mp hnone)
  obtain ⟨least, hleast⟩ := Option.ne_none_iff_exists'.mp hsome
  exact ⟨least, List.argmin_mem hleast, fun b hb => List.le_of_mem_argmin hb hleast⟩

theorem nearest_eq_filter (d : Definition) (cs : List Candidate) :
    nearest d cs = cs.filter fun c => ∀ c' ∈ cs, c.distance d ≤ c'.distance d := by
  unfold nearest
  split
  · rename_i least h
    obtain ⟨hmem, hle⟩ := List.min?_eq_some_iff.mp h
    obtain ⟨c₀, hc₀, rfl⟩ := List.mem_map.mp hmem
    refine List.filter_congr fun c hc => decide_eq_decide.mpr ⟨?_, fun hall => ?_⟩
    · rintro he c' hc'
      exact he ▸ hle _ (List.mem_map.mpr ⟨c', hc', rfl⟩)
    · exact Nat.le_antisymm (hall c₀ hc₀) (hle _ (List.mem_map.mpr ⟨c, hc, rfl⟩))
  · rename_i h
    obtain rfl := List.map_eq_nil_iff.mp (List.min?_eq_none_iff.mp h)
    rfl

/-- The richness of a candidate's result type, if it is defined. -/
def score (r : Registry) (c : Candidate) : Nat :=
  (richness r c.method.result).toOption.getD 0

theorem richest_eq_filter (r : Registry) (cs : List Candidate) :
    richest (cs.map fun c => (score r c, c)) =
      cs.filter fun c => ∀ c' ∈ cs, score r c' ≤ score r c := by
  unfold richest
  rw [List.map_map]
  split
  · rename_i most h
    obtain ⟨hmem, hle⟩ := List.max?_eq_some_iff.mp h
    obtain ⟨c₀, hc₀, rfl⟩ := List.mem_map.mp hmem
    rw [List.filter_map, List.map_map]
    refine (List.map_id _).trans (List.filter_congr fun c hc => decide_eq_decide.mpr
      ⟨fun (he : score r c = score r c₀) c' hc' => ?_, fun hall => ?_⟩)
    · exact he ▸ hle _ (List.mem_map.mpr ⟨c', hc', rfl⟩)
    · exact Nat.le_antisymm (hle _ (List.mem_map.mpr ⟨c, hc, rfl⟩)) (hall c₀ hc₀)
  · rename_i h
    obtain rfl := List.map_eq_nil_iff.mp (List.max?_eq_none_iff.mp h)
    rfl

/-- The richness of all candidates of least distance is defined. -/
def Scored (r : Registry) (d : Definition) (cs : List Candidate) : Prop :=
  ∀ c ∈ cs, (∀ c' ∈ cs, c.distance d ≤ c'.distance d) → ∃ k, richness r c.method.result = .ok k

theorem mem_nearest : c ∈ nearest d cs ↔ c ∈ cs ∧ ∀ c' ∈ cs, c.distance d ≤ c'.distance d := by
  rw [nearest_eq_filter, List.mem_filter, decide_eq_true_iff]

/-- Among those of least distance, the score tells which are best. -/
theorem isBest_iff (hscored : Scored r d cs) (hc : c ∈ cs) : IsBest r d cs c ↔
    (∀ c' ∈ nearest d cs, score r c' ≤ score r c) ∧ ∀ c' ∈ cs, c.distance d ≤ c'.distance d := by
  rw [IsBest, and_comm]
  refine and_congr_left fun hleast => ?_
  have hscore : ∀ c' ∈ nearest d cs,
      (richness r c'.method.result).toOption = some (score r c') := by
    intro c' hc'
    obtain ⟨hc', hleast'⟩ := mem_nearest.mp hc'
    obtain ⟨k, hk⟩ := hscored c' hc' hleast'
    simp [score, hk, Except.toOption]
  have hsame : ∀ c' ∈ cs, c'.distance d = c.distance d ↔ c' ∈ nearest d cs := by
    intro c' hc'
    rw [mem_nearest]
    refine ⟨fun he => ⟨hc', he ▸ hleast⟩, fun hnear => ?_⟩
    exact Nat.le_antisymm (hnear.2 c hc) (hleast c' hc')
  constructor
  · intro h c' hc'
    have hcs := (mem_nearest.mp hc').1
    exact h c' hcs ((hsame c' hcs).mpr hc') _ (hscore c (mem_nearest.mpr ⟨hc, hleast⟩)) _
      (hscore c' hc')
  · intro h c' hc' he k hk k' hk'
    have hnear := (hsame c' hc').mp he
    rw [hscore c (mem_nearest.mpr ⟨hc, hleast⟩)] at hk
    rw [hscore c' hnear] at hk'
    cases hk
    cases hk'
    exact h c' hnear

/-- **Two filters are one**: the richest of the nearest candidates are the best. -/
theorem richest_nearest (hscored : Scored r d cs) :
    richest ((nearest d cs).map fun c => (score r c, c)) = best r d cs := by
  rw [richest_eq_filter]
  refine (congrArg (List.filter _) (nearest_eq_filter d cs)).trans ?_
  rw [List.filter_filter, best]
  refine List.filter_congr fun c hc => ?_
  rw [← Bool.decide_and, decide_eq_decide]
  exact (isBest_iff hscored hc).symm

theorem best_eq_nil_iff (hscored : Scored r d cs) : best r d cs = [] ↔ cs = [] := by
  refine ⟨fun h => ?_, fun h => by rw [h, best, List.filter_nil]⟩
  by_contra hne
  obtain ⟨near, hnear, hleast⟩ := exists_least (·.distance d) hne
  obtain ⟨c, hc, hmost⟩ := exists_least (fun c => OrderDual.toDual (score r c))
    (List.ne_nil_of_mem (mem_nearest.mpr ⟨hnear, hleast⟩))
  obtain ⟨hmem, hle⟩ := mem_nearest.mp hc
  have hbest : c ∈ best r d cs :=
    List.mem_filter.mpr ⟨hmem, decide_eq_true ((isBest_iff hscored hmem).mpr ⟨hmost, hle⟩)⟩
  rw [h] at hbest
  cases hbest

theorem best_perm (h : cs'.Perm cs) : (best r d cs').Perm (best r d cs) := by
  have hsame : cs'.filter (IsBest r d cs') = cs'.filter (IsBest r d cs) := by
    refine List.filter_congr fun c _ => decide_eq_decide.mpr ?_
    simp only [IsBest, h.mem_iff]
  rw [best, hsame]
  exact h.filter _

/-! ## Selection -/

/-- **Selection by the best candidates**: none gives no answer, one is the winner, and more are a
tie. -/
theorem select_cases (hancestors : r.ancestors d = .ok ancestors)
    (hscored : Scored r d (acceptable ancestors ms)) :
    (best r d (acceptable ancestors ms) = [] ∧ select r d ms = .ok none) ∨
      (∃ w, best r d (acceptable ancestors ms) = [w] ∧ select r d ms = .ok (some w)) ∨
      ∃ first second rest, best r d (acceptable ancestors ms) = first :: second :: rest ∧
        select r d ms = .error (.ambiguous d.name first.method.reducedSignature
          ((first :: second :: rest).map (·.method.declaration))) := by
  have hnear : (nearest d (acceptable ancestors ms)).mapM
      (fun c => do return (← richness r c.method.result, c)) =
        .ok ((nearest d (acceptable ancestors ms)).map fun c => (score r c, c)) := by
    refine Except.mapM_eq_ok_map fun c hc => ?_
    obtain ⟨hc, hleast⟩ := mem_nearest.mp hc
    obtain ⟨k, hk⟩ := hscored c hc hleast
    simp [hk, score, bind, Except.bind, pure, Except.pure, Except.toOption]
  unfold select TableSource.select
  rw [hancestors]
  simp only [bind, Except.bind] at hnear ⊢
  rw [← acceptable, hnear]
  dsimp only
  rw [richest_nearest hscored]
  split
  · rename_i hbest
    exact .inl ⟨hbest, rfl⟩
  · rename_i w hbest
    exact .inr (.inl ⟨w, hbest, rfl⟩)
  · rename_i first others hmany hbest
    cases others with
    | nil => exact (hmany rfl).elim
    | cons second rest => exact .inr (.inr ⟨first, second, rest, hbest, rfl⟩)

theorem select_eq_none_iff (hancestors : r.ancestors d = .ok ancestors)
    (hscored : Scored r d (acceptable ancestors ms)) :
    select r d ms = .ok none ↔ acceptable ancestors ms = [] := by
  rw [← best_eq_nil_iff hscored]
  obtain ⟨hbest, h⟩ | ⟨w, hbest, h⟩ | ⟨first, second, rest, hbest, h⟩ :=
    select_cases hancestors hscored
  all_goals simp [hbest, h]

theorem select_eq_some_iff (hancestors : r.ancestors d = .ok ancestors)
    (hscored : Scored r d (acceptable ancestors ms)) :
    select r d ms = .ok (some c) ↔ best r d (acceptable ancestors ms) = [c] := by
  obtain ⟨hbest, h⟩ | ⟨w, hbest, h⟩ | ⟨first, second, rest, hbest, h⟩ :=
    select_cases hancestors hscored
  all_goals simp [hbest, h]

/-- The only best candidate stands at one place, and no other place has a best one. -/
theorem best_eq_singleton_iff : best r d cs = [c] ↔ ∃ before after,
    cs = before ++ c :: after ∧ IsBest r d cs c ∧ ∀ c' ∈ before ++ after, ¬ IsBest r d cs c' := by
  rw [best, List.filter_eq_cons_iff]
  constructor
  · rintro ⟨before, after, hsplit, hbefore, hc, hafter⟩
    refine ⟨before, after, hsplit, of_decide_eq_true hc, fun c' hc' hbest => ?_⟩
    rcases List.mem_append.mp hc' with hc' | hc'
    · exact hbefore c' hc' (decide_eq_true hbest)
    · exact List.filter_eq_nil_iff.mp hafter c' hc' (decide_eq_true hbest)
  · rintro ⟨before, after, hsplit, hc, hothers⟩
    have hnot : ∀ c' ∈ before ++ after, ¬ decide (IsBest r d cs c') = true :=
      fun c' hc' hbest => hothers c' hc' (of_decide_eq_true hbest)
    exact ⟨before, after, hsplit, fun c' hc' => hnot c' (List.mem_append_left _ hc'),
      decide_eq_true hc, List.filter_eq_nil_iff.mpr fun c' hc' =>
        hnot c' (List.mem_append_right _ hc')⟩

/-- A candidate that is nearer than all others is best whatever its richness. -/
theorem best_of_nearer {before after : List Candidate} (hsplit : cs = before ++ c :: after)
    (hnearer : ∀ c' ∈ before ++ after, c.distance d < c'.distance d) : best r d cs = [c] := by
  have hmem : ∀ c' ∈ cs, c' = c ∨ c' ∈ before ++ after := by
    intro c' hc'
    simp only [hsplit, List.mem_append, List.mem_cons] at hc' ⊢
    tauto
  refine best_eq_singleton_iff.mpr ⟨before, after, hsplit, ⟨fun c' hc' => ?_, fun c' hc' he => ?_⟩,
    fun c' hc' hbest => ?_⟩
  · rcases hmem c' hc' with rfl | hc'
    · exact Nat.le_refl _
    · exact Nat.le_of_lt (hnearer c' hc')
  · rcases hmem c' hc' with rfl | hc'
    · intro k hk k' hk'
      exact Nat.le_of_eq (Option.some.inj (hk'.symm.trans hk))
    · exact absurd he (Nat.ne_of_gt (hnearer c' hc'))
  · exact Nat.not_lt.mpr (hbest.1 c (hsplit ▸ by simp)) (hnearer c' hc')

theorem Scored.perm (hscored : Scored r d cs) (h : cs'.Perm cs) : Scored r d cs' := by
  intro c hc hleast
  exact hscored c (h.mem_iff.mp hc) fun c' hc' => hleast c' (h.mem_iff.mpr hc')

theorem select_perm (hancestors : r.ancestors d = .ok ancestors)
    (hscored : Scored r d (acceptable ancestors ms)) (hperm : ms'.Perm ms)
    {answer : Option Candidate} : select r d ms' = .ok answer ↔ select r d ms = .ok answer := by
  have hcs : (acceptable ancestors ms').Perm (acceptable ancestors ms) := hperm.filterMap _
  have hscored' := hscored.perm hcs
  cases answer with
  | none =>
    rw [select_eq_none_iff hancestors hscored', select_eq_none_iff hancestors hscored]
    exact ⟨fun h => List.nil_perm.mp (h ▸ hcs), fun h => List.perm_nil.mp (h ▸ hcs)⟩
  | some w =>
    have hbest := best_perm (r := r) (d := d) hcs
    rw [select_eq_some_iff hancestors hscored', select_eq_some_iff hancestors hscored]
    exact ⟨fun h => (List.singleton_perm.mp (h ▸ hbest)).symm,
      fun h => List.perm_singleton.mp (h ▸ hbest)⟩

/-- The order of the methods does not matter to a tie but for its order. -/
theorem tie_perm (hancestors : r.ancestors d = .ok ancestors)
    (hscored : Scored r d (acceptable ancestors ms)) (hperm : ms'.Perm ms) {signature : String}
    {tied : List String} (h : select r d ms = .error (.ambiguous d.name signature tied)) :
    ∃ signature' tied', tied'.Perm tied ∧
      select r d ms' = .error (.ambiguous d.name signature' tied') := by
  have hcs : (acceptable ancestors ms').Perm (acceptable ancestors ms) := hperm.filterMap _
  obtain ⟨_, hsel⟩ | ⟨w, _, hsel⟩ | ⟨first, second, rest, hbest, hsel⟩ :=
    select_cases hancestors hscored
  · cases hsel.symm.trans h
  · cases hsel.symm.trans h
  · cases hsel.symm.trans h
    obtain ⟨_, hsel'⟩ | ⟨w, _, hsel'⟩ | ⟨first', second', rest', hbest', hsel'⟩ :=
      select_cases hancestors (hscored.perm hcs)
    · cases h.symm.trans ((select_perm hancestors hscored hperm).mp hsel')
    · cases h.symm.trans ((select_perm hancestors hscored hperm).mp hsel')
    · refine ⟨_, _, List.Perm.map _ ?_, hsel'⟩
      exact hbest' ▸ hbest ▸ best_perm hcs

/-- **Selection is the lexicographic optimum.** Let the ancestors of a class and the richness of the
nearest candidates be defined. There is no answer exactly if no method suits the class, and the
answer is a candidate exactly if it is the only best one. Otherwise the best ones are a tie and are
reported in order. A permutation of the methods changes neither the answer nor whether there is a
tie, and a candidate nearer than all others wins. -/
theorem select_optimum (r : Registry) (d : Definition) (ms : List Method)
    (ancestors : List TypeExpr) (hancestors : r.ancestors d = .ok ancestors)
    (hscored : Scored r d (acceptable ancestors ms)) :
    (∀ m c, candidate? ancestors m = some c ↔ Accepts ancestors m c) ∧
    (select r d ms = .ok none ↔ ∀ m ∈ ms, ∀ c, ¬ Accepts ancestors m c) ∧
    (∀ w, select r d ms = .ok (some w) ↔ ∃ before after,
      acceptable ancestors ms = before ++ w :: after ∧ IsBest r d (acceptable ancestors ms) w ∧
        ∀ c ∈ before ++ after, ¬ IsBest r d (acceptable ancestors ms) c) ∧
    ((∀ answer, select r d ms ≠ .ok answer) → ∃ first second rest,
      best r d (acceptable ancestors ms) = first :: second :: rest ∧
        select r d ms = .error (.ambiguous d.name first.method.reducedSignature
          ((first :: second :: rest).map (·.method.declaration)))) ∧
    (∀ ms', ms'.Perm ms →
      (∀ answer, select r d ms' = .ok answer ↔ select r d ms = .ok answer) ∧
      ∀ signature tied, select r d ms = .error (.ambiguous d.name signature tied) →
        ∃ signature' tied', tied'.Perm tied ∧
          select r d ms' = .error (.ambiguous d.name signature' tied')) ∧
    ∀ w before after, acceptable ancestors ms = before ++ w :: after →
      (∀ c ∈ before ++ after, w.distance d < c.distance d) → select r d ms = .ok (some w) := by
  refine ⟨fun _ _ => candidate?_eq_some_iff, ?_, fun w => ?_, fun hnone => ?_, fun ms' hperm => ?_,
    fun w before after hsplit hnearer => ?_⟩
  · rw [select_eq_none_iff hancestors hscored, List.eq_nil_iff_forall_not_mem]
    simp only [mem_acceptable]
    exact ⟨fun h m hm c hc => h c ⟨m, hm, hc⟩, fun h c ⟨m, hm, hc⟩ => h m hm c hc⟩
  · rw [select_eq_some_iff hancestors hscored, best_eq_singleton_iff]
  · obtain ⟨_, h⟩ | ⟨w, _, h⟩ | htie := select_cases hancestors hscored
    · exact absurd h (hnone _)
    · exact absurd h (hnone _)
    · exact htie
  · exact ⟨fun _ => select_perm hancestors hscored hperm,
      fun _ _ => tie_perm hancestors hscored hperm⟩
  · exact (select_eq_some_iff hancestors hscored).mpr (best_of_nearer hsplit hnearer)

/-- `Missing f(Base<T> self)`, `Nowhere f(Base<T> self)` and `Rich f(Gained self)`. -/
def rivals : List Method :=
  [{ Method.make default "f" (.named "Missing")
      [{ type := .generic "Base" [.plain (.named "T")], name := "self" }] with
      typeParams := .ofNames ["T"] },
   { Method.make default "f" (.named "Nowhere")
      [{ type := .generic "Base" [.plain (.named "T")], name := "self" }] with
      typeParams := .ofNames ["T"] },
   Method.make default "f" (.named "Rich") [{ type := .named "Gained", name := "self" }]]

/-- The class `C<S>` inherits `Base<S>` and has gained `Gained` by one conversion. -/
def gainingModel : Registry :=
  { Registry.empty "Forms" with
    definitions :=
      [{ Definition.interface "Base" with typeParams := .ofNames ["X"] }, .interface "Gained",
       (Definition.interface "Rich").withMethod (Method.make default "g" .void []),
       { Definition.make "C" (.namedClass none [.generic "Base" [.plain (.named "S")],
            .named "Gained"] ((∅ : Table ConversionPath).insert "Gained"
              ⟨.generic "Base" [.plain (.named "S")], .named "Gained", "toGained", 1⟩)) with
          typeParams := .ofNames ["S"] }] }

/-- The method with the poorer result wins since its receiver is nearer, and it does so in either
order. With another one like it there is a tie. -/
theorem select_optimum_rivals :
    ∃ d ancestors, gainingModel.get? "C" = some d ∧ gainingModel.ancestors d = .ok ancestors ∧
      Scored gainingModel d (acceptable ancestors rivals) ∧
      Scored gainingModel d (acceptable ancestors (rivals.drop 1)) ∧
      (∃ w, select gainingModel d (rivals.drop 1) = .ok (some w) ∧
        select gainingModel d (rivals.drop 1).reverse = .ok (some w) ∧
        w.method.result.name = "Nowhere") ∧
      ∃ signature, select gainingModel d rivals = .error (.ambiguous "C" signature
        ["<T> Missing f(Base<T> self)", "<T> Nowhere f(Base<T> self)"]) := by
  have hfound : ((gainingModel.get? "C").any fun d =>
      (gainingModel.ancestors d).toOption.any fun as => decide (d.name = "C") &&
        ((select gainingModel d (rivals.drop 1)).toOption.any fun w => w.any fun w =>
          decide (w.method.result.name = "Nowhere")) &&
        decide ((best gainingModel d (acceptable as rivals)).map (·.method.declaration) =
          ["<T> Missing f(Base<T> self)", "<T> Nowhere f(Base<T> self)"]) &&
        !(select gainingModel d rivals).toBool) = true := by
    decide +kernel
  have hrich : ∀ m ∈ rivals,
      ((richness gainingModel m.result).toOption.any fun _ => true) = true := by
    decide +kernel
  have hscored : ∀ d as, ∀ ms ⊆ rivals, Scored gainingModel d (acceptable as ms) := by
    intro d as ms hms c hc _
    obtain ⟨m, hm, hc⟩ := mem_acceptable.mp hc
    obtain ⟨k, hk, _⟩ := Except.exists_of_any (hrich m (hms hm))
    exact ⟨k, hc.method ▸ hk⟩
  obtain ⟨d, hd, hfound⟩ := (Option.any_eq_true _ _).mp hfound
  obtain ⟨as, has, hfound⟩ := Except.exists_of_any hfound
  simp only [Bool.and_eq_true, decide_eq_true_eq, Bool.not_eq_true'] at hfound
  obtain ⟨⟨⟨hname, hwinner⟩, hbest⟩, hfault⟩ := hfound
  obtain ⟨w, hselect, hw⟩ := Except.exists_of_any hwinner
  obtain ⟨w, rfl, hresult⟩ := (Option.any_eq_true _ _).mp hw
  have hdrop := hscored d as (rivals.drop 1) (List.drop_subset 1 rivals)
  have hall := hscored d as rivals (List.Subset.refl _)
  obtain ⟨_, _, _, _, hperm, _⟩ := select_optimum gainingModel d (rivals.drop 1) as has hdrop
  obtain ⟨_, _, _, htie, _⟩ := select_optimum gainingModel d rivals as has hall
  obtain ⟨first, second, rest, htied, htie⟩ := htie fun answer h => by
    simp [h, Except.toBool] at hfault
  rw [htied] at hbest
  rw [hname, hbest] at htie
  have hreverse := ((hperm _ (List.reverse_perm _)).1 _).mpr hselect
  exact ⟨d, as, hd, has, hall, hdrop, ⟨w, hselect, hreverse, of_decide_eq_true hresult⟩, _, htie⟩

end FluentGrammar
