import Mathlib.Data.List.Perm.Basic
import FluentGrammar.DependencyOrder

/-!
# The order of dependencies

Every position is handled or stays blocked. What is handled comes after all it waits for, and what
stays blocked waits for something that is never handled. So where no node is left blocked, the
sorted list has the nodes of the given one, and each node comes after the listed nodes it depends
on.

* `Outcome`: the positions that are handled, in order, and those that stay blocked.
* `drain_outcome`: what becomes of all positions.
* **`sort_before`**: a node comes after what it depends on.
-/

namespace FluentGrammar.DependencyOrder

/-! ## Positions -/

theorem ready_append_blocked_perm (waiting : List Waiting) :
    (ready waiting ++ (blocked waiting).map Waiting.position).Perm
      (waiting.map Waiting.position) := by
  rw [ready, blocked, ← List.map_append]
  exact (List.filter_append_perm Waiting.isReady waiting).map _

theorem position_resolve (done : Nat) (w : Waiting) : (w.resolve done).position = w.position := rfl

theorem position_resolveAll (done : Nat) (waiting : List Waiting) :
    (resolveAll done waiting).map Waiting.position = waiting.map Waiting.position := by
  rw [resolveAll, List.map_map]
  rfl

theorem drain_step_perm (i : Nat) (queue : List Nat) (waiting : List Waiting) :
    ((queue ++ ready (resolveAll i waiting)) ++
      (blocked (resolveAll i waiting)).map Waiting.position).Perm
        (queue ++ waiting.map Waiting.position) := by
  rw [List.append_assoc]
  refine List.Perm.append_left queue ?_
  rw [← position_resolveAll i waiting]
  exact ready_append_blocked_perm _

theorem drain_perm (queue : List Nat) (waiting : List Waiting) :
    ((drain queue waiting).1 ++ (drain queue waiting).2.map Waiting.position).Perm
      (queue ++ waiting.map Waiting.position) := by
  fun_induction drain queue waiting with
  | case1 waiting => exact List.Perm.refl _
  | case2 waiting i queue resolved order rest hd ih =>
    rw [hd] at ih
    exact (ih.trans (drain_step_perm i queue waiting)).cons i

theorem drain_sublist (queue : List Nat) (waiting : List Waiting) :
    ((drain queue waiting).2.map Waiting.position).Sublist (waiting.map Waiting.position) := by
  fun_induction drain queue waiting with
  | case1 waiting => exact List.Sublist.refl _
  | case2 waiting i queue resolved order rest hd ih =>
    rw [hd] at ih
    refine ih.trans ?_
    rw [← position_resolveAll i waiting]
    exact List.filter_sublist.map _

/-- What stays blocked waits for something, and for nothing that has been handled. -/
theorem drain_blocked (queue : List Nat) (waiting : List Waiting)
    (h : ∀ w ∈ waiting, w.outstanding ≠ []) :
    ∀ w ∈ (drain queue waiting).2, w.outstanding ≠ [] ∧ ∃ v ∈ waiting, v.position = w.position ∧
      ∀ j ∈ w.outstanding, j ∈ v.outstanding ∧ j ∉ (drain queue waiting).1 := by
  fun_induction drain queue waiting with
  | case1 waiting => exact fun w hw => ⟨h w hw, w, hw, rfl, fun j hj => ⟨hj, by simp⟩⟩
  | case2 waiting i queue resolved order rest hd ih =>
    rw [hd] at ih
    have hblocked : ∀ w ∈ blocked resolved, w.outstanding ≠ [] := fun w hw => by
      simpa [Waiting.isReady] using (List.mem_filter.mp hw).2
    intro w hw
    obtain ⟨hne, v', hv', hposition, hout⟩ := ih hblocked w hw
    obtain ⟨v, hv, rfl⟩ := List.mem_map.mp (List.mem_filter.mp hv').1
    refine ⟨hne, v, hv, hposition, fun j hj => ?_⟩
    obtain ⟨hj, hnot⟩ := hout j hj
    obtain ⟨hj, hji⟩ := List.mem_filter.mp hj
    exact ⟨hj, List.not_mem_cons_of_ne_of_not_mem (of_decide_eq_true hji) hnot⟩

theorem drain_before (queue : List Nat) (waiting : List Waiting)
    (hn : (queue ++ waiting.map Waiting.position).Nodup) :
    ∀ w ∈ waiting, ∀ j ∈ w.outstanding, ∀ before after,
      (drain queue waiting).1 = before ++ w.position :: after → j ∈ before := by
  fun_induction drain queue waiting with
  | case1 waiting => simp
  | case2 waiting i queue resolved order rest hd ih =>
    intro w hw j hj before after he
    obtain ⟨hi, hrest⟩ := List.nodup_cons.mp hn
    have hne : w.position ≠ i := by
      rintro rfl
      exact hi (List.mem_append_right _ (List.mem_map.mpr ⟨w, hw, rfl⟩))
    rw [hd] at ih
    cases before with
    | nil => exact absurd (List.cons.inj he).1.symm hne
    | cons b before =>
      obtain ⟨rfl, htail⟩ := List.cons.inj he
      by_cases hji : j = i
      · exact hji ▸ List.mem_cons_self
      · -- The position still waits for `j`, so it is blocked.
        have hout : j ∈ (w.resolve i).outstanding :=
          List.mem_filter.mpr ⟨hj, decide_eq_true hji⟩
        have hblocked : w.resolve i ∈ blocked resolved := by
          refine List.mem_filter.mpr ⟨List.mem_map.mpr ⟨w, hw, rfl⟩, ?_⟩
          simpa [Waiting.isReady] using List.ne_nil_of_mem hout
        exact List.mem_cons_of_mem _ (ih ((drain_step_perm i queue waiting).nodup_iff.mpr hrest)
          (w.resolve i) hblocked j hout before after htail)

/-- All positions with their requirements, once the queue has run dry: those handled in `order`, and
the `rest`, which wait for positions that are never handled. -/
structure Outcome (all : List Waiting) (order rest : List Nat) : Prop where
  perm : (order ++ rest).Perm (all.map Waiting.position)
  sublist : rest.Sublist (all.map Waiting.position)
  before : ∀ w ∈ all, ∀ j ∈ w.outstanding, ∀ before after,
    order = before ++ w.position :: after → j ∈ before
  stuck : ∀ i ∈ rest, ∃ w ∈ all, w.position = i ∧ ∃ j ∈ w.outstanding, j ∉ order

theorem mem_blocked {waiting : List Waiting} {w : Waiting} :
    w ∈ blocked waiting ↔ w ∈ waiting ∧ w.outstanding ≠ [] := by
  simp [blocked, Waiting.isReady]

theorem drain_outcome (all : List Waiting) (hn : (all.map Waiting.position).Nodup) :
    Outcome all (drain (ready all) (blocked all)).1
      ((drain (ready all) (blocked all)).2.map Waiting.position) := by
  have hperm := ready_append_blocked_perm all
  refine ⟨(drain_perm _ _).trans hperm, (drain_sublist _ _).trans (List.filter_sublist.map _),
    fun w hw j hj => ?_, fun i hi => ?_⟩
  · exact drain_before _ _ (hperm.nodup_iff.mpr hn) w
      (mem_blocked.mpr ⟨hw, List.ne_nil_of_mem hj⟩) j hj
  · obtain ⟨w, hw, rfl⟩ := List.mem_map.mp hi
    obtain ⟨hne, v, hv, hposition, hout⟩ := drain_blocked _ _
      (fun w hw => (mem_blocked.mp hw).2) w hw
    obtain ⟨j, hj⟩ := List.exists_mem_of_ne_nil _ hne
    exact ⟨v, (mem_blocked.mp hv).1, hposition, j, hout j hj⟩

/-! ## Nodes -/

variable {α : Type} [DecidableEq α] {nodes order : List α} {deps : α → List α}

theorem getElem?_of_lastPosition {a : α} {i : Nat} (h : lastPosition nodes a = some i) :
    nodes[i]? = some a := by
  obtain ⟨⟨b, j⟩, he, rfl⟩ := Option.map_eq_some_iff.mp h
  have hb : b = a := by simpa using List.find?_some he
  have hm := List.mem_reverse.mp (List.mem_of_find?_eq_some he)
  rw [List.mk_mem_zipIdx_iff_getElem?] at hm
  exact hb ▸ hm

theorem exists_lastPosition {a : α} (h : a ∈ nodes) :
    ∃ i, lastPosition nodes a = some i ∧ nodes[i]? = some a := by
  have hsome : (lastPosition nodes a).isSome = true := by
    obtain ⟨i, hi, he⟩ := List.mem_iff_getElem.mp h
    rw [lastPosition, Option.isSome_map, List.find?_isSome]
    refine ⟨(a, i), List.mem_reverse.mpr ?_, by simp⟩
    rw [List.mk_mem_zipIdx_iff_getElem?]
    simp [hi, he]
  obtain ⟨i, hi⟩ := Option.isSome_iff_exists.mp hsome
  exact ⟨i, hi, getElem?_of_lastPosition hi⟩

theorem mem_requirements {w : Waiting} : w ∈ requirements nodes deps ↔
    ∃ a, nodes[w.position]? = some a ∧
      w.outstanding = ((deps a).filterMap (lastPosition nodes)).filter (· ≠ w.position) := by
  rw [requirements, List.mem_map]
  constructor
  · rintro ⟨⟨a, i⟩, hm, rfl⟩
    exact ⟨a, List.mk_mem_zipIdx_iff_getElem?.mp hm, rfl⟩
  · rintro ⟨a, ha, hw⟩
    exact ⟨(a, w.position), List.mk_mem_zipIdx_iff_getElem?.mpr ha, by simp only [← hw]⟩

theorem position_requirements (nodes : List α) (deps : α → List α) :
    (requirements nodes deps).map Waiting.position = List.range nodes.length := by
  rw [requirements, List.map_map]
  exact (List.zipIdx_map_snd 0 nodes).trans List.range_eq_range'.symm

omit [DecidableEq α] in
theorem filterMap_getElem?_range (nodes : List α) :
    (List.range nodes.length).filterMap (nodes[·]?) = nodes := by
  induction nodes with
  | nil => rfl
  | cons a nodes ih =>
    rw [List.length_cons, List.range_succ_eq_map, List.filterMap_cons_some (b := a) (by simp),
      List.filterMap_map]
    exact congrArg (a :: ·) ih

/-- The nodes at the positions that are handled, if these are all, and else those at the others. -/
theorem exists_outcome (nodes : List α) (deps : α → List α) :
    ∃ order rest, Outcome (requirements nodes deps) order rest ∧
      sort nodes deps = if rest = [] then .ok (order.filterMap (nodes[·]?))
        else .error (rest.filterMap (nodes[·]?)) := by
  have hn : ((requirements nodes deps).map Waiting.position).Nodup := by
    rw [position_requirements]
    exact List.nodup_range
  refine ⟨_, _, drain_outcome _ hn, ?_⟩
  simp [sort, List.filterMap_map]

theorem sort_eq_ok (h : sort nodes deps = .ok order) :
    ∃ positions, Outcome (requirements nodes deps) positions [] ∧
      order = positions.filterMap (nodes[·]?) := by
  obtain ⟨positions, rest, hout, hsort⟩ := exists_outcome nodes deps
  rw [h] at hsort
  split at hsort
  · rename_i hrest
    exact ⟨positions, hrest ▸ hout, Except.ok.inj hsort⟩
  · cases hsort

theorem sort_perm (h : sort nodes deps = .ok order) : order.Perm nodes := by
  obtain ⟨positions, hout, rfl⟩ := sort_eq_ok h
  have hperm := hout.perm
  rw [List.append_nil, position_requirements] at hperm
  have := hperm.filterMap (nodes[·]?)
  rwa [filterMap_getElem?_range] at this

theorem Outcome.mem_before {positions rest : List Nat}
    (h : Outcome (requirements nodes deps) positions rest) {before after : List α} {a b : α}
    (he : positions.filterMap (nodes[·]?) = before ++ a :: after) (hb : b ∈ deps a) (hm : b ∈ nodes)
    (hne : b ≠ a) : b ∈ before := by
  obtain ⟨ps, qs, rfl, hps, hqs⟩ := List.filterMap_eq_append_iff.mp he
  obtain ⟨skipped, i, rest, rfl, hskip, hi, _⟩ := List.filterMap_eq_cons_iff.mp hqs
  obtain ⟨j, hj, hjb⟩ := exists_lastPosition hm
  have hw : (⟨i, ((deps a).filterMap (lastPosition nodes)).filter (· ≠ i)⟩ : Waiting) ∈
      requirements nodes deps :=
    mem_requirements.mpr ⟨a, hi, rfl⟩
  have hji : j ≠ i := by
    rintro rfl
    exact hne (Option.some.inj (hjb.symm.trans hi))
  have hmem := h.before _ hw j
    (List.mem_filter.mpr ⟨List.mem_filterMap.mpr ⟨b, hb, hj⟩, decide_eq_true hji⟩)
    (ps ++ skipped) rest (by simp)
  rcases List.mem_append.mp hmem with hmem | hmem
  · exact hps ▸ List.mem_filterMap.mpr ⟨j, hmem, hjb⟩
  · exact absurd (hskip j hmem) (by simp [hjb])

/-- **Dependencies come first.** -/
theorem sort_before (h : sort nodes deps = .ok order) {before after : List α} {a b : α}
    (he : order = before ++ a :: after) (hb : b ∈ deps a) (hm : b ∈ nodes) (hne : b ≠ a) :
    b ∈ before := by
  obtain ⟨positions, hout, rfl⟩ := sort_eq_ok h
  exact hout.mem_before he hb hm hne

end FluentGrammar.DependencyOrder
