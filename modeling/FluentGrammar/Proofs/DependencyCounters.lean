import Mathlib.Data.List.Sort
import FluentGrammar.Proofs.DependencyCycles

/-!
# Counting dependencies

To know when a position is ready, it is enough to count what it waits for. A counter goes down by
one for every dependency on the position that is handled, so repeated dependencies are counted
repeatedly and taken off repeatedly. Here the counters are *checked*: a run ends without an answer
if one would go below zero. This never happens, and the positions are handled as with lists of what
is outstanding.

* `decrement?`, `release?`, `count?`: the run on checked counters.
* `sortByCounters?`: sorting with this run.
* `Tallies`: how counters and dependents go with the queue and the positions that wait.
* `Tallies.step`, `Tallies.count?_eq`: one position is handled, and then all.
* **`sort_topological`**: sorting is correct, and its counters never go below zero.
-/

namespace FluentGrammar.DependencyOrder

/-! ## The run on counters -/

/-- The counters with that of `i` taken down by one, which has to be positive. -/
def decrement? (counters : List Nat) (i : Nat) : Option (List Nat) :=
  match counters[i]? with
  | some (n + 1) => some (counters.set i n)
  | _ => none

/-- The counters taken down by one for every member of the list. The answer begins with the
positions whose counters have come to zero. -/
def release? (counters : List Nat) : List Nat → Option (List Nat × List Nat)
  | [] => some ([], counters)
  | i :: is => do
    let counters ← decrement? counters i
    let (reached, final) ← release? counters is
    return (if counters.getD i 0 = 0 then i :: reached else reached, final)

/-- The number of counters above zero. -/
def pending (counters : List Nat) : Nat :=
  counters.countP (0 < ·)

theorem pending_of_decrement? {counters counters' : List Nat} {i : Nat}
    (h : decrement? counters i = some counters') :
    (if counters'.getD i 0 = 0 then 1 else 0) + pending counters' = pending counters := by
  unfold decrement? at h
  split at h
  · rename_i n hn
    obtain ⟨hi, hget⟩ := List.getElem?_eq_some_iff.mp hn
    have hpos : 0 < counters.countP (0 < ·) :=
      List.countP_pos_iff.mpr ⟨counters[i], List.getElem_mem hi, by simp [hget]⟩
    rw [← Option.some.inj h, pending, pending, List.countP_set hi]
    cases n with
    | zero => simp [hi, hget]; omega
    | succ n => simp [hi, hget]; omega
  · cases h

theorem pending_of_release? {counters counters' is reached : List Nat}
    (h : release? counters is = some (reached, counters')) :
    reached.length + pending counters' = pending counters := by
  induction is generalizing counters reached with
  | nil =>
    obtain ⟨rfl, rfl⟩ := Prod.mk.inj (Option.some.inj h)
    simp
  | cons i is ih =>
    obtain ⟨next, hnext, h⟩ := Option.bind_eq_some_iff.mp h
    obtain ⟨⟨later, final⟩, hlater, h⟩ := Option.bind_eq_some_iff.mp h
    obtain ⟨rfl, rfl⟩ := Prod.mk.inj (Option.some.inj h)
    have hlast := ih hlater
    have hfirst := pending_of_decrement? hnext
    split at hfirst
    · rename_i hzero
      rw [if_pos hzero, List.length_cons]
      omega
    · rename_i hzero
      rw [if_neg hzero]
      omega

/-- Handle the queue from its head, and after it the positions whose counters this brings to zero,
in ascending order. The answer is the order of handling and the counters at the end. -/
def count? (dependents : Nat → List Nat) (queue counters : List Nat) :
    Option (List Nat × List Nat) :=
  match queue with
  | [] => some ([], counters)
  | i :: queue =>
    match _h : release? counters (dependents i) with
    | none => none
    | some (reached, counters') =>
      (count? dependents (queue ++ reached.mergeSort) counters').map fun (order, final) =>
        (i :: order, final)
termination_by queue.length + pending counters
decreasing_by
  have hpending := pending_of_release? _h
  simp only [List.length_append, List.length_mergeSort, List.length_cons]
  omega

/-- The dependencies as pairs: the position that waits and the position it waits for. -/
def edges (all : List Waiting) : List (Nat × Nat) :=
  all.flatMap fun w => w.outstanding.map fun j => (w.position, j)

/-- The number of dependencies of each of the first `n` positions. -/
def degrees (n : Nat) (es : List (Nat × Nat)) : List Nat :=
  (List.range n).map fun i => es.countP (·.1 = i)

/-- The positions that wait for `j`, each as often as it depends on it. -/
def dependents (es : List (Nat × Nat)) (j : Nat) : List Nat :=
  (es.filter (·.2 = j)).map Prod.fst

/-- Sorting with checked counters. There is no answer if one of them would go below zero. -/
def sortByCounters? {α : Type} [DecidableEq α] (nodes : List α) (deps : α → List α) :
    Option (Except (List α) (List α)) :=
  let es := edges (requirements nodes deps)
  let counters := degrees nodes.length es
  let roots := (List.range nodes.length).filter fun i => counters.getD i 0 = 0
  (count? (dependents es) roots counters).map fun (order, counters) =>
    if order.length = nodes.length then .ok (order.filterMap (nodes[·]?))
    else .error (((List.range nodes.length).filter fun i => 0 < counters.getD i 0).filterMap
      (nodes[·]?))

/-! ## Counters that are taken down -/

theorem exists_decrement? {counters : List Nat} {i : Nat} (h : 0 < counters.getD i 0) :
    ∃ counters', decrement? counters i = some counters' ∧
      ∀ p, counters'.getD p 0 = counters.getD p 0 - if p = i then 1 else 0 := by
  obtain ⟨n, hn⟩ := Nat.exists_eq_add_one_of_ne_zero h.ne'
  have hi : counters[i]? = some (n + 1) := by
    cases hget : counters[i]? with
    | none => simp [hget] at hn
    | some m => simpa [hget] using hn
  refine ⟨counters.set i n, by rw [decrement?, hi], fun p => ?_⟩
  have hlt := (List.getElem?_eq_some_iff.mp hi).1
  by_cases hp : p = i
  · rw [hp, if_pos rfl, hn]
    simp [hlt]
  · simp [List.getElem?_set_ne (Ne.symm hp), hp]

/-- If no position occurs more often than its counter says, all counters can be taken down. Those
that come to zero are reached once each. -/
theorem exists_release? {counters is : List Nat} (h : ∀ p, is.count p ≤ counters.getD p 0) :
    ∃ reached final, release? counters is = some (reached, final) ∧
      (∀ p, final.getD p 0 = counters.getD p 0 - is.count p) ∧ reached.Nodup ∧
      ∀ p, p ∈ reached ↔ p ∈ is ∧ counters.getD p 0 = is.count p := by
  induction is generalizing counters with
  | nil => exact ⟨[], counters, rfl, by simp, List.nodup_nil, by simp⟩
  | cons i is ih =>
    have hi : 0 < counters.getD i 0 := by
      have := h i
      rw [List.count_cons_self] at this
      omega
    obtain ⟨next, hnext, hget⟩ := exists_decrement? hi
    have hcount : ∀ p, (i :: is).count p = is.count p + if p = i then 1 else 0 := by
      intro p
      by_cases hp : p = i
      · rw [hp, List.count_cons_self, if_pos rfl]
      · rw [List.count_cons_of_ne (Ne.symm hp), if_neg hp, Nat.add_zero]
    have hle : ∀ p, is.count p ≤ next.getD p 0 := by
      intro p
      have := h p
      rw [hcount] at this
      rw [hget]
      omega
    obtain ⟨reached, final, hrelease, hfinal, hnodup, hmem⟩ := ih hle
    have hreached : ∀ p, p ∈ reached ↔ p ∈ is ∧ counters.getD p 0 = (i :: is).count p := by
      intro p
      rw [hmem, hget, hcount]
      refine and_congr_right fun hp => ?_
      have := h p
      rw [hcount] at this
      omega
    -- The counter of `i` comes to zero here if `i` does not occur again.
    have hzero : next.getD i 0 = 0 ↔ i ∉ is ∧ counters.getD i 0 = (i :: is).count i := by
      have := h i
      rw [hcount, if_pos rfl] at this
      rw [hget, hcount, if_pos rfl, ← List.count_eq_zero]
      omega
    refine ⟨if next.getD i 0 = 0 then i :: reached else reached, final, ?_, fun p => ?_, ?_,
      fun p => ?_⟩
    · simp [release?, hnext, hrelease]
    · rw [hfinal, hget, hcount]
      omega
    · split
      · rename_i hnext0
        exact List.nodup_cons.mpr ⟨fun hm => (hzero.mp hnext0).1 ((hreached i).mp hm).1, hnodup⟩
      · exact hnodup
    · rw [List.mem_cons]
      by_cases hp : p = i
      · subst hp
        split
        · rename_i hnext0
          exact ⟨fun _ => ⟨.inl rfl, (hzero.mp hnext0).2⟩, fun _ => List.mem_cons_self⟩
        · rename_i hnext0
          rw [hreached]
          refine ⟨fun hm => ⟨.inl rfl, hm.2⟩, fun hm => ⟨?_, hm.2⟩⟩
          by_contra hnot
          exact hnext0 (hzero.mpr ⟨hnot, hm.2⟩)
      · split <;> simp only [List.mem_cons, hreached, hp, false_or]

/-! ## Counters beside lists -/

/-- The counters of a run with the positions that it has not handled yet, those in the queue and
those that wait. A waiting position is counted as often as it has something outstanding, and is a
dependent of an unhandled position as often as that is outstanding. Nothing else is counted or a
dependent. -/
structure Tallies (dependents : Nat → List Nat) (queue : List Nat) (waiting : List Waiting)
    (counters : List Nat) : Prop where
  nodup : (queue ++ waiting.map Waiting.position).Nodup
  ascending : (waiting.map Waiting.position).Pairwise (· < ·)
  outstanding : ∀ w ∈ waiting, w.outstanding ≠ []
  counter : ∀ w ∈ waiting, counters.getD w.position 0 = w.outstanding.length
  zero : ∀ p, p ∉ waiting.map Waiting.position → counters.getD p 0 = 0
  count : ∀ i ∈ queue ++ waiting.map Waiting.position, ∀ w ∈ waiting,
    (dependents i).count w.position = w.outstanding.count i
  only : ∀ i ∈ queue ++ waiting.map Waiting.position, ∀ p ∈ dependents i,
    p ∈ waiting.map Waiting.position

section Run

variable {next : Nat → List Nat} {queue counters : List Nat} {waiting : List Waiting} {i : Nat}

theorem mem_ready {waiting : List Waiting} {p : Nat} :
    p ∈ ready waiting ↔ ∃ w ∈ waiting, w.outstanding = [] ∧ w.position = p := by
  simp [ready, Waiting.isReady, and_assoc]

theorem length_outstanding_resolve (i : Nat) (w : Waiting) :
    (w.resolve i).outstanding.length + w.outstanding.count i = w.outstanding.length := by
  have h := List.length_eq_countP_add_countP (· == i) (l := w.outstanding)
  rw [List.count, h, Waiting.resolve, ← List.countP_eq_length_filter, Nat.add_comm]
  congr 2
  funext j
  simp

theorem Tallies.count_le (h : Tallies next (i :: queue) waiting counters) (p : Nat) :
    (next i).count p ≤ counters.getD p 0 := by
  by_cases hp : p ∈ waiting.map Waiting.position
  · obtain ⟨w, hw, rfl⟩ := List.mem_map.mp hp
    rw [h.count i List.mem_cons_self w hw, h.counter w hw]
    exact List.count_le_length
  · rw [List.count_eq_zero.mpr fun hm => hp (h.only i List.mem_cons_self p hm)]
    exact Nat.zero_le _

theorem Tallies.reached_iff (h : Tallies next (i :: queue) waiting counters) (p : Nat) :
    (p ∈ next i ∧ counters.getD p 0 = (next i).count p) ↔ p ∈ ready (resolveAll i waiting) := by
  rw [mem_ready]
  constructor
  · rintro ⟨hp, hcount⟩
    obtain ⟨w, hw, rfl⟩ := List.mem_map.mp (h.only i List.mem_cons_self p hp)
    rw [h.counter w hw, h.count i List.mem_cons_self w hw] at hcount
    have hlength := length_outstanding_resolve i w
    refine ⟨w.resolve i, List.mem_map.mpr ⟨w, hw, rfl⟩, List.eq_nil_of_length_eq_zero ?_, rfl⟩
    omega
  · rintro ⟨v, hv, hnil, rfl⟩
    obtain ⟨w, hw, rfl⟩ := List.mem_map.mp hv
    have hlength := length_outstanding_resolve i w
    rw [hnil, List.length_nil, Nat.zero_add] at hlength
    have hcount := h.count i List.mem_cons_self w hw
    refine ⟨?_, ?_⟩
    · rw [← List.count_pos_iff, position_resolve, hcount, hlength]
      exact List.length_pos_iff.mpr (h.outstanding w hw)
    · rw [position_resolve, h.counter w hw, hcount, hlength]

theorem Tallies.ascending_resolveAll (h : Tallies next queue waiting counters) (i : Nat) :
    ((resolveAll i waiting).map Waiting.position).Pairwise (· < ·) := by
  rw [position_resolveAll]
  exact h.ascending

theorem Tallies.mergeSort_eq_ready (h : Tallies next (i :: queue) waiting counters)
    {reached : List Nat} (hnodup : reached.Nodup)
    (hmem : ∀ p, p ∈ reached ↔ p ∈ next i ∧ counters.getD p 0 = (next i).count p) :
    reached.mergeSort = ready (resolveAll i waiting) := by
  have hsorted : reached.mergeSort.Pairwise (· < ·) := by
    have hdistinct : reached.mergeSort.Nodup := (List.mergeSort_perm _ _).nodup_iff.mpr hnodup
    exact ((List.pairwise_mergeSort' (· ≤ ·) reached).and hdistinct).imp fun hab =>
      Nat.lt_of_le_of_ne hab.1 hab.2
  have hready : (ready (resolveAll i waiting)).Pairwise (· < ·) :=
    (h.ascending_resolveAll i).sublist (List.filter_sublist.map _)
  exact hsorted.eq_of_mem_iff hready fun p =>
    (List.mergeSort_perm _ _).mem_iff.trans ((hmem p).trans (h.reached_iff p))

/-- Counters that are taken down for one position go with what is then in the queue and waits. -/
theorem Tallies.handle (h : Tallies next (i :: queue) waiting counters) {final : List Nat}
    (hfinal : ∀ p, final.getD p 0 = counters.getD p 0 - (next i).count p) :
    Tallies next (queue ++ ready (resolveAll i waiting)) (blocked (resolveAll i waiting))
      final := by
  obtain ⟨hi, hn⟩ := List.nodup_cons.mp h.nodup
  have hstep := drain_step_perm i queue waiting
  have hblocked : ∀ v ∈ blocked (resolveAll i waiting), ∃ w ∈ waiting, v = w.resolve i := by
    intro v hv
    obtain ⟨w, hw, rfl⟩ := List.mem_map.mp (mem_blocked.mp hv).1
    exact ⟨w, hw, rfl⟩
  have hunhandled : ∀ {j}, j ∈ queue ++ ready (resolveAll i waiting) ++
      (blocked (resolveAll i waiting)).map Waiting.position →
      j ∈ i :: queue ++ waiting.map Waiting.position ∧ j ≠ i := by
    intro j hj
    have hj := hstep.mem_iff.mp hj
    exact ⟨List.mem_cons_of_mem _ hj, fun he => hi (he ▸ hj)⟩
  refine ⟨hstep.nodup_iff.mpr hn,
    (h.ascending_resolveAll i).sublist (List.filter_sublist.map _),
    fun v hv => (mem_blocked.mp hv).2, fun v hv => ?_, fun p hp => ?_, fun j hj v hv => ?_,
    fun j hj p hp => ?_⟩
  · obtain ⟨w, hw, rfl⟩ := hblocked v hv
    have hlength := length_outstanding_resolve i w
    rw [hfinal, position_resolve, h.counter w hw, h.count i List.mem_cons_self w hw]
    omega
  · rw [hfinal]
    by_cases hw : p ∈ waiting.map Waiting.position
    · -- A position that no longer waits has become ready.
      have hp' : p ∈ next i ∧ counters.getD p 0 = (next i).count p := by
        rw [h.reached_iff]
        rw [← position_resolveAll i waiting, ← (ready_append_blocked_perm _).mem_iff] at hw
        exact (List.mem_append.mp hw).resolve_right hp
      omega
    · rw [h.zero p hw, Nat.zero_sub]
  · obtain ⟨w, hw, rfl⟩ := hblocked v hv
    obtain ⟨hj, hji⟩ := hunhandled hj
    rw [position_resolve, h.count j hj w hw, Waiting.resolve]
    exact (List.count_filter (p := fun x => decide (x ≠ i)) (decide_eq_true hji)).symm
  · obtain ⟨hj, hji⟩ := hunhandled hj
    obtain ⟨w, hw, rfl⟩ := List.mem_map.mp (h.only j hj p hp)
    have hout : j ∈ w.outstanding := by
      rw [← List.count_pos_iff, ← h.count j hj w hw]
      exact List.count_pos_iff.mpr hp
    have hne : (w.resolve i).outstanding ≠ [] :=
      List.ne_nil_of_mem (List.mem_filter.mpr ⟨hout, decide_eq_true hji⟩)
    exact List.mem_map.mpr ⟨w.resolve i, mem_blocked.mpr ⟨List.mem_map.mpr ⟨w, hw, rfl⟩, hne⟩, rfl⟩

/-- **One position is handled.** The counters can be taken down, and those that come to zero belong
to the positions that become ready. -/
theorem Tallies.step (h : Tallies next (i :: queue) waiting counters) :
    ∃ reached final, release? counters (next i) = some (reached, final) ∧
      reached.mergeSort = ready (resolveAll i waiting) ∧
      Tallies next (queue ++ ready (resolveAll i waiting)) (blocked (resolveAll i waiting))
        final := by
  obtain ⟨reached, final, hrelease, hfinal, hnodup, hmem⟩ := exists_release? h.count_le
  exact ⟨reached, final, hrelease, h.mergeSort_eq_ready hnodup hmem, h.handle hfinal⟩

theorem count?_cons {reached final : List Nat}
    (h : release? counters (next i) = some (reached, final)) :
    count? next (i :: queue) counters =
      (count? next (queue ++ reached.mergeSort) final).map fun (order, last) =>
        (i :: order, last) := by
  rw [count?]
  split
  · rename_i hnone
    rw [h] at hnone
    cases hnone
  · rename_i hsome
    obtain ⟨rfl, rfl⟩ := Prod.mk.inj (Option.some.inj (h.symm.trans hsome))
    rfl

/-- **All positions are handled** in the same order as with lists. -/
theorem Tallies.count?_eq (h : Tallies next queue waiting counters) :
    ∃ final, count? next queue counters = some ((drain queue waiting).1, final) ∧
      Tallies next [] (drain queue waiting).2 final := by
  fun_induction drain queue waiting generalizing counters with
  | case1 waiting => exact ⟨counters, by rw [count?], h⟩
  | case2 waiting i queue resolved order rest hd =>
    rename_i ih
    obtain ⟨reached, final, hrelease, hreached, hnext⟩ := h.step
    obtain ⟨last, hcount, hlast⟩ := ih hnext
    rw [hd] at hcount hlast
    refine ⟨last, ?_, hlast⟩
    rw [count?_cons hrelease, hreached, hcount]
    rfl

end Run

/-! ## Sorting with counters -/

section Start

variable {all : List Waiting} {w : Waiting} {n : Nat}

theorem mem_edges {e : Nat × Nat} :
    e ∈ edges all ↔ ∃ w ∈ all, w.position = e.1 ∧ e.2 ∈ w.outstanding := by
  simp only [edges, List.mem_flatMap, List.mem_map]
  constructor
  · rintro ⟨w, hw, j, hj, rfl⟩
    exact ⟨w, hw, rfl, hj⟩
  · rintro ⟨w, hw, hfst, hsnd⟩
    exact ⟨w, hw, e.2, hsnd, by rw [hfst]⟩

theorem countP_edges (hn : (all.map Waiting.position).Nodup) (hw : w ∈ all) (p : Nat → Bool) :
    (edges all).countP (fun e => e.1 = w.position && p e.2) = w.outstanding.countP p := by
  induction all with
  | nil => cases hw
  | cons v all ih =>
    obtain ⟨hv, hn⟩ := List.nodup_cons.mp hn
    rw [show edges (v :: all) = v.outstanding.map (fun j => (v.position, j)) ++ edges all from rfl,
      List.countP_append, List.countP_map]
    rcases List.mem_cons.mp hw with rfl | hw
    · have hnone : (edges all).countP (fun e => e.1 = w.position && p e.2) = 0 := by
        rw [List.countP_eq_zero]
        intro e he hp
        obtain ⟨u, hu, hfst, _⟩ := mem_edges.mp he
        have hsame : e.1 = w.position := by simpa using (Bool.and_eq_true_iff.mp hp).1
        exact hv (List.mem_map.mpr ⟨u, hu, hfst.trans hsame⟩)
      rw [hnone]
      simp [Function.comp_def]
    · have hne : v.position ≠ w.position := fun he => hv (he ▸ List.mem_map.mpr ⟨w, hw, rfl⟩)
      rw [ih hn hw]
      simp [Function.comp_def, hne]

theorem nodup_position (hall : all.map Waiting.position = List.range n) :
    (all.map Waiting.position).Nodup :=
  hall ▸ List.nodup_range

theorem getD_degrees (hall : all.map Waiting.position = List.range n) (hw : w ∈ all) :
    (degrees n (edges all)).getD w.position 0 = w.outstanding.length := by
  have hlt : w.position < n := by
    rw [← List.mem_range, ← hall]
    exact List.mem_map.mpr ⟨w, hw, rfl⟩
  have hcount := countP_edges (nodup_position hall) hw fun _ => true
  rw [List.countP_true] at hcount
  simpa [degrees, hlt] using hcount

theorem count_dependents (hn : (all.map Waiting.position).Nodup) (hw : w ∈ all) (i : Nat) :
    (dependents (edges all) i).count w.position = w.outstanding.count i := by
  rw [dependents, List.count, List.countP_map, List.countP_filter, List.count,
    ← countP_edges hn hw (· == i)]
  exact List.countP_congr fun e _ => by simp

theorem tallies_start (hall : all.map Waiting.position = List.range n) :
    Tallies (dependents (edges all)) (ready all) (blocked all) (degrees n (edges all)) := by
  have hperm := ready_append_blocked_perm all
  have hn := nodup_position hall
  refine ⟨hperm.nodup_iff.mpr hn, ?_, fun w hw => (mem_blocked.mp hw).2,
    fun w hw => getD_degrees hall (mem_blocked.mp hw).1, fun p hp => ?_,
    fun i _ w hw => count_dependents hn (mem_blocked.mp hw).1 i, fun i _ p hp => ?_⟩
  · refine List.Pairwise.sublist (List.filter_sublist.map _) ?_
    rw [hall]
    exact List.pairwise_lt_range
  · by_cases hlt : p < n
    · rw [← List.mem_range, ← hall, ← hperm.mem_iff] at hlt
      obtain ⟨w, hw, hnil, rfl⟩ := mem_ready.mp ((List.mem_append.mp hlt).resolve_right hp)
      rw [getD_degrees hall hw, hnil, List.length_nil]
    · simp [degrees, hlt]
  · obtain ⟨e, he, rfl⟩ := List.mem_map.mp hp
    obtain ⟨w, hw, hfst, hsnd⟩ := mem_edges.mp (List.mem_filter.mp he).1
    exact List.mem_map.mpr ⟨w, mem_blocked.mpr ⟨hw, List.ne_nil_of_mem hsnd⟩, hfst⟩

theorem roots_eq_ready (hall : all.map Waiting.position = List.range n) :
    ((List.range n).filter fun i => (degrees n (edges all)).getD i 0 = 0) = ready all := by
  rw [← hall, List.filter_map, ready]
  refine congrArg (List.map Waiting.position) (List.filter_congr fun w hw => ?_)
  rw [Function.comp_apply, getD_degrees hall hw, Bool.eq_iff_iff, decide_eq_true_iff,
    List.length_eq_zero_iff]
  exact List.isEmpty_iff.symm

theorem Tallies.filter_pos {next : Nat → List Nat} {waiting : List Waiting} {counters : List Nat}
    (h : Tallies next [] waiting counters)
    (hsublist : (waiting.map Waiting.position).Sublist (List.range n)) :
    ((List.range n).filter fun i => 0 < counters.getD i 0) = waiting.map Waiting.position := by
  have hmem : ∀ p, 0 < counters.getD p 0 ↔ p ∈ waiting.map Waiting.position := by
    intro p
    constructor
    · intro hpos
      by_contra hp
      exact hpos.ne' (h.zero p hp)
    · intro hp
      obtain ⟨w, hw, rfl⟩ := List.mem_map.mp hp
      rw [h.counter w hw]
      exact List.length_pos_iff.mpr (h.outstanding w hw)
  refine (List.pairwise_lt_range.filter _).eq_of_mem_iff h.ascending fun p => ?_
  rw [List.mem_filter, decide_eq_true_iff, hmem]
  exact ⟨And.right, fun hp => ⟨hsublist.subset hp, hp⟩⟩

end Start

variable {α : Type} [DecidableEq α]

/-- **Counters never go below zero**, and sorting with them gives the same answer. -/
theorem sortByCounters?_eq (nodes : List α) (deps : α → List α) :
    sortByCounters? nodes deps = some (sort nodes deps) := by
  have hall := position_requirements nodes deps
  obtain ⟨final, hcount, htallies⟩ := (tallies_start hall).count?_eq
  have hout := drain_outcome _ (nodup_position hall)
  rw [sortByCounters?, roots_eq_ready hall, hcount]
  simp only [Option.map_some, sort]
  generalize drain (ready (requirements nodes deps)) (blocked (requirements nodes deps)) = result
    at htallies hout ⊢
  obtain ⟨order, rest⟩ := result
  have hsublist : (rest.map Waiting.position).Sublist (List.range nodes.length) :=
    hall ▸ hout.sublist
  have hlength : order.length + rest.length = nodes.length := by
    simpa [hall] using hout.perm.length_eq
  -- All positions have been handled if nothing is left to wait.
  have hempty : order.length = nodes.length ↔ rest.isEmpty = true := by
    rw [List.isEmpty_iff, ← List.length_eq_zero_iff]
    omega
  simp only [htallies.filter_pos hsublist, hempty, List.filterMap_map, Function.comp_def]

/-- **Sorting is correct.** It succeeds if and only if no node depends on itself by way of different
listed nodes. The sorted list has the same nodes, and every node comes after the listed nodes it
depends on. Counters for what is outstanding never go below zero: with a check for this there is
always an answer, which is the same. -/
theorem sort_topological (nodes : List α) (deps : α → List α) (hn : nodes.Nodup) :
    ((∃ order, sort nodes deps = .ok order) ↔
      ∀ a, ¬ Relation.TransGen (Requires nodes deps) a a) ∧
    (∀ order, sort nodes deps = .ok order → order.Perm nodes ∧ InOrder nodes deps order) ∧
    sortByCounters? nodes deps = some (sort nodes deps) := by
  refine ⟨sort_ok_iff hn deps, fun order h => ⟨sort_perm h, fun before a after he b hb => ?_⟩,
    sortByCounters?_eq nodes deps⟩
  exact sort_before h he hb.1 hb.2.1 hb.2.2

/-- `C` depends on `B` twice and on something that is not listed, `B` on itself and on `A`. -/
theorem sort_topological_repeated :
    let nodes := ["C", "B", "A"]
    let deps := fun name => ([("C", ["B", "X", "B"]), ("B", ["B", "A"])].lookup name).getD []
    nodes.Nodup ∧ sort nodes deps = .ok ["A", "B", "C"] ∧
      (∀ a, ¬ Relation.TransGen (Requires nodes deps) a a) ∧
      InOrder nodes deps ["A", "B", "C"] ∧
      sortByCounters? nodes deps = some (.ok ["A", "B", "C"]) := by
  intro nodes deps
  have hn : nodes.Nodup := by decide
  have h : sort nodes deps = .ok ["A", "B", "C"] := by decide +kernel
  obtain ⟨hacyclic, horder, hcounters⟩ := sort_topological nodes deps hn
  exact ⟨hn, h, hacyclic.mp ⟨_, h⟩, (horder _ h).2, hcounters.trans (congrArg some h)⟩

end FluentGrammar.DependencyOrder
