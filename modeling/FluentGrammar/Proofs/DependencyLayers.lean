import Mathlib.Data.Set.Finite.Lattice
import Mathlib.Order.Lattice.Nat
import FluentGrammar.Proofs.DependencyCycles

/-!
# Layers of dependencies

The queue is handled from its head and grows at its end, so the nodes are sorted layer by layer: the
depth of a node, which is the length of its longest chain of dependencies, never goes down. The
queue holds at any time nodes of at most two adjacent layers, and what becomes ready belongs to the
layer after that of the node just handled. Nodes that wait for the same become ready together and
keep the order of the list.

* `chainLengths`, `depth`: chains of dependencies, and the length of the longest.
* `Layered`: the queue and the positions that wait, seen by layers.
* `Layered.step`, `Layered.drain`: one position is handled, and then all.
* `drain_pair`: positions that wait for the same keep their order.
* **`sort_layered`**: the sorted list goes layer by layer and is stable.
-/

namespace FluentGrammar.DependencyOrder

variable {α : Type} {nodes order : List α} {deps : α → List α} {a b : α}

/-! ## Pairs in a list -/

theorem pair_sublist_or {l : List α} (ha : a ∈ l) (hb : b ∈ l) (hne : a ≠ b) :
    [a, b].Sublist l ∨ [b, a].Sublist l := by
  induction l with
  | nil => cases ha
  | cons c l ih =>
    rcases List.mem_cons.mp ha with rfl | hal
    · have hbl := (List.mem_cons.mp hb).resolve_left hne.symm
      exact .inl (List.cons_sublist_cons.mpr (List.singleton_sublist.mpr hbl))
    · rcases List.mem_cons.mp hb with rfl | hbl
      · exact .inr (List.cons_sublist_cons.mpr (List.singleton_sublist.mpr hal))
      · exact (ih hal hbl).imp (.cons c) (.cons c)

theorem not_pair_sublist {l : List α} (hl : l.Nodup) (h : [a, b].Sublist l) :
    ¬ [b, a].Sublist l := by
  induction l with
  | nil => cases h
  | cons c l ih =>
    obtain ⟨hc, hl⟩ := List.nodup_cons.mp hl
    have hmem : ∀ {x y : α}, [x, y].Sublist (c :: l) → y ∈ l := by
      intro x y hxy
      cases hxy with
      | cons _ hxy => exact hxy.subset (by simp)
      | cons_cons _ hy => exact hy.subset (by simp)
    intro hba
    have ha := hmem hba
    have hb := hmem h
    cases h with
    | cons_cons => exact hc ha
    | cons _ h =>
      cases hba with
      | cons_cons => exact hc hb
      | cons _ hba => exact ih hl h hba

/-! ## Depth -/

/-- The lengths of the chains of dependencies that begin at `a`, where `a` itself is not counted. -/
def chainLengths (nodes : List α) (deps : α → List α) (a : α) : Set Nat :=
  {n | ∃ l, List.IsChain (Requires nodes deps) (a :: l) ∧ l.length = n}

/-- The length of the longest chain of dependencies that begins at `a`. -/
noncomputable def depth (nodes : List α) (deps : α → List α) (a : α) : Nat :=
  sSup (chainLengths nodes deps a)

theorem zero_mem_chainLengths : 0 ∈ chainLengths nodes deps a :=
  ⟨[], List.isChain_singleton a, rfl⟩

theorem succ_mem_chainLengths {n : Nat} : n + 1 ∈ chainLengths nodes deps a ↔
    ∃ b, Requires nodes deps a b ∧ n ∈ chainLengths nodes deps b := by
  constructor
  · rintro ⟨l, hl, hn⟩
    cases l with
    | nil => cases hn
    | cons b l =>
      obtain ⟨hab, hl⟩ := List.isChain_cons_cons.mp hl
      exact ⟨b, hab, l, hl, Nat.succ.inj hn⟩
  · rintro ⟨b, hab, l, hl, rfl⟩
    exact ⟨b :: l, List.isChain_cons_cons.mpr ⟨hab, hl⟩, rfl⟩

/-- Where dependencies come to an end, chains are bounded: a node requires finitely many others. -/
theorem bddAbove_chainLengths (h : Acc (fun b a => Requires nodes deps a b) a) :
    BddAbove (chainLengths nodes deps a) := by
  induction h with
  | intro a _ ih =>
    have hfinite : {b | Requires nodes deps a b}.Finite :=
      (List.finite_toSet nodes).subset fun b hb => hb.2.1
    obtain ⟨bound, hbound⟩ := hfinite.bddAbove_biUnion.mpr ih
    refine ⟨bound + 1, fun n hn => ?_⟩
    cases n with
    | zero => exact Nat.zero_le _
    | succ n =>
      obtain ⟨b, hab, hn⟩ := succ_mem_chainLengths.mp hn
      exact Nat.succ_le_succ (hbound (Set.mem_biUnion hab hn))

theorem isGreatest_depth (h : Acc (fun b a => Requires nodes deps a b) a) :
    IsGreatest (chainLengths nodes deps a) (depth nodes deps a) :=
  ⟨Nat.sSup_mem ⟨0, zero_mem_chainLengths⟩ (bddAbove_chainLengths h),
    fun _ hn => le_csSup (bddAbove_chainLengths h) hn⟩

theorem depth_lt (h : Acc (fun b a => Requires nodes deps a b) a) (hab : Requires nodes deps a b) :
    depth nodes deps b < depth nodes deps a :=
  (isGreatest_depth h).2 (succ_mem_chainLengths.mpr ⟨b, hab, (isGreatest_depth (h.inv hab)).1⟩)

/-- A longest chain goes on with a longest chain. -/
theorem depth_eq_zero_or_succ (h : Acc (fun b a => Requires nodes deps a b) a) :
    depth nodes deps a = 0 ∨
      ∃ b, Requires nodes deps a b ∧ depth nodes deps a = depth nodes deps b + 1 := by
  cases hn : depth nodes deps a with
  | zero => exact .inl rfl
  | succ n =>
    obtain ⟨b, hab, hb⟩ := succ_mem_chainLengths.mp (hn ▸ (isGreatest_depth h).1)
    refine .inr ⟨b, hab, ?_⟩
    have hle := (isGreatest_depth (h.inv hab)).2 hb
    have hlt := depth_lt h hab
    omega

/-! ## Layers of positions -/

section Positions

variable {rank : Nat → Nat} {floor i : Nat} {queue : List Nat} {waiting : List Waiting}

/-- The rank of each position is one more than the greatest rank that it waits for. -/
def Ranks (rank : Nat → Nat) (all : List Waiting) : Prop :=
  ∀ w ∈ all, (∀ j ∈ w.outstanding, rank j < rank w.position) ∧
    (rank w.position = 0 ∨ ∃ j ∈ w.outstanding, rank w.position = rank j + 1)

/-- The queue is ordered by rank and holds positions of rank `floor`, and after them of the next
one. A position that waits comes after what it waits for; it has at most the rank after `floor`,
unless something of the rank before its own is still outstanding. -/
structure Layered (rank : Nat → Nat) (floor : Nat) (queue : List Nat) (waiting : List Waiting) :
    Prop where
  ordered : queue.Pairwise fun i j => rank i ≤ rank j
  span : ∀ i ∈ queue, floor ≤ rank i ∧ rank i ≤ floor + 1
  outstanding : ∀ w ∈ waiting, w.outstanding ≠ []
  below : ∀ w ∈ waiting, ∀ j ∈ w.outstanding, rank j < rank w.position
  next : ∀ w ∈ waiting, rank w.position ≤ floor + 1 ∨
    ∃ j ∈ w.outstanding, rank w.position = rank j + 1

theorem mem_outstanding_resolve {w : Waiting} {j : Nat} :
    j ∈ (w.resolve i).outstanding ↔ j ∈ w.outstanding ∧ j ≠ i := by
  simp [Waiting.resolve]

/-- Once `i` is handled, a position has at most the rank after that of `i`, unless something of the
rank before its own is still outstanding. -/
theorem Layered.next_resolve (h : Layered rank floor (i :: queue) waiting) {w : Waiting}
    (hw : w ∈ waiting) : rank w.position ≤ rank i + 1 ∨
      ∃ j ∈ (w.resolve i).outstanding, rank w.position = rank j + 1 := by
  have hfloor := (h.span i List.mem_cons_self).1
  rcases h.next w hw with hle | ⟨j, hj, hrank⟩
  · exact .inl (by omega)
  · by_cases hji : j = i
    · exact .inl (hji ▸ hrank.le)
    · exact .inr ⟨j, mem_outstanding_resolve.mpr ⟨hj, hji⟩, hrank⟩

theorem Layered.rank_of_mem_ready (h : Layered rank floor (i :: queue) waiting) {p : Nat}
    (hp : p ∈ ready (resolveAll i waiting)) : rank p = rank i + 1 := by
  obtain ⟨v, hv, rfl⟩ := List.mem_map.mp hp
  obtain ⟨hv, hready⟩ := List.mem_filter.mp hv
  obtain ⟨w, hw, rfl⟩ := List.mem_map.mp hv
  have hnil : (w.resolve i).outstanding = [] := List.isEmpty_iff.mp hready
  -- It waited for `i` and for nothing else.
  obtain ⟨j, hj⟩ := List.exists_mem_of_ne_nil _ (h.outstanding w hw)
  have hji : j = i := by
    by_contra hne
    simpa [hnil] using mem_outstanding_resolve.mpr ⟨hj, hne⟩
  have hlt := h.below w hw j hj
  have hle : rank w.position ≤ rank i + 1 := by simpa [hnil] using h.next_resolve hw
  rw [hji] at hlt
  rw [position_resolve]
  omega

/-- **One position is handled**, and its rank is the new floor. -/
theorem Layered.step (h : Layered rank floor (i :: queue) waiting) :
    Layered rank (rank i) (queue ++ ready (resolveAll i waiting))
      (blocked (resolveAll i waiting)) := by
  obtain ⟨hhead, htail⟩ := List.pairwise_cons.mp h.ordered
  have hfloor := (h.span i List.mem_cons_self).1
  have hspan : ∀ j ∈ queue, rank j ≤ rank i + 1 := fun j hj => by
    have := (h.span j (List.mem_cons_of_mem _ hj)).2
    omega
  have hblocked : ∀ v ∈ blocked (resolveAll i waiting), ∃ w ∈ waiting, v = w.resolve i := by
    intro v hv
    obtain ⟨w, hw, rfl⟩ := List.mem_map.mp (mem_blocked.mp hv).1
    exact ⟨w, hw, rfl⟩
  refine ⟨List.pairwise_append.mpr ⟨htail, ?_, fun j hj p hp => ?_⟩, fun j hj => ?_,
    fun v hv => (mem_blocked.mp hv).2, fun v hv j hj => ?_, fun v hv => ?_⟩
  · refine List.pairwise_iff_forall_sublist.mpr fun {p q} hpq => ?_
    have hp : p ∈ ready (resolveAll i waiting) := hpq.subset (by simp)
    have hq : q ∈ ready (resolveAll i waiting) := hpq.subset (by simp)
    rw [h.rank_of_mem_ready hp, h.rank_of_mem_ready hq]
  · rw [h.rank_of_mem_ready hp]
    exact hspan j hj
  · rcases List.mem_append.mp hj with hj | hj
    · exact ⟨hhead j hj, hspan j hj⟩
    · rw [h.rank_of_mem_ready hj]
      omega
  · obtain ⟨w, hw, rfl⟩ := hblocked v hv
    exact h.below w hw j (mem_outstanding_resolve.mp hj).1
  · obtain ⟨w, hw, rfl⟩ := hblocked v hv
    exact h.next_resolve hw

/-- **All positions are handled** in the order of their ranks. -/
theorem Layered.drain (h : Layered rank floor queue waiting) :
    (drain queue waiting).1.Pairwise (fun i j => rank i ≤ rank j) ∧
      ∀ j ∈ (DependencyOrder.drain queue waiting).1, floor ≤ rank j := by
  fun_induction DependencyOrder.drain queue waiting generalizing floor with
  | case1 waiting => exact ⟨List.Pairwise.nil, by simp⟩
  | case2 waiting i queue resolved order rest hd =>
    rename_i ih
    obtain ⟨hordered, hge⟩ := ih h.step
    rw [hd] at hordered hge
    have hfloor := (h.span i List.mem_cons_self).1
    refine ⟨List.pairwise_cons.mpr ⟨hge, hordered⟩, List.forall_mem_cons.mpr ⟨hfloor, ?_⟩⟩
    exact fun j hj => hfloor.trans (hge j hj)

theorem Ranks.layered (h : Ranks rank waiting) :
    Layered rank 0 (ready waiting) (blocked waiting) := by
  have hzero : ∀ p ∈ ready waiting, rank p = 0 := by
    intro p hp
    obtain ⟨w, hw, rfl⟩ := List.mem_map.mp hp
    obtain ⟨hw, hready⟩ := List.mem_filter.mp hw
    simpa [List.isEmpty_iff.mp hready] using (h w hw).2
  refine ⟨List.pairwise_iff_forall_sublist.mpr fun {p q} hpq => ?_, fun p hp => ?_,
    fun w hw => (mem_blocked.mp hw).2, fun w hw => (h w (mem_blocked.mp hw).1).1, fun w hw => ?_⟩
  · rw [hzero p (hpq.subset (by simp)), hzero q (hpq.subset (by simp))]
  · rw [hzero p hp]
    omega
  · exact (h w (mem_blocked.mp hw).1).2.imp (fun hrank => by omega) id

/-! ## Positions that wait for the same -/

theorem queue_prefix_drain (queue : List Nat) (waiting : List Waiting) :
    queue <+: (DependencyOrder.drain queue waiting).1 := by
  fun_induction DependencyOrder.drain queue waiting with
  | case1 waiting => exact List.prefix_refl _
  | case2 waiting i queue resolved order rest hd ih =>
    rw [hd] at ih
    exact List.cons_prefix_cons.mpr ⟨rfl, (List.prefix_append _ _).trans ih⟩

theorem pair_ready_or_blocked {v w : Waiting} (hpair : [v, w].Sublist waiting)
    (hsame : ∀ j, j ∈ v.outstanding ↔ j ∈ w.outstanding) :
    [v.position, w.position].Sublist (ready waiting) ∨ [v, w].Sublist (blocked waiting) := by
  have hready : v.isReady = w.isReady := by
    rw [Bool.eq_iff_iff, Waiting.isReady, Waiting.isReady, List.isEmpty_iff, List.isEmpty_iff,
      List.eq_nil_iff_forall_not_mem, List.eq_nil_iff_forall_not_mem]
    simp only [hsame]
  cases hw : w.isReady with
  | true =>
    have hboth := (hpair.filter Waiting.isReady).map Waiting.position
    exact .inl (by simpa [List.filter_cons, hready, hw, ready] using hboth)
  | false =>
    have hboth := hpair.filter fun u => !u.isReady
    exact .inr (by simpa [List.filter_cons, hready, hw, blocked] using hboth)

/-- **Positions that wait for the same** become ready together, so they keep their order. -/
theorem drain_pair {v w : Waiting} (hpair : [v, w].Sublist waiting)
    (hsame : ∀ j, j ∈ v.outstanding ↔ j ∈ w.outstanding)
    (hdone : (DependencyOrder.drain queue waiting).2 = []) :
    [v.position, w.position].Sublist (DependencyOrder.drain queue waiting).1 := by
  fun_induction DependencyOrder.drain queue waiting generalizing v w with
  | case1 waiting =>
    rw [show waiting = [] from hdone] at hpair
    cases hpair
  | case2 waiting i queue resolved order rest hd =>
    rename_i ih
    have hsame' : ∀ j, j ∈ (v.resolve i).outstanding ↔ j ∈ (w.resolve i).outstanding := by
      intro j
      rw [mem_outstanding_resolve, mem_outstanding_resolve, hsame]
    refine List.Sublist.cons i ?_
    rcases pair_ready_or_blocked (hpair.map (Waiting.resolve i)) hsame' with hjoin | hwait
    · have hqueue := queue_prefix_drain (queue ++ ready resolved) (blocked resolved)
      rw [hd] at hqueue
      exact (hjoin.trans (List.sublist_append_right queue _)).trans hqueue.sublist
    · have hlater := ih hwait hsame' (hd ▸ hdone)
      rwa [hd] at hlater

end Positions

/-! ## Nodes -/

variable [DecidableEq α]

theorem lastPosition_eq_some_iff (hn : nodes.Nodup) {i : Nat} :
    lastPosition nodes a = some i ↔ nodes[i]? = some a := by
  refine ⟨getElem?_of_lastPosition, fun hi => ?_⟩
  obtain ⟨j, hj, hja⟩ := exists_lastPosition (List.mem_of_getElem? hi)
  have hlt : i < nodes.length := (List.getElem?_eq_some_iff.mp hi).1
  rw [hj, (List.getElem?_inj hlt hn).mp (hi.trans hja.symm)]

theorem mem_outstanding_iff (hn : nodes.Nodup) {w : Waiting} (hw : w ∈ requirements nodes deps)
    (ha : nodes[w.position]? = some a) {j : Nat} :
    j ∈ w.outstanding ↔ ∃ b, Requires nodes deps a b ∧ nodes[j]? = some b := by
  obtain ⟨a', ha', hout⟩ := mem_requirements.mp hw
  obtain rfl : a' = a := Option.some.inj (ha'.symm.trans ha)
  rw [hout, List.mem_filter, List.mem_filterMap]
  simp only [lastPosition_eq_some_iff hn, decide_eq_true_eq]
  constructor
  · rintro ⟨⟨b, hb, hj⟩, hne⟩
    refine ⟨b, ⟨hb, List.mem_of_getElem? hj, ?_⟩, hj⟩
    rintro rfl
    have hlt : j < nodes.length := (List.getElem?_eq_some_iff.mp hj).1
    exact hne ((List.getElem?_inj hlt hn).mp (hj.trans ha.symm))
  · rintro ⟨b, ⟨hb, _, hne⟩, hj⟩
    refine ⟨⟨b, hb, hj⟩, ?_⟩
    rintro rfl
    exact hne (Option.some.inj (hj.symm.trans ha))

theorem ranks_depth (hn : nodes.Nodup)
    (hacc : ∀ a ∈ nodes, Acc (fun b a => Requires nodes deps a b) a) :
    Ranks (fun i => (nodes[i]?).elim 0 (depth nodes deps)) (requirements nodes deps) := by
  intro w hw
  obtain ⟨a, ha, _⟩ := mem_requirements.mp hw
  have ha' := hacc a (List.mem_of_getElem? ha)
  refine ⟨fun j hj => ?_, ?_⟩
  · obtain ⟨b, hab, hj⟩ := (mem_outstanding_iff hn hw ha).mp hj
    simpa [ha, hj] using depth_lt ha' hab
  · refine (depth_eq_zero_or_succ ha').imp (fun hzero => by simpa [ha] using hzero) ?_
    rintro ⟨b, hab, hdepth⟩
    obtain ⟨j, _, hj⟩ := exists_lastPosition hab.2.1
    exact ⟨j, (mem_outstanding_iff hn hw ha).mpr ⟨b, hab, hj⟩, by simpa [ha, hj] using hdepth⟩

theorem exists_pair_requirements (deps : α → List α) (h : [a, b].Sublist nodes) :
    ∃ v w, [v, w].Sublist (requirements nodes deps) ∧ nodes[v.position]? = some a ∧
      nodes[w.position]? = some b := by
  rw [← List.zipIdx_map_fst 0 nodes] at h
  obtain ⟨l, hl, he⟩ := List.sublist_map_iff.mp h
  obtain ⟨x, l, rfl, hx, he⟩ := List.map_eq_cons_iff.mp he.symm
  obtain ⟨y, l, rfl, hy, he⟩ := List.map_eq_cons_iff.mp he
  obtain rfl := List.map_eq_nil_iff.mp he
  refine ⟨_, _, hl.map _, ?_, ?_⟩
  · exact hx ▸ List.mem_zipIdx_iff_getElem?.mp (hl.subset (by simp : x ∈ [x, y]))
  · exact hy ▸ List.mem_zipIdx_iff_getElem?.mp (hl.subset (by simp : y ∈ [x, y]))

theorem sort_eq_ok_iff : sort nodes deps = .ok order ↔
    (drain (ready (requirements nodes deps)) (blocked (requirements nodes deps))).2 = [] ∧
      (drain (ready (requirements nodes deps)) (blocked (requirements nodes deps))).1.filterMap
        (nodes[·]?) = order := by
  simp only [sort]
  split
  · rename_i hrest
    simp [List.isEmpty_iff.mp hrest]
  · rename_i hrest
    simp [List.isEmpty_iff.not.mp hrest]

theorem acc_of_sort (h : sort nodes deps = .ok order) (ha : a ∈ nodes) :
    Acc (fun b a => Requires nodes deps a b) a := by
  have hin : InOrder nodes deps order := fun before a after he b hb =>
    sort_before h he hb.1 hb.2.1 hb.2.2
  exact hin.acc ((sort_perm h).mem_iff.mpr ha)

theorem pairwise_depth (hn : nodes.Nodup) (h : sort nodes deps = .ok order) :
    order.Pairwise fun a b => depth nodes deps a ≤ depth nodes deps b := by
  have hranks := ranks_depth hn fun a ha => acc_of_sort h ha
  obtain ⟨_, rfl⟩ := sort_eq_ok_iff.mp h
  refine List.pairwise_filterMap.mpr (hranks.layered.drain.1.imp ?_)
  intro i j hle a ha b hb
  simpa [ha, hb] using hle

theorem pair_sublist_sort (hn : nodes.Nodup) (h : sort nodes deps = .ok order)
    (hsame : ∀ c, Requires nodes deps a c ↔ Requires nodes deps b c)
    (hpair : [a, b].Sublist nodes) : [a, b].Sublist order := by
  obtain ⟨hdone, rfl⟩ := sort_eq_ok_iff.mp h
  obtain ⟨v, w, hvw, hv, hw⟩ := exists_pair_requirements deps hpair
  have hmem : ∀ u ∈ [v, w], u ∈ requirements nodes deps := fun u => (hvw.subset ·)
  have hout : ∀ j, j ∈ v.outstanding ↔ j ∈ w.outstanding := by
    intro j
    rw [mem_outstanding_iff hn (hmem v (by simp)) hv, mem_outstanding_iff hn (hmem w (by simp)) hw]
    simp only [hsame]
  have hpositions : [v.position, w.position].Sublist
      (drain (ready (requirements nodes deps)) (blocked (requirements nodes deps))).1 := by
    rcases pair_ready_or_blocked hvw hout with hjoin | hwait
    · exact hjoin.trans (queue_prefix_drain _ _).sublist
    · exact drain_pair hwait hout hdone
  simpa [hv, hw] using hpositions.filterMap (nodes[·]?)

/-- **Sorting goes layer by layer and is stable.** Every listed node has a longest chain of
dependencies on different listed nodes, and the lengths of these chains never go down in the sorted
list. Two nodes that require the same listed nodes come in the order of the given list. -/
theorem sort_layered (nodes : List α) (deps : α → List α) (order : List α) (hn : nodes.Nodup)
    (h : sort nodes deps = .ok order) :
    (∀ a ∈ nodes, IsGreatest (chainLengths nodes deps a) (depth nodes deps a)) ∧
      order.Pairwise (fun a b => depth nodes deps a ≤ depth nodes deps b) ∧
      ∀ a b, (∀ c, Requires nodes deps a c ↔ Requires nodes deps b c) →
        ([a, b].Sublist order ↔ [a, b].Sublist nodes) := by
  refine ⟨fun a ha => isGreatest_depth (acc_of_sort h ha), pairwise_depth hn h,
    fun a b hsame => ⟨fun hpair => ?_, pair_sublist_sort hn h hsame⟩⟩
  have hperm := sort_perm h
  have hno : order.Nodup := hperm.nodup_iff.mpr hn
  have hne : a ≠ b := by
    rintro rfl
    exact List.nodup_iff_sublist.mp hno a hpair
  have hmem : ∀ c ∈ [a, b], c ∈ nodes := fun c hc => hperm.mem_iff.mp (hpair.subset hc)
  refine (pair_sublist_or (hmem a (by simp)) (hmem b (by simp)) hne).resolve_right fun hba => ?_
  exact not_pair_sublist hno hpair (pair_sublist_sort hn h (fun c => (hsame c).symm) hba)

/-- `D` depends on `A` twice and on something that is not listed, `C` on itself and on `A`, so both
require the same. `B`, which depends on `D`, comes last, after `E`, which depends on nothing. -/
theorem sort_layered_repeated :
    let nodes := ["D", "C", "B", "A", "E"]
    let deps := fun name => ([("D", ["A", "X", "A"]), ("C", ["C", "A"]), ("B", ["D"])].lookup
      name).getD []
    nodes.Nodup ∧ sort nodes deps = .ok ["A", "E", "D", "C", "B"] ∧
      ["A", "E", "D", "C", "B"].Pairwise (fun a b => depth nodes deps a ≤ depth nodes deps b) ∧
      (∀ c, Requires nodes deps "D" c ↔ Requires nodes deps "C" c) ∧
      (["D", "C"].Sublist ["A", "E", "D", "C", "B"] ↔ ["D", "C"].Sublist nodes) := by
  intro nodes deps
  have hn : nodes.Nodup := by decide
  have h : sort nodes deps = .ok ["A", "E", "D", "C", "B"] := by decide +kernel
  have hsame : ∀ c, Requires nodes deps "D" c ↔ Requires nodes deps "C" c := by
    intro c
    have hD : deps "D" = ["A", "X", "A"] := by decide +kernel
    have hC : deps "C" = ["C", "A"] := by decide +kernel
    rw [Requires, Requires, hD, hC]
    grind
  obtain ⟨_, hdepth, hstable⟩ := sort_layered nodes deps _ hn h
  exact ⟨hn, h, hdepth, hsame, hstable "D" "C" hsame⟩

end FluentGrammar.DependencyOrder
