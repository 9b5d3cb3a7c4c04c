import Mathlib.Data.Fintype.Card
import Mathlib.Data.Set.Finite.List
import Mathlib.Logic.Relation
import FluentGrammar.Proofs.DependencyOrder

/-!
# Cycles of dependencies

Sorting fails exactly if there is a cycle, and then reports the nodes from which one can be reached.
What is handled comes after all it depends on, so nothing handled leads into a cycle. What is
reported depends on something that is reported as well; among finitely many nodes, one cannot go on
like this for ever without coming back.

* `Requires`: dependency on a different listed node.
* `InOrder`: a list in which every node comes after what it depends on.
* `ReachesCycle`: the nodes from which a cycle can be reached.
* `acc_of_not_reachesCycle`, `not_reachesCycle_of_acc`: the others are those whose dependencies come
  to an end.
* `Handles`: what sorting does with the nodes.
* `sort_ok_iff`: sorting succeeds if and only if there is no cycle.
* **`sort_error_exact`**: the reported nodes are those from which a cycle can be reached.
-/

namespace FluentGrammar.DependencyOrder

open Relation

variable {α : Type} {nodes order rest : List α} {deps : α → List α} {a : α}

/-- `a` depends on `b`, which is a listed node other than `a`. -/
def Requires (nodes : List α) (deps : α → List α) (a b : α) : Prop :=
  b ∈ deps a ∧ b ∈ nodes ∧ b ≠ a

/-- Every node of the list comes after the listed nodes it depends on. -/
def InOrder (nodes : List α) (deps : α → List α) (l : List α) : Prop :=
  ∀ before a after, l = before ++ a :: after → ∀ b, Requires nodes deps a b → b ∈ before

/-- By following dependencies on listed nodes one comes from `a` to a node from which one comes
back to itself. Since no node requires itself, such a cycle has at least two nodes. -/
def ReachesCycle (nodes : List α) (deps : α → List α) (a : α) : Prop :=
  ∃ c, ReflTransGen (Requires nodes deps) a c ∧ TransGen (Requires nodes deps) c c

/-! ## Dependencies that come to an end -/

theorem not_reachesCycle_of_acc (h : Acc (fun b a => Requires nodes deps a b) a) :
    ¬ ReachesCycle nodes deps a := by
  induction h with
  | intro a _ ih =>
    rintro ⟨c, hac, hcc⟩
    rcases hac.cases_head with rfl | ⟨b, hab, hbc⟩
    · obtain ⟨b, hab, hba⟩ := TransGen.head'_iff.mp hcc
      exact ih b hab ⟨a, hba, hcc⟩
    · exact ih b hab ⟨c, hbc, hcc⟩

/-- There are only finitely many nodes to go on to, and none comes back. -/
theorem acc_of_not_reachesCycle (h : ¬ ReachesCycle nodes deps a) :
    Acc (fun b a => Requires nodes deps a b) a := by
  let reached := {b // ReflTransGen (Requires nodes deps) a b}
  have hfinite : Finite reached := by
    refine Set.Finite.to_subtype (((List.finite_toSet nodes).insert a).subset fun b hb => ?_)
    rcases ReflTransGen.cases_tail hb with rfl | ⟨c, _, hcb⟩
    · exact Set.mem_insert _ _
    · exact Set.mem_insert_of_mem _ hcb.2.1
  let later : reached → reached → Prop := fun x y => TransGen (Requires nodes deps) y.1 x.1
  have htrans : IsTrans reached later := ⟨fun x y z hxy hyz => hyz.trans hxy⟩
  have hirrefl : Std.Irrefl later := ⟨fun x hx => h ⟨x.1, x.2, hx⟩⟩
  have hwf : WellFounded later := Finite.wellFounded_of_trans_of_irrefl later
  have hall : ∀ x : reached, Acc (fun b a => Requires nodes deps a b) x.1 := by
    intro x
    induction x using hwf.induction with
    | _ x ih => exact ⟨_, fun b hb => ih ⟨b, x.2.tail hb⟩ (.single hb)⟩
  exact hall ⟨a, .refl⟩

theorem InOrder.acc (h : InOrder nodes deps order) (ha : a ∈ order) :
    Acc (fun b a => Requires nodes deps a b) a := by
  -- The induction is on the part of the list up to a node.
  have key : ∀ before after, order = before ++ after → ∀ a ∈ before,
      Acc (fun b a => Requires nodes deps a b) a := by
    intro before
    induction before using List.reverseRecOn with
    | nil => simp
    | append_singleton before c ih =>
      intro after he x hx
      have hbefore := ih (c :: after) (by simpa using he)
      rcases List.mem_append.mp hx with hx | hx
      · exact hbefore x hx
      · obtain rfl := List.mem_singleton.mp hx
        exact ⟨_, fun b hb => hbefore b (h before x after (by simpa using he) b hb)⟩
  exact key order [] (by simp) a ha

/-- Among nodes that each require another of them, none has dependencies that come to an end. -/
theorem not_mem_of_acc (hstuck : ∀ a ∈ rest, ∃ b ∈ rest, Requires nodes deps a b)
    (h : Acc (fun b a => Requires nodes deps a b) a) : a ∉ rest := by
  induction h with
  | intro a _ ih =>
    intro ha
    obtain ⟨b, hb, hab⟩ := hstuck a ha
    exact ih b hab hb

/-! ## Handled and reported nodes -/

/-- The nodes are handled in `order`, but for the `rest`, each of which requires another of them. -/
structure Handles (nodes : List α) (deps : α → List α) (order rest : List α) : Prop where
  perm : (order ++ rest).Perm nodes
  sublist : rest.Sublist nodes
  inOrder : InOrder nodes deps order
  stuck : ∀ a ∈ rest, ∃ b ∈ rest, Requires nodes deps a b

theorem Handles.mem_rest_iff (h : Handles nodes deps order rest) :
    a ∈ rest ↔ a ∈ nodes ∧ ReachesCycle nodes deps a := by
  constructor
  · intro ha
    refine ⟨h.sublist.subset ha, ?_⟩
    by_contra hcycle
    exact not_mem_of_acc h.stuck (acc_of_not_reachesCycle hcycle) ha
  · rintro ⟨ha, hcycle⟩
    refine (List.mem_append.mp (h.perm.mem_iff.mpr ha)).resolve_left fun horder => ?_
    exact not_reachesCycle_of_acc (h.inOrder.acc horder) hcycle

theorem mem_nodes_of_cycle (h : TransGen (Requires nodes deps) a a) : a ∈ nodes := by
  obtain ⟨b, _, hba⟩ := TransGen.tail'_iff.mp h
  exact hba.2.1

variable [DecidableEq α]

theorem exists_handles (hn : nodes.Nodup) (deps : α → List α) :
    ∃ order rest, Handles nodes deps order rest ∧
      sort nodes deps = if rest = [] then .ok order else .error rest := by
  obtain ⟨order, rest, hout, hsort⟩ := exists_outcome nodes deps
  have hperm := hout.perm
  have hsublist := hout.sublist
  rw [position_requirements] at hperm hsublist
  have hlisted : ∀ i ∈ rest, ∃ a, nodes[i]? = some a := fun i hi => by
    have hlt := List.mem_range.mp (hsublist.subset hi)
    exact ⟨nodes[i], List.getElem?_eq_getElem hlt⟩
  refine ⟨order.filterMap (nodes[·]?), rest.filterMap (nodes[·]?),
    ⟨?_, ?_, fun before a after he b hb => ?_, fun a ha => ?_⟩, ?_⟩
  · rw [← List.filterMap_append]
    have := hperm.filterMap (nodes[·]?)
    rwa [filterMap_getElem?_range] at this
  · have := hsublist.filterMap (nodes[·]?)
    rwa [filterMap_getElem?_range] at this
  · exact hout.mem_before he hb.1 hb.2.1 hb.2.2
  · -- What a blocked position waits for is not handled, so it is blocked as well.
    obtain ⟨i, hi, hia⟩ := List.mem_filterMap.mp ha
    obtain ⟨w, hw, rfl, j, hj, hnot⟩ := hout.stuck i hi
    obtain ⟨a', ha', hout'⟩ := mem_requirements.mp hw
    obtain rfl : a' = a := Option.some.inj (ha'.symm.trans hia)
    rw [hout', List.mem_filter, List.mem_filterMap] at hj
    obtain ⟨⟨b, hb, hbj⟩, hji⟩ := hj
    have hjb := getElem?_of_lastPosition hbj
    have hjrest : j ∈ rest := by
      have hlt : j < nodes.length := (List.getElem?_eq_some_iff.mp hjb).1
      exact (List.mem_append.mp (hperm.mem_iff.mpr (List.mem_range.mpr hlt))).resolve_left hnot
    refine ⟨b, List.mem_filterMap.mpr ⟨j, hjrest, hjb⟩, hb, List.mem_of_getElem? hjb, ?_⟩
    rintro rfl
    have hlt : j < nodes.length := (List.getElem?_eq_some_iff.mp hjb).1
    exact of_decide_eq_true hji ((List.getElem?_inj hlt hn).mp (hjb.trans hia.symm))
  · rw [hsort]
    have hempty : rest = [] ↔ rest.filterMap (nodes[·]?) = [] := by
      constructor
      · rintro rfl
        rfl
      · intro h
        rw [List.filterMap_eq_nil_iff] at h
        refine List.eq_nil_iff_forall_not_mem.mpr fun i hi => ?_
        obtain ⟨a, ha⟩ := hlisted i hi
        simp [h i hi] at ha
    simp only [hempty]

theorem sort_ok_iff (hn : nodes.Nodup) (deps : α → List α) :
    (∃ order, sort nodes deps = .ok order) ↔ ∀ a, ¬ TransGen (Requires nodes deps) a a := by
  obtain ⟨order, rest, hhandles, hsort⟩ := exists_handles hn deps
  rw [hsort]
  by_cases hrest : rest = []
  · rw [if_pos hrest]
    refine ⟨fun _ a ha => ?_, fun _ => ⟨order, rfl⟩⟩
    have hm := hhandles.mem_rest_iff.mpr ⟨mem_nodes_of_cycle ha, a, .refl, ha⟩
    simp [hrest] at hm
  · rw [if_neg hrest]
    refine ⟨fun ⟨_, h⟩ => (by cases h), fun hacyclic => ?_⟩
    obtain ⟨a, ha⟩ := List.exists_mem_of_ne_nil rest hrest
    obtain ⟨_, c, _, hcc⟩ := hhandles.mem_rest_iff.mp ha
    exact absurd hcc (hacyclic c)

/-- **Failure is exact.** If sorting fails, it reports some of the nodes, in the order of the list
and each once: those from which a cycle can be reached, and no others. So it reports every node of
every cycle, and no node whose dependencies can all be put in order. -/
theorem sort_error_exact (nodes : List α) (deps : α → List α) (rest : List α) (hn : nodes.Nodup)
    (h : sort nodes deps = .error rest) :
    rest ≠ [] ∧ rest.Sublist nodes ∧ rest.Nodup ∧
      (∀ a, a ∈ rest ↔ a ∈ nodes ∧ ReachesCycle nodes deps a) ∧
      (∀ a, TransGen (Requires nodes deps) a a → a ∈ rest) ∧
      ∀ l a, InOrder nodes deps l → (∀ b, Requires nodes deps a b → b ∈ l) → a ∉ rest := by
  obtain ⟨order, rest', hhandles, hsort⟩ := exists_handles hn deps
  rw [h] at hsort
  split at hsort
  · cases hsort
  rename_i hne
  obtain rfl : rest = rest' := Except.error.inj hsort
  refine ⟨hne, hhandles.sublist, hn.sublist hhandles.sublist, fun _ => hhandles.mem_rest_iff,
    fun a ha => hhandles.mem_rest_iff.mpr ⟨mem_nodes_of_cycle ha, a, .refl, ha⟩,
    fun l a hl ha => ?_⟩
  exact not_mem_of_acc hhandles.stuck ⟨_, fun b hb => hl.acc (ha b hb)⟩

/-- `A` and `B` depend on each other. `C` depends on `A`, on itself and on something that is not
listed; it is reported with them. `D`, which depends on `E` twice, and `E` are not. -/
theorem sort_error_exact_behind_cycle :
    let nodes := ["D", "C", "A", "E", "B"]
    let deps := fun name => ([("A", ["B"]), ("B", ["A"]), ("C", ["C", "X", "A"]),
      ("D", ["E", "E"])].lookup name).getD []
    nodes.Nodup ∧ sort nodes deps = .error ["C", "A", "B"] ∧ ReachesCycle nodes deps "C" ∧
      ¬ ReachesCycle nodes deps "D" := by
  intro nodes deps
  have hn : nodes.Nodup := by decide
  have h : sort nodes deps = .error ["C", "A", "B"] := by decide +kernel
  obtain ⟨_, _, _, hmem, _⟩ := sort_error_exact nodes deps _ hn h
  exact ⟨hn, h, ((hmem "C").mp (by decide)).2,
    fun hcycle => absurd ((hmem "D").mpr ⟨by decide, hcycle⟩) (by decide)⟩

end FluentGrammar.DependencyOrder
