import FluentGrammar.Tree
import Mathlib.Data.List.Basic

/-!
# Paths in trees

The *position* of a descendant is the list of the indices of the children that are passed on the way
down to it. A path names kinds, and it may lead to many descendants. They are collected level by
level; still they come in document order, which is the lexicographic order of their positions, and
none is left out or found twice.

* `Tree.segments_eq`, `Tree.segments_append`: the kinds that a path names.
* `Tree.follow_append`: longer chains of kinds are followed from the descendants found before.
* `Tree.LeadsTo`: a position and the kinds on the way to it.
* `Tree.placed`: the descendants that a chain of kinds leads to, with their positions.
* **`Tree.find_document_order`**: what a path finds, and in which order.
-/

namespace FluentGrammar

/-! ## The kinds of a path -/

theorem Text.splitChars_eq_splitOn (sep : Char) (cs : List Char) :
    splitChars sep cs = cs.splitOn sep := by
  rw [List.splitOn_eq_splitOnP]
  induction cs with
  | nil => rfl
  | cons c cs ih =>
    rw [splitChars, List.splitOnP_cons_eq_if_modifyHead, ih]
    by_cases hc : c = sep
    · rw [if_pos hc, if_pos (beq_iff_eq.mpr hc)]
    · rw [if_neg hc, if_neg (mt beq_iff_eq.mp hc)]
      cases hpieces : cs.splitOnP (· == sep) with
      | nil => exact absurd (ih.trans hpieces) (splitChars_ne_nil sep cs)
      | cons piece pieces => rfl

namespace Tree

theorem segments_eq (path : String) :
    segments path = ((path.toList.splitOn '/').filter (· ≠ [])).map String.ofList := by
  rw [segments, Text.split, Text.splitChars_eq_splitOn, List.filter_map]
  congr 1
  refine List.filter_congr fun piece _ => ?_
  simp

theorem segments_append (path more : String) :
    segments (path ++ "/" ++ more) = segments path ++ segments more := by
  have hsplit : (path ++ "/" ++ more).toList.splitOn '/' =
      path.toList.splitOn '/' ++ more.toList.splitOn '/' := by
    rw [String.toList_append, String.toList_append, List.append_assoc]
    exact List.splitOnP_append_cons _ _ (beq_self_eq_true '/')
  rw [segments_eq, hsplit, List.filter_append, List.map_append, ← segments_eq, ← segments_eq]

/-! ## Levels -/

theorem foldl_descend (kinds : List String) (nodes : List Tree) :
    kinds.foldl descend nodes = nodes.flatMap (follow · kinds) := by
  induction kinds generalizing nodes with
  | nil => exact (List.flatMap_singleton' nodes).symm
  | cons kind kinds ih =>
    rw [List.foldl_cons, ih, descend, List.flatMap_assoc]
    refine List.flatMap_congr fun node _ => ?_
    rw [follow, List.foldl_cons, ih, descend, List.flatMap_singleton]

theorem follow_cons (node : Tree) (kind : String) (kinds : List String) :
    node.follow (kind :: kinds) =
      (node.children.filter (·.kind = kind)).flatMap (follow · kinds) := by
  rw [follow, List.foldl_cons, foldl_descend, descend, List.flatMap_singleton]

theorem follow_append (node : Tree) (kinds more : List String) :
    node.follow (kinds ++ more) = (node.follow kinds).flatMap (follow · more) := by
  rw [follow, List.foldl_append, foldl_descend]
  rfl

/-! ## Positions -/

/-- From the node, the position leads to the descendant through nodes of the given kinds. -/
inductive LeadsTo : Tree → List Nat → List String → Tree → Prop
  | here (node : Tree) : LeadsTo node [] [] node
  | down {node child found : Tree} {i : Nat} {position : List Nat} {kinds : List String}
    (hchild : node.children[i]? = some child) (h : LeadsTo child position kinds found) :
    LeadsTo node (i :: position) (child.kind :: kinds) found

/-- The descendants that a chain of kinds leads to, each with its position. -/
def placed : List String → Tree → List (List Nat × Tree)
  | [], node => [([], node)]
  | kind :: kinds, node =>
    (node.children.zipIdx.filter (·.1.kind = kind)).flatMap fun child =>
      (placed kinds child.1).map fun found => (child.2 :: found.1, found.2)

theorem mem_placed {kinds : List String} {node found : Tree} {position : List Nat} :
    (position, found) ∈ placed kinds node ↔ node.LeadsTo position kinds found := by
  induction kinds generalizing node position with
  | nil =>
    rw [placed, List.mem_singleton, Prod.mk.injEq]
    constructor
    · rintro ⟨rfl, rfl⟩
      exact .here _
    · rintro ⟨⟩
      exact ⟨rfl, rfl⟩
  | cons kind kinds ih =>
    simp only [placed, List.mem_flatMap, List.mem_filter, List.mem_map, decide_eq_true_eq,
      Prod.exists, List.mem_zipIdx_iff_getElem?]
    constructor
    · rintro ⟨child, i, ⟨hchild, rfl⟩, rest, _, hrest, hfound⟩
      obtain ⟨rfl, rfl⟩ := Prod.mk.inj hfound
      exact .down hchild (ih.mp hrest)
    · rintro (_ | ⟨hchild, h⟩)
      exact ⟨_, _, ⟨hchild, rfl⟩, _, _, ih.mpr h, rfl⟩

theorem map_snd_placed (kinds : List String) (node : Tree) :
    (placed kinds node).map Prod.snd = node.follow kinds := by
  induction kinds generalizing node with
  | nil => rfl
  | cons kind kinds ih =>
    have hchildren : (node.children.zipIdx.filter (·.1.kind = kind)).map Prod.fst =
        node.children.filter (·.kind = kind) :=
      calc (node.children.zipIdx.filter (·.1.kind = kind)).map Prod.fst
        _ = (node.children.zipIdx.map Prod.fst).filter (·.kind = kind) := by
          rw [List.filter_map]
          rfl
        _ = node.children.filter (·.kind = kind) := by rw [List.zipIdx_map_fst]
    rw [follow_cons, ← hchildren, List.flatMap_map, placed, List.map_flatMap]
    refine List.flatMap_congr fun child _ => ?_
    rw [← ih child.1, List.map_map]
    rfl

theorem pairwise_placed (kinds : List String) (node : Tree) :
    (placed kinds node).Pairwise fun a b => List.Lex (· < ·) a.1 b.1 := by
  induction kinds generalizing node with
  | nil => exact List.pairwise_singleton _ _
  | cons kind kinds ih =>
    have hindices : node.children.zipIdx.Pairwise fun a b => a.2 < b.2 := by
      rw [← List.pairwise_map, List.zipIdx_map_snd]
      exact List.pairwise_lt_range' 1
    rw [placed, List.pairwise_flatMap]
    constructor
    · -- Below one child, positions are compared after its index.
      intro child _
      rw [List.pairwise_map]
      exact (ih child.1).imp fun h => .cons h
    · refine (hindices.filter _).imp fun hlt a ha b hb => ?_
      obtain ⟨_, -, rfl⟩ := List.mem_map.mp ha
      obtain ⟨_, -, rfl⟩ := List.mem_map.mp hb
      exact .rel hlt

/-- **What a path finds.** The path names its parts between slashes that are not empty. It finds the
nodes to which positions lead through nodes of these kinds, one for each position, in lexicographic
order of the positions. With a second path appended after a slash, it finds what the second path
finds from each of these nodes, one after the other. -/
theorem find_document_order (node : Tree) (path : String) :
    segments path = ((path.toList.splitOn '/').filter (· ≠ [])).map String.ofList ∧
      (∃ found : List (List Nat × Tree),
        found.Pairwise (fun a b => List.Lex (· < ·) a.1 b.1) ∧
        (∀ position d, (position, d) ∈ found ↔ node.LeadsTo position (segments path) d) ∧
        node.find path = found.map Prod.snd) ∧
      ∀ more, node.find (path ++ "/" ++ more) = (node.find path).flatMap (find · more) := by
  refine ⟨segments_eq path, ⟨placed (segments path) node, pairwise_placed _ _,
    fun _ _ => mem_placed, (map_snd_placed _ _).symm⟩, fun more => ?_⟩
  rw [find, segments_append, follow_append]
  rfl

end Tree

end FluentGrammar
