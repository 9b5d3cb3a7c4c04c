import FluentGrammar.Declaration.TypeNode
import FluentGrammar.Proofs.TypeText

/-!
# Types in trees and in texts

A type is read from a node of a grammar tree and from its written form. The two readers have nothing
in common, and they agree: from the tree of a type and from its written form the type is read back.
What locations the nodes of the tree have, and what texts they cover, does not matter.

* `Tree.bare`: a tree without locations and covered texts.
* **`Tree.typeOf_bare`**: of locations and covered texts, only the locations of faults remain.
* `TypeExpr.tree`: the tree of a type.
* **`TypeExpr.typeOf_tree`**: the type is read back from its tree.
* **`TypeExpr.typeOf_agrees_ofText`**: the readers agree.
-/

namespace FluentGrammar

/-! ## Paths of one kind -/

theorem Text.splitChars_eq_singleton {sep : Char} {cs : List Char} (h : sep ∉ cs) :
    splitChars sep cs = [cs] := by
  induction cs with
  | nil => rfl
  | cons c cs ih =>
    obtain ⟨hc, hcs⟩ := not_or.mp (mt List.mem_cons.mpr h)
    rw [splitChars, if_neg (Ne.symm hc), ih hcs]

namespace Tree

theorem segments_eq_singleton {kind : String} (hne : kind ≠ "") (h : '/' ∉ kind.toList) :
    segments kind = [kind] := by
  rw [segments, Text.split, Text.splitChars_eq_singleton h, List.map_singleton,
    String.ofList_toList]
  simpa using hne

theorem find_eq_filter {kind : String} (hne : kind ≠ "") (h : '/' ∉ kind.toList) (node : Tree) :
    node.find kind = node.children.filter (·.kind = kind) := by
  rw [find, segments_eq_singleton hne h, follow, List.foldl_cons, List.foldl_nil, descend,
    List.flatMap_singleton]

/-! ## Trees without locations -/

mutual

/-- The tree without the locations of its nodes and the texts that they cover. -/
def bare : Tree → Tree
  | ⟨kind, value, _, _, children⟩ => ⟨kind, value, none, .synthetic, bareAll children⟩

/-- The trees without locations and covered texts. -/
def bareAll : List Tree → List Tree
  | [] => []
  | node :: nodes => node.bare :: bareAll nodes

end

theorem bareAll_eq_map (nodes : List Tree) : bareAll nodes = nodes.map bare := by
  induction nodes with
  | nil => rfl
  | cons node nodes ih => rw [bareAll, ih, List.map_cons]

@[simp]
theorem kind_bare (node : Tree) : node.bare.kind = node.kind := by
  cases node
  rfl

@[simp]
theorem value_bare (node : Tree) : node.bare.value = node.value := by
  cases node
  rfl

@[simp]
theorem children_bare (node : Tree) : node.bare.children = node.children.map bare := by
  cases node
  exact bareAll_eq_map _

theorem descend_map_bare (nodes : List Tree) (kind : String) :
    descend (nodes.map bare) kind = (descend nodes kind).map bare := by
  simp only [descend, List.flatMap_map, List.map_flatMap, children_bare, List.filter_map]
  refine List.flatMap_congr fun node _ => ?_
  simp [Function.comp_def]

theorem find_bare (node : Tree) (path : String) :
    node.bare.find path = (node.find path).map bare := by
  have hfold : ∀ (kinds : List String) (nodes : List Tree),
      kinds.foldl descend (nodes.map bare) = (kinds.foldl descend nodes).map bare := by
    intro kinds
    induction kinds with
    | nil => exact fun nodes => rfl
    | cons kind kinds ih =>
      intro nodes
      rw [List.foldl_cons, descend_map_bare, ih, List.foldl_cons]
  exact hfold (segments path) [node]

theorem valueOf?_bare (node : Tree) (path : String) :
    node.bare.valueOf? path = node.valueOf? path := by
  rw [valueOf?, first?, find_bare, List.head?_map, Option.bind_map, valueOf?, first?]
  exact congrArg _ (funext value_bare)

end Tree

/-- The fault without the location of the node that it belongs to. -/
def Fault.bare : Fault → Fault
  | .grammar _ f => .grammar .synthetic f
  | f => f

namespace Tree

theorem requiredValue_bare (node : Tree) (path : String) :
    node.bare.requiredValue path = (node.requiredValue path).mapError Fault.bare := by
  unfold requiredValue
  rw [valueOf?_bare]
  cases node.valueOf? path with
  | none =>
    cases node
    rfl
  | some value => rfl

theorem simpleName_of_requiredValue {node : Tree} {name : String}
    (h : node.requiredValue "Name" = .ok name) : node.simpleName =
      if '.' ∈ name.toList then .error (node.fault (.qualifiedName name)) else .ok name := by
  rw [simpleName, h]
  by_cases hdot : '.' ∈ name.toList
  · simp only [bind, Except.bind, if_pos hdot]
    rfl
  · simp only [bind, Except.bind, if_neg hdot]
    rfl

theorem simpleName_bare (node : Tree) :
    node.bare.simpleName = node.simpleName.mapError Fault.bare := by
  have hbare := requiredValue_bare node "Name"
  cases hname : node.requiredValue "Name" with
  | error e =>
    rw [hname] at hbare
    rw [simpleName, simpleName, hbare, hname]
    rfl
  | ok name =>
    rw [hname] at hbare
    rw [simpleName_of_requiredValue hbare, simpleName_of_requiredValue hname]
    split
    · cases node
      rfl
    · rfl

mutual

/-- **Of the locations and covered texts of a tree, only the locations of faults remain.** -/
theorem typeOf_bare : (node : Tree) → node.bare.typeOf = node.typeOf.mapError Fault.bare
  | ⟨kind, value, cover, source, children⟩ => by
    have hname := simpleName_bare ⟨kind, value, cover, source, children⟩
    have hdims := find_bare ⟨kind, value, cover, source, children⟩ "Dim"
    have hargs := argsOf_bareAll children
    rw [bare] at hname hdims ⊢
    simp only [typeOf, hname, hdims, hargs, List.length_map]
    cases simpleName ⟨kind, value, cover, source, children⟩ with
    | error e => rfl
    | ok name =>
      cases argsOf children with
      | error e => rfl
      | ok args =>
        simp only [Except.mapError]
        split <;> rfl

theorem argsOf_bareAll :
    (nodes : List Tree) → argsOf (bareAll nodes) = (argsOf nodes).mapError Fault.bare
  | [] => by simp only [bareAll, argsOf, Except.mapError]
  | child :: children => by
    simp only [bareAll, argsOf, kind_bare, argOf_bare child, argsOf_bareAll children]
    split
    · cases argOf child with
      | error e => rfl
      | ok arg =>
        cases argsOf children with
        | error e => rfl
        | ok args => rfl
    · rfl

theorem argOf_bare : (node : Tree) → argOf node.bare = (argOf node).mapError Fault.bare
  | ⟨kind, value, cover, source, children⟩ => by
    simp only [bare, argOf, firstTypeOf_bareAll children, firstWildcardOf_bareAll children]
    cases firstTypeOf children with
    | some type => cases type <;> rfl
    | none =>
      cases firstWildcardOf children with
      | some wildcard => rfl
      | none => rfl

theorem firstTypeOf_bareAll : (nodes : List Tree) →
    firstTypeOf (bareAll nodes) = (firstTypeOf nodes).map (Except.mapError Fault.bare)
  | [] => by simp only [bareAll, firstTypeOf, Option.map_none]
  | child :: children => by
    simp only [bareAll, firstTypeOf, kind_bare, typeOf_bare child, firstTypeOf_bareAll children]
    split
    · rfl
    · rfl

theorem firstWildcardOf_bareAll : (nodes : List Tree) →
    firstWildcardOf (bareAll nodes) = (firstWildcardOf nodes).map (Except.mapError Fault.bare)
  | [] => by simp only [bareAll, firstWildcardOf, Option.map_none]
  | child :: children => by
    simp only [bareAll, firstWildcardOf, kind_bare, wildcardOf_bare child,
      firstWildcardOf_bareAll children]
    split
    · rfl
    · rfl

theorem wildcardOf_bare :
    (node : Tree) → wildcardOf node.bare = (wildcardOf node).mapError Fault.bare
  | ⟨kind, value, cover, source, children⟩ => by
    simp only [bare, wildcardOf, firstTypeOf_bareAll children]
    cases firstTypeOf children with
    | some type =>
      cases type with
      | error e => rfl
      | ok bound =>
        simp only [Option.map_some, Except.mapError]
        split <;> rfl
    | none =>
      cases value with
      | none => rfl
      | some word => rfl

end

theorem typeOf_eq_ok_of_bare {node : Tree} {t : TypeExpr} (h : node.bare.typeOf = .ok t) :
    node.typeOf = .ok t := by
  rw [typeOf_bare] at h
  cases htype : node.typeOf with
  | error e =>
    rw [htype] at h
    cases h
  | ok type =>
    rw [htype] at h
    exact h

theorem typeOf_eq_error_of_bare {node : Tree} {f : GrammarFault}
    (h : node.bare.typeOf = .error (.grammar .synthetic f)) :
    ∃ source, node.typeOf = .error (.grammar source f) := by
  rw [typeOf_bare] at h
  cases htype : node.typeOf with
  | ok type =>
    rw [htype] at h
    cases h
  | error e =>
    rw [htype] at h
    cases e with
    | grammar source g =>
      cases h
      exact ⟨source, rfl⟩
    | _ => cases h

/-! ## Trees of types -/

/-- A node with children and nothing else. -/
def inner (kind : String) (children : List Tree) : Tree :=
  ⟨kind, none, none, .synthetic, children⟩

end Tree

mutual

/-- The tree of a type: its name, its arguments and its dimensions. -/
def TypeExpr.tree : TypeExpr → Tree
  | ⟨name, args, dims⟩ => .inner "Type" (⟨"Name", some name, none, .synthetic, []⟩ ::
      TypeArg.trees args ++ List.replicate dims (.inner "Dim" []))

/-- The tree of an argument, which holds a type or a wildcard with the keyword of its bound. -/
def TypeArg.tree : TypeArg → Tree
  | .plain t => .inner "Argument" [TypeExpr.tree t]
  | .any => .inner "Argument" [.inner "Wildcard" []]
  | .upper t => .inner "Argument"
      [⟨"Wildcard", some "extends", none, .synthetic, [TypeExpr.tree t]⟩]
  | .lower t => .inner "Argument"
      [⟨"Wildcard", some "super", none, .synthetic, [TypeExpr.tree t]⟩]

/-- The trees of several arguments. -/
def TypeArg.trees : List TypeArg → List Tree
  | [] => []
  | a :: as => TypeArg.tree a :: TypeArg.trees as

end

theorem TypeExpr.kind_tree (t : TypeExpr) : t.tree.kind = "Type" := by
  cases t
  rfl

theorem TypeArg.kind_tree (a : TypeArg) : a.tree.kind = "Argument" := by
  cases a <;> rfl

theorem TypeArg.kind_of_mem_trees {as : List TypeArg} {node : Tree} (h : node ∈ trees as) :
    node.kind = "Argument" := by
  induction as with
  | nil => cases h
  | cons a as ih =>
    rcases List.mem_cons.mp h with rfl | h
    · exact a.kind_tree
    · exact ih h

namespace Tree

section Parts

variable {name : String} {args : List TypeArg} {dims : Nat}

theorem children_tree : (TypeExpr.tree ⟨name, args, dims⟩).children =
    ⟨"Name", some name, none, .synthetic, []⟩ ::
      TypeArg.trees args ++ List.replicate dims (.inner "Dim" []) :=
  rfl

theorem simpleName_tree (h : '.' ∉ name.toList) :
    (TypeExpr.tree ⟨name, args, dims⟩).simpleName = .ok name := by
  have hvalue : (TypeExpr.tree ⟨name, args, dims⟩).requiredValue "Name" = .ok name := by
    rw [requiredValue, valueOf?, first?, find_eq_filter (by decide) (by decide), children_tree]
    rfl
  rw [simpleName_of_requiredValue hvalue, if_neg h]

theorem length_find_dim_tree :
    ((TypeExpr.tree ⟨name, args, dims⟩).find "Dim").length = dims := by
  have hargs : (TypeArg.trees args).filter (·.kind = "Dim") = [] := by
    refine List.filter_eq_nil_iff.mpr fun node hnode => ?_
    simp [TypeArg.kind_of_mem_trees hnode]
  have hdims : (List.replicate dims (inner "Dim" [])).filter (·.kind = "Dim") =
      List.replicate dims (inner "Dim" []) :=
    List.filter_replicate_of_pos (by simp [inner])
  rw [find_eq_filter (by decide) (by decide), children_tree, List.cons_append,
    List.filter_cons_of_neg (by simp), List.filter_append, hargs, hdims, List.nil_append,
    List.length_replicate]

theorem argsOf_cons_of_kind_ne {node : Tree} {nodes : List Tree} (h : node.kind ≠ "Argument") :
    argsOf (node :: nodes) = argsOf nodes := by
  rw [argsOf, if_neg h]

theorem argsOf_eq_nil {nodes : List Tree} (h : ∀ node ∈ nodes, node.kind ≠ "Argument") :
    argsOf nodes = .ok [] := by
  induction nodes with
  | nil => rw [argsOf]
  | cons node nodes ih =>
    obtain ⟨hnode, hnodes⟩ := List.forall_mem_cons.mp h
    rw [argsOf_cons_of_kind_ne hnode, ih hnodes]

theorem typeOf_of_parts {node : Tree} (hname : node.simpleName = .ok name)
    (hargs : argsOf node.children = .ok args) :
    node.typeOf = if (node.find "Dim").length < UInt32.size
      then .ok ⟨name, args, (node.find "Dim").length⟩
      else .error (node.fault .tooManyDimensions) := by
  cases node
  simp only [typeOf, hname, hargs]

theorem typeOf_of_argsOf_error {node : Tree} {e : Fault} (hname : node.simpleName = .ok name)
    (hargs : argsOf node.children = .error e) : node.typeOf = .error e := by
  cases node
  simp only [typeOf, hname, hargs]

end Parts

end Tree

/-- What is read back: a value that fits, and else a fault. -/
def fitting {α : Type} (value : α) (fits : Prop) [Decidable fits] : Except Fault α :=
  if fits then .ok value else .error (.grammar .synthetic .tooManyDimensions)

mutual

/-- **A type is read back from its tree**, if its names are simple and its numbers of dimensions
fit. -/
theorem TypeExpr.typeOf_tree : (t : TypeExpr) → (∀ name ∈ t.allNames, '.' ∉ name.toList) →
    t.tree.typeOf = fitting t t.Fits
  | ⟨name, args, dims⟩, hnames => by
    have hname : (TypeExpr.tree ⟨name, args, dims⟩).simpleName = .ok name :=
      Tree.simpleName_tree (hnames name List.mem_cons_self)
    have hargs : Tree.argsOf (TypeExpr.tree ⟨name, args, dims⟩).children =
        fitting args (TypeArg.wrappedAll args = args) := by
      rw [Tree.children_tree, List.cons_append, Tree.argsOf_cons_of_kind_ne (by simp)]
      exact TypeArg.argsOf_trees args (fun n hn => hnames n (List.mem_cons_of_mem name hn))
        (by simp [Tree.inner])
    unfold fitting at hargs ⊢
    split at hargs
    · rename_i hfit
      rw [Tree.typeOf_of_parts hname hargs, Tree.length_find_dim_tree]
      simp only [TypeExpr.fits_mk_iff, hfit, true_and]
      rfl
    · rename_i hfit
      rw [Tree.typeOf_of_argsOf_error hname hargs,
        if_neg fun h => hfit (TypeExpr.fits_mk_iff.mp h).1]

theorem TypeArg.argOf_tree : (a : TypeArg) → (∀ name ∈ a.allNames, '.' ∉ name.toList) →
    a.tree.argOf = fitting a a.Fits
  | .plain t, hnames => by
    have htype := TypeExpr.typeOf_tree t hnames
    simp only [TypeArg.tree, Tree.inner, Tree.argOf, Tree.firstTypeOf, TypeExpr.kind_tree, if_true,
      htype, fitting, TypeArg.fits_plain]
    split <;> rfl
  | .any, _ => by
    rfl
  | .upper t, hnames => by
    have htype := TypeExpr.typeOf_tree t hnames
    simp only [TypeArg.tree, Tree.inner, Tree.argOf, Tree.firstTypeOf, Tree.firstWildcardOf,
      Tree.wildcardOf, TypeExpr.kind_tree, if_true, htype, fitting, TypeArg.fits_upper]
    by_cases hfits : t.Fits
    · rw [if_pos hfits, if_pos hfits]
      rfl
    · rw [if_neg hfits, if_neg hfits]
      rfl
  | .lower t, hnames => by
    have htype := TypeExpr.typeOf_tree t hnames
    simp only [TypeArg.tree, Tree.inner, Tree.argOf, Tree.firstTypeOf, Tree.firstWildcardOf,
      Tree.wildcardOf, TypeExpr.kind_tree, if_true, htype, fitting, TypeArg.fits_lower]
    by_cases hfits : t.Fits
    · rw [if_pos hfits, if_pos hfits]
      rfl
    · rw [if_neg hfits, if_neg hfits]
      rfl

theorem TypeArg.argsOf_trees : (as : List TypeArg) →
    (∀ name ∈ TypeArg.allNamesOf as, '.' ∉ name.toList) →
    ∀ {nodes : List Tree}, (∀ node ∈ nodes, node.kind ≠ "Argument") →
      Tree.argsOf (TypeArg.trees as ++ nodes) = fitting as (TypeArg.wrappedAll as = as)
  | [], _, nodes, hnodes => Tree.argsOf_eq_nil hnodes
  | a :: as, hnames, nodes, hnodes => by
    have harg := TypeArg.argOf_tree a fun n hn => hnames n (List.mem_append_left _ hn)
    have hargs := TypeArg.argsOf_trees as (fun n hn => hnames n (List.mem_append_right _ hn)) hnodes
    rw [TypeArg.trees, List.cons_append, Tree.argsOf, if_pos a.kind_tree, harg, hargs]
    simp only [fitting, TypeArg.wrappedAll_cons_eq_iff]
    by_cases ha : a.Fits
    · by_cases has : TypeArg.wrappedAll as = as <;> simp [ha, has]
    · simp [ha]

end

theorem dot_not_mem_of_isWord {name : String} (h : isWord name = true) : '.' ∉ name.toList := by
  have hdot : isWordPart '.' = false := by decide +kernel
  obtain ⟨c, part, rfl, hc, hpart⟩ := isWord_iff.mp h
  intro hmem
  rw [String.toList_ofList] at hmem
  rcases List.mem_cons.mp hmem with rfl | hmem
  · rw [isWordPart_of_isWordStart hc] at hdot
    cases hdot
  · rw [hpart _ hmem] at hdot
    cases hdot

/-- **The reader of trees and the reader of texts agree.** A type all of whose names are words is
read from its written form and from its tree, whatever the locations of the nodes are and whatever
texts they cover. A tree with too many dimensions for 32 bits is refused. -/
theorem TypeExpr.typeOf_agrees_ofText (t : TypeExpr)
    (hnames : ∀ name ∈ t.allNames, isWord name = true) :
    TypeExpr.ofText t.text = .ok t ∧
      (t.Fits → t.tree.typeOf = .ok t ∧ ∀ node : Tree, node.bare = t.tree → node.typeOf = .ok t) ∧
      (¬ t.Fits → ∀ node : Tree, node.bare = t.tree →
        ∃ source, node.typeOf = .error (.grammar source .tooManyDimensions)) := by
  have htree : t.tree.typeOf = fitting t t.Fits :=
    t.typeOf_tree fun name hname => dot_not_mem_of_isWord (hnames name hname)
  refine ⟨ofText_text_of_isWord hnames, fun hfits => ?_, fun hfits node hnode => ?_⟩
  · rw [fitting, if_pos hfits] at htree
    refine ⟨htree, fun node hnode => Tree.typeOf_eq_ok_of_bare ?_⟩
    rw [hnode, htree]
  · rw [fitting, if_neg hfits] at htree
    exact Tree.typeOf_eq_error_of_bare (by rw [hnode, htree])

/-- A node of a type, with its place in the first line of a file and the text that it covers. -/
def placed (column : Nat) (cover kind : String) (value : Option String) (children : List Tree) :
    Tree :=
  ⟨kind, value, some cover, ⟨"types", 1, column⟩, children⟩

/-- A bound that is a type itself, dimensions within and after arguments, and a wildcard of its
own. -/
theorem TypeExpr.typeOf_agrees_ofText_nested :
    let bound : TypeExpr := ⟨"super", [.any], 1⟩
    let t : TypeExpr := ⟨"Map", [.upper bound, .plain (.named "V")], 2⟩
    t.text = "Map<? extends super<?>[], V>[][]" ∧ TypeExpr.ofText t.text = .ok t ∧
    (placed 1 "Map<? extends super<?>[], V>[][]" "Type" none
      [placed 1 "Map" "Name" (some "Map") [],
       placed 5 "? extends super<?>[]" "Argument" none
        [placed 5 "? extends super<?>[]" "Wildcard" (some "extends")
          [placed 15 "super<?>[]" "Type" none
            [placed 15 "super" "Name" (some "super") [],
             placed 21 "?" "Argument" none [placed 21 "?" "Wildcard" none []],
             placed 23 "[]" "Dim" none []]]],
       placed 27 "V" "Argument" none
        [placed 27 "V" "Type" none [placed 27 "V" "Name" (some "V") []]],
       placed 29 "[]" "Dim" none [], placed 31 "[]" "Dim" none []]).typeOf = .ok t := by
  intro bound t
  have hread := typeOf_agrees_ofText t (by decide +kernel)
  exact ⟨by decide +kernel, hread.1, (hread.2.1 (by decide)).2 _ rfl⟩

end FluentGrammar
