import FluentGrammar.Fault
import FluentGrammar.Tree
import FluentGrammar.TypeParam

/-!
# Types in grammar trees

A `Type` node has a `Name` leaf, one `Argument` child for each argument and one `Dim` child for
each array dimension, of which there are fewer than 2^32. An argument holds a `Type` or a
`Wildcard`, whose value is the keyword of its bound.

* `Tree.typeOf`: the type that a node denotes.
* `Tree.typeParamsOf`: the type parameters that a node declares.
-/

namespace FluentGrammar.Tree

/-- A fault of the tree at the node. -/
def fault (node : Tree) (f : GrammarFault) : Fault :=
  .grammar node.source f

/-- The value at a path, which has to be there. -/
def requiredValue (node : Tree) (path : String) : Except Fault String :=
  match node.valueOf? path with
  | some value => .ok value
  | none => .error (node.fault (.missingValue node.kind path))

/-- The node at a path, which has to be there; `part` names it in the fault. -/
def requiredNode (node : Tree) (path part : String) : Except Fault Tree :=
  match node.first? path with
  | some found => .ok found
  | none => .error (node.fault (.missingPart node.kind part))

/-- The name of a type, which has to be simple. -/
def simpleName (node : Tree) : Except Fault String := do
  let name ← node.requiredValue "Name"
  if '.' ∈ name.toList then throw (node.fault (.qualifiedName name))
  return name

mutual

/-- The type that a node denotes. -/
def typeOf : Tree → Except Fault TypeExpr
  | ⟨kind, value, cover, source, children⟩ =>
    let node : Tree := ⟨kind, value, cover, source, children⟩
    match node.simpleName with
    | .error e => .error e
    | .ok name =>
      match argsOf children with
      | .error e => .error e
      | .ok args =>
        let count := (node.find "Dim").length
        if count < UInt32.size then .ok ⟨name, args, count⟩
        else .error (node.fault .tooManyDimensions)

/-- The arguments among the children of a `Type` node. -/
def argsOf : List Tree → Except Fault (List TypeArg)
  | [] => .ok []
  | child :: children =>
    if child.kind = "Argument" then
      match argOf child with
      | .error e => .error e
      | .ok arg =>
        match argsOf children with
        | .error e => .error e
        | .ok args => .ok (arg :: args)
    else argsOf children

/-- The argument that a node denotes. -/
def argOf : Tree → Except Fault TypeArg
  | ⟨kind, value, cover, source, children⟩ =>
    match firstTypeOf children with
    | some type => type.map .plain
    | none =>
      match firstWildcardOf children with
      | some wildcard => wildcard
      | none =>
        let node : Tree := ⟨kind, value, cover, source, children⟩
        .error (node.fault (.missingPart kind "a type or a wildcard"))

/-- The type that the first `Type` node denotes. -/
def firstTypeOf : List Tree → Option (Except Fault TypeExpr)
  | [] => none
  | child :: children =>
    if child.kind = "Type" then some (typeOf child) else firstTypeOf children

/-- The wildcard that the first `Wildcard` node denotes. -/
def firstWildcardOf : List Tree → Option (Except Fault TypeArg)
  | [] => none
  | child :: children =>
    if child.kind = "Wildcard" then some (wildcardOf child) else firstWildcardOf children

/-- The wildcard that a node denotes: keyword and bound come together or not at all. -/
def wildcardOf : Tree → Except Fault TypeArg
  | ⟨_, value, _, source, children⟩ =>
    match firstTypeOf children with
    | some (.error e) => .error e
    | some (.ok bound) =>
      match value with
      | some "extends" => .ok (.upper bound)
      | some "super" => .ok (.lower bound)
      | _ => .error (.grammar source .incompleteWildcard)
    | none =>
      match value with
      | none => .ok .any
      | some _ => .error (.grammar source .incompleteWildcard)

end

/-- The type parameter that a node declares. -/
def typeParamOf (node : Tree) : Except Fault TypeParam := do
  let bounds ← (node.find "Bound/Type").mapM typeOf
  return ⟨← node.requiredValue "Name", bounds⟩

/-- The type parameters that a node declares. -/
def typeParamsOf (node : Tree) : Except Fault TypeParams :=
  (node.find "TypeParameter").mapM typeParamOf

end FluentGrammar.Tree
