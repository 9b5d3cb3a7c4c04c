import FluentGrammar.Declaration.Basic
import FluentGrammar.Declaration.TypeNode

/-!
# Declarations in grammar trees

The declarations that the nodes of a grammar tree denote. A node that lacks a part it needs, or has
one it must not have, is a fault at its location.

* `Tree.unitOf`: the compilation unit that a tree denotes.
* `Tree.interfaceOf`, `Tree.classOf`, `Tree.ruleOf`, `Tree.methodOf`: its declarations.
-/

namespace FluentGrammar.Tree

/-- The documentation of a node, taken from its `Comment` child. -/
def commentOf (node : Tree) : String :=
  match node.first? "Comment" with
  | some comment => Text.docText (comment.value.getD comment.image)
  | none => ""

/-- The words of the `Modifier` children. -/
def wordsOf (node : Tree) : List String :=
  (node.find "Modifier").filterMap Tree.value

/-- The formal parameter that a node denotes. -/
def paramOf (node : Tree) : Except Fault Param := do
  let type ← (← node.requiredNode "Type" "a type").typeOf
  return {
    type := type
    name := ← node.requiredValue "Name"
    modifiers := .ofList node.wordsOf
    variadic := node.has "Variadic" }

/-- The method that a node denotes on the given owner. A concrete method of a class needs a
body. -/
def methodOf (owner : Owner) (node : Tree) : Except Fault Method := do
  let name ← node.requiredValue "Name"
  let resultNode ← node.requiredNode "Result/Type" "a result type"
  let params ← (node.find "Parameter").mapM paramOf
  let throws ← (node.find "Throws/Type").mapM typeOf
  let result ← resultNode.typeOf
  let typeParams ← node.typeParamsOf
  let m : Method := {
    (Method.make owner name result params).withWords node.wordsOf with
    typeParams := typeParams
    throws := .ofList throws
    comment := node.commentOf
    body := (node.first? "Body").map fun body => Text.bodyText body.image
    source := node.source }
  if m.body.isNone && owner.kind = .namedClass && !m.isAbstract then
    throw (node.fault (.missingBody name))
  return m

/-- The field that a node denotes. -/
def fieldOf (node : Tree) : Field :=
  ⟨node.commentOf, node.image, node.source⟩

/-- A definition with the modifiers, type parameters and documentation of a node. -/
def withHeader (node : Tree) (d : Definition) : Except Fault Definition := do
  return { d.withWords node.wordsOf with
    typeParams := ← node.typeParamsOf
    comment := node.commentOf
    source := node.source }

/-- A definition with one more method, which a node denotes. -/
def withMethodNode (d : Definition) (node : Tree) : Except Fault Definition := do
  let m ← methodOf d.owner node
  (d.addMethod m).mapError (Fault.at node.source)

/-- A definition with the methods and fields of a node. -/
def withMembers (node : Tree) (d : Definition) : Except Fault Definition := do
  let d ← (node.find "Method").foldlM withMethodNode d
  return { d with fields := (node.find "Field").map fieldOf }

/-- The interface that a node denotes. -/
def interfaceOf (node : Tree) : Except Fault Definition := do
  let d ← node.withHeader (.interface (← node.requiredValue "Name"))
  let parents ← (node.find "Extends/Type").mapM typeOf
  let d := parents.foldl Definition.extending d
  node.withMembers (((node.valueOf? "Archetype").map d.withArchetype).getD d)

/-- The class that a node denotes. -/
def classOf (node : Tree) : Except Fault Definition := do
  let d ← node.withHeader (.namedClass (← node.requiredValue "Name"))
  let parents := node.find "Extends/Type"
  if 1 < parents.length then throw (node.fault (.manySuperclasses d.name))
  let superclass ← parents.mapM typeOf
  let interfaces ← (node.find "Implements/Type").mapM typeOf
  node.withMembers (interfaces.foldl Definition.implementing
    (superclass.foldl Definition.extending d))

/-- The symbol of a rule that a node denotes: an argument if it has a type, and a terminal
otherwise. -/
def symbolOf (node : Tree) : Except Fault RuleSymbol := do
  match node.first? "Type" with
  | some type => return .argument (← node.requiredValue "Name") (← type.typeOf)
  | none =>
    match node.value with
    | some text => return .terminal text
    | none => throw (node.fault (.missingPart node.kind "a terminal or an argument"))

/-- The production rule that a node denotes. -/
def ruleOf (node : Tree) : Except Fault ProductionRule := do
  let target ← node.requiredNode "Target/Type" "a target type"
  let symbols ← (node.find "Symbol").mapM symbolOf
  return {
    comment := node.commentOf
    typeParams := ← node.typeParamsOf
    target := ← target.typeOf
    symbols := symbols
    name := node.valueOf? "Name"
    image := node.image
    source := node.source }

/-- A unit with one more declaration. -/
def declare (unit : CompilationUnit) (d : Declaration) : CompilationUnit :=
  { unit with declarations := unit.declarations ++ [d] }

/-- A unit with what one more child of its node denotes. Methods outside of definitions belong to
`utility`. -/
def withChild (utility : Owner) (unit : CompilationUnit) (child : Tree) :
    Except Fault CompilationUnit := do
  match child.kind with
  | "Import" => return { unit with imports := unit.imports.insert child.image }
  | "Interface" => return declare unit (.interface (← child.interfaceOf))
  | "Class" => return declare unit (.namedClass (← child.classOf))
  | "Rule" => return declare unit (.rule (← child.ruleOf))
  | "Method" => return declare unit (.method (← methodOf utility child))
  | kind => throw (child.fault (.unexpectedNode kind))

/-- A declaration with the imports of its unit, which every definition takes over. -/
def withImports (imports : OrderedSet String) : Declaration → Declaration
  | .interface d => .interface { d with imports := d.imports.insertMany imports.toList }
  | .namedClass d => .namedClass { d with imports := d.imports.insertMany imports.toList }
  | d => d

/-- The compilation unit that a tree denotes. -/
def unitOf (utility : Owner) (node : Tree) : Except Fault CompilationUnit := do
  if node.kind ≠ "Unit" then throw (node.fault (.notAUnit node.kind))
  let unit ← node.children.foldlM (withChild utility) ⟨∅, []⟩
  return { unit with declarations := unit.declarations.map (withImports unit.imports) }

end FluentGrammar.Tree
