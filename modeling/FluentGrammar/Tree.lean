import FluentGrammar.Fault
import FluentGrammar.Text.Pieces

/-!
# Grammar trees

The form in which declarations arrive: nodes of named kinds, some with a text of their own. Trees
are queried by *paths*, chains of kinds that lead from a node to its descendants.

* `Tree.find`: the descendants a path leads to, in document order.
* `Tree.image`: the text a node covers.
-/

namespace FluentGrammar

/-- A node with its kind, its own value, the text it covers, its location and its children. -/
structure Tree where
  kind : String
  value : Option String
  cover : Option String
  source : Location
  children : List Tree

namespace Tree

instance : Inhabited Tree := ⟨⟨"", none, none, .synthetic, []⟩⟩

/-- The kinds that a path names, from the top down; empty ones do not count. -/
def segments (path : String) : List String :=
  (Text.split '/' path).filter (· ≠ "")

/-- The children of one kind of each of the nodes. -/
def descend (nodes : List Tree) (kind : String) : List Tree :=
  nodes.flatMap fun node => node.children.filter (·.kind = kind)

/-- The descendants that a chain of kinds leads to. -/
def follow (node : Tree) (kinds : List String) : List Tree :=
  kinds.foldl descend [node]

/-- The descendants that a path leads to, in document order; the node itself for an empty path. -/
def find (node : Tree) (path : String) : List Tree :=
  node.follow (segments path)

/-- The first descendant that a path leads to. -/
def first? (node : Tree) (path : String) : Option Tree :=
  (node.find path).head?

/-- The value of the first descendant that a path leads to. -/
def valueOf? (node : Tree) (path : String) : Option String :=
  (node.first? path).bind Tree.value

/-- A path that leads to some descendant. -/
def has (node : Tree) (path : String) : Bool :=
  (node.first? path).isSome

mutual

/-- All values of a node and its descendants, parents before children. -/
def values : Tree → List String
  | ⟨_, value, _, _, children⟩ => value.toList ++ valuesOfAll children

/-- All values of several nodes and their descendants. -/
def valuesOfAll : List Tree → List String
  | [] => []
  | node :: nodes => node.values ++ valuesOfAll nodes

end

/-- The text that a node covers, which is its values separated by blanks unless it is given. -/
def image (node : Tree) : String :=
  node.cover.getD (Text.joinWith " " node.values)

end Tree

end FluentGrammar
