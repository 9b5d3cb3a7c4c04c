import FluentGrammar.Modifier
import FluentGrammar.TypeParam

/-!
# Owners

What a method has to know about the definition it belongs to: its name, its kind and the names of
its type parameters. The kind decides which methods are public and which are abstract.
-/

namespace FluentGrammar

/-- The three kinds of definitions. -/
inductive Kind where
  | interface
  | namedClass
  | anonymousClass
deriving DecidableEq, Inhabited

namespace Kind

/-- The wording of a kind. -/
def text : Kind → String
  | interface => "interface"
  | namedClass => "class"
  | anonymousClass => "anonymous class"

/-- Methods of an interface are abstract whatever their modifiers; others need the word. -/
def isAbstract (kind : Kind) (modifiers : Modifiers) : Bool :=
  match kind with
  | interface => true
  | namedClass | anonymousClass => "abstract" ∈ modifiers

/-- Methods of interfaces and anonymous classes are public whatever their access. -/
def isPublic (kind : Kind) (access : Access) : Bool :=
  match kind with
  | interface | anonymousClass => true
  | namedClass => access = .publicAccess

end Kind

/-- The definition that a method belongs to, as far as the method needs it. -/
structure Owner where
  name : String
  kind : Kind
  typeParams : List String
deriving DecidableEq, Inhabited

/-- The owner's type with its own parameters as arguments. -/
def Owner.selfType (o : Owner) : TypeExpr :=
  .generic o.name (TypeParams.ofNames o.typeParams).asArgs

end FluentGrammar
