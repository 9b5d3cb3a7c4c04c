import FluentGrammar.Method.Basic
import FluentGrammar.Table

/-!
# Definitions

Interfaces, classes and anonymous classes, each with its supertypes and its own methods.

* `Definition.Shape`: what is peculiar to each of the three kinds.
* `Definition.supertypes`: the types a definition names as its parents.
* `Definition.addMethod`: one more method, whose signature must be new.
* `Definition.header`: the first line of a definition with its documentation.
-/

namespace FluentGrammar

/-- How a class came to an interface that it does not inherit: by converting the ancestor `via`. -/
structure ConversionPath where
  via : TypeExpr
  target : TypeExpr
  /-- The name of the converting method. -/
  conversion : String
  /-- The number of conversions on the way from the interfaces the class inherits. -/
  distance : Nat
deriving DecidableEq

/-- A field or another part of a definition that is kept as it is written. -/
structure Field where
  comment : String
  text : String
  source : Location
deriving DecidableEq

/-- What is peculiar to a kind of definition. -/
inductive Definition.Shape where
  /-- An interface with the interfaces it extends and its archetype. -/
  | interface (parents : List TypeExpr) (archetype : Option String)
  /-- A class with its superclass, the interfaces it implements and, by interface, the ways by
  which it gained some of them. -/
  | namedClass (superclass : Option TypeExpr) (interfaces : List TypeExpr)
      (paths : Table ConversionPath)
  /-- An anonymous class with the type it implements. -/
  | anonymousClass (parent : TypeExpr)
deriving DecidableEq

/-- An interface, a class or an anonymous class. -/
structure Definition where
  name : String
  access : Access
  modifiers : Modifiers
  typeParams : TypeParams
  methods : Table Method
  fields : List Field
  imports : OrderedSet String
  comment : String
  source : Location
  shape : Definition.Shape
deriving DecidableEq

namespace Definition

/-- A definition without modifiers, parameters and members. -/
def make (name : String) (shape : Shape) : Definition where
  name := name
  access := .packageAccess
  modifiers := ∅
  typeParams := []
  methods := ∅
  fields := []
  imports := ∅
  comment := ""
  source := .synthetic
  shape := shape

/-- An interface without parents. -/
def interface (name : String) : Definition :=
  make name (.interface [] none)

/-- A class without parents. -/
def namedClass (name : String) : Definition :=
  make name (.namedClass none [] ∅)

/-- An anonymous class, which is public. -/
def anonymousClass (name : String) (parent : TypeExpr) : Definition :=
  { make name (.anonymousClass parent) with access := .publicAccess }

/-! ## Parts -/

/-- The kind of a definition. -/
def kind (d : Definition) : Kind :=
  match d.shape with
  | .interface .. => .interface
  | .namedClass .. => .namedClass
  | .anonymousClass .. => .anonymousClass

/-- An interface. -/
def isInterface (d : Definition) : Bool :=
  d.kind = .interface

/-- A class with a name of its own. -/
def isNamedClass (d : Definition) : Bool :=
  d.kind = .namedClass

/-- A definition that may leave methods abstract. -/
def isAbstract (d : Definition) : Bool :=
  match d.kind with
  | .interface => true
  | .namedClass => "abstract" ∈ d.modifiers
  | .anonymousClass => false

/-- The archetype of an interface. -/
def archetype? (d : Definition) : Option String :=
  match d.shape with
  | .interface _ archetype => archetype
  | _ => none

/-- The superclass of a class. -/
def superclass? (d : Definition) : Option TypeExpr :=
  match d.shape with
  | .namedClass superclass _ _ => superclass
  | _ => none

/-- The interfaces that a class implements directly. -/
def interfaces (d : Definition) : List TypeExpr :=
  match d.shape with
  | .namedClass _ interfaces _ => interfaces
  | _ => []

/-- The ways by which a class gained interfaces. -/
def paths (d : Definition) : Table ConversionPath :=
  match d.shape with
  | .namedClass _ _ paths => paths
  | _ => ∅

/-- The parents in order of declaration, a superclass before the interfaces. -/
def supertypes (d : Definition) : List TypeExpr :=
  match d.shape with
  | .interface parents _ => parents
  | .namedClass superclass interfaces _ => superclass.toList ++ interfaces
  | .anonymousClass parent => [parent]

/-- The definition as the owner of its methods. -/
def owner (d : Definition) : Owner :=
  ⟨d.name, d.kind, d.typeParams.names⟩

/-- The type of the definition with its own parameters as arguments. -/
def selfType (d : Definition) : TypeExpr :=
  .generic d.name d.typeParams.asArgs

/-- The number of conversions by which a class gained an interface; zero for one it inherits. -/
def distanceTo (d : Definition) (interface : String) : Nat :=
  ((d.paths.get? interface).map ConversionPath.distance).getD 0

/-! ## Changes -/

/-- The definition with the access and the modifiers that a list of words gives. -/
def withWords (d : Definition) (words : List String) : Definition :=
  { d with access := accessOf words, modifiers := modifiersOf words }

/-- The definition with one more parent to extend. Only an interface can have several. -/
def extending (d : Definition) (t : TypeExpr) : Definition :=
  { d with
    shape := match d.shape with
      | .interface parents archetype => .interface (parents ++ [t]) archetype
      | .namedClass _ interfaces paths => .namedClass (some t) interfaces paths
      | .anonymousClass _ => .anonymousClass t }

/-- The definition with one more interface to implement, which an interface extends instead. -/
def implementing (d : Definition) (t : TypeExpr) : Definition :=
  { d with
    shape := match d.shape with
      | .interface parents archetype => .interface (parents ++ [t]) archetype
      | .namedClass superclass interfaces paths => .namedClass superclass (interfaces ++ [t]) paths
      | .anonymousClass _ => .anonymousClass t }

/-- An interface with an archetype; other definitions have none. -/
def withArchetype (d : Definition) (archetype : String) : Definition :=
  { d with
    shape := match d.shape with
      | .interface parents _ => .interface parents (some archetype)
      | shape => shape }

/-- The definition with a method of its own, in the place of one of the same signature. -/
def withMethod (d : Definition) (m : Method) : Definition :=
  let m := m.reown d.owner
  { d with methods := d.methods.insert m.signature m }

/-- The definition with one more method, which must have a signature of its own. -/
def addMethod (d : Definition) (m : Method) : Except ModelFault Definition :=
  let m := m.reown d.owner
  if d.methods.contains m.signature then .error (.duplicateMethod d.name m.signature)
  else .ok { d with methods := d.methods.insert m.signature m }

/-- The definition with several more methods. -/
def addMethods (d : Definition) (ms : List Method) : Except ModelFault Definition :=
  ms.foldlM addMethod d

/-- A class with its interfaces changed. -/
def mapInterfaces (d : Definition) (f : List TypeExpr → List TypeExpr) : Definition :=
  { d with
    shape := match d.shape with
      | .namedClass superclass interfaces paths => .namedClass superclass (f interfaces) paths
      | shape => shape }

/-- A class that does not yet name an interface of this name among those it implements. -/
def lacksInterface (d : Definition) (t : TypeExpr) : Bool :=
  d.isNamedClass && d.interfaces.all fun i => i.name ≠ t.name

/-- A class with one more interface, unless it names one of the same name already. -/
def addInterface (d : Definition) (t : TypeExpr) : Definition :=
  if d.lacksInterface t then d.mapInterfaces (· ++ [t]) else d

/-- A class without the directly implemented interfaces of the given names. -/
def removeInterfaces (d : Definition) (names : List String) : Definition :=
  d.mapInterfaces (·.filter (·.name ∉ names))

/-- A class with the ways to interfaces recorded, each unless one is known already. -/
def addPaths (d : Definition) (paths : List ConversionPath) : Definition :=
  { d with
    shape := match d.shape with
      | .namedClass superclass interfaces known =>
        .namedClass superclass interfaces
          (paths.foldl (fun t path => t.insertNew path.target.name path) known)
      | shape => shape }

/-! ## Text -/

/-- The words after the name that list the parents. -/
def parentWords (d : Definition) : List String :=
  let listed := fun (word : String) (types : List TypeExpr) =>
    if types.isEmpty then [] else [word ++ " " ++ Text.joinWith ", " (types.map TypeExpr.text)]
  match d.shape with
  | .interface parents _ => listed "extends" parents
  | .namedClass superclass interfaces _ =>
    listed "extends" superclass.toList ++ listed "implements" interfaces
  | .anonymousClass parent => listed "extends" [parent]

/-- Documentation and first line of the definition, without its members. -/
def header (d : Definition) : String :=
  let keyword := if d.isInterface then "interface" else "class"
  let words := d.access.word?.toList ++ d.modifiers.printed ++
    [keyword, d.name ++ d.typeParams.text] ++ d.parentWords
  Text.docBlock d.comment ++ Text.joinWith " " words

end Definition

end FluentGrammar
