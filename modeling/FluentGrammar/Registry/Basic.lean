import FluentGrammar.Definition.Basic
import FluentGrammar.DependencyOrder
import FluentGrammar.Text.UpperCase

/-!
# The registry

All definitions by name, and what the steps of resolution have to remember about them: the
conversions, the explicit methods, what was made of those, the grammar rules and the test
interfaces. One class, the *utility class*, is there from the start and takes all static methods.
Two tables are kept beside the definitions: one finds a name by its upper-case form, the other says
which reduced signatures only one explicit method has.

* `Registry.get?`, `Registry.require`: look-up by name.
* `Registry.explicitMethods`, `Registry.isUnambiguous`: the static methods that may become instance
  methods.
* `Registry.sortedClasses`: the classes, each after the class it extends.
-/

namespace FluentGrammar

/-- Values of type `source` become values of type `target` by a static method. -/
structure Conversion where
  typeParams : TypeParams
  source : TypeExpr
  target : TypeExpr
  method : Method
deriving DecidableEq

/-- All definitions and what is known about them. -/
structure Registry where
  /-- The name of the class that takes all static methods. -/
  utility : String
  /-- Interfaces and classes in order of registration. -/
  definitions : List Definition
  /-- The names of interfaces and classes by their upper-case forms. -/
  foldedNames : Table String
  /-- Anonymous classes in order of registration. -/
  anonymous : List Definition
  /-- The number of names given to anonymous classes. -/
  anonymousCount : Nat
  /-- The anonymous class that a factory method makes. -/
  factories : Table String
  conversions : List Conversion
  /-- The signatures of the explicit methods in order of registration. -/
  explicit : List String
  /-- The reduced signatures of explicit methods, and whether one method only has it. -/
  unique : Table Bool
  /-- What was made of explicit methods, by signature. -/
  promotions : Table (List String)
  /-- The grammar rules by target. -/
  rules : Table (List String)
  tests : List Definition
deriving DecidableEq

namespace Registry

/-- A registry with nothing but its utility class. -/
def empty (utility : String) : Registry where
  utility := utility
  definitions := [(Definition.namedClass utility).withWords ["public", "final"]]
  foldedNames := (∅ : Table String).insert (Text.upperCase utility) utility
  anonymous := []
  anonymousCount := 0
  factories := ∅
  conversions := []
  explicit := []
  unique := ∅
  promotions := ∅
  rules := ∅
  tests := []

/-! ## Look-up -/

/-- The names of all definitions, anonymous classes included. -/
def names (r : Registry) : List String :=
  (r.definitions ++ r.anonymous).map Definition.name

/-- The definition of a name, anonymous classes included. -/
def get? (r : Registry) (name : String) : Option Definition :=
  (r.definitions ++ r.anonymous).find? (·.name = name)

/-- The definition of a name that has to be there. -/
def require (r : Registry) (name context : String) : Except ModelFault Definition :=
  match r.get? name with
  | some d => .ok d
  | none => .error (.unknownType name context)

/-- The registry with the definition of a name changed. -/
def modify (r : Registry) (name : String) (f : Definition → Definition) : Registry :=
  let change := fun (d : Definition) => if d.name = name then f d else d
  if name ∈ r.definitions.map Definition.name then
    { r with definitions := r.definitions.map change }
  else { r with anonymous := r.anonymous.map change }

/-- The interfaces in order of registration. -/
def interfaces (r : Registry) : List Definition :=
  r.definitions.filter Definition.isInterface

/-- The classes in order of registration, among them the utility class. -/
def classes (r : Registry) : List Definition :=
  r.definitions.filter Definition.isNamedClass

/-- The utility class. -/
def utilityClass? (r : Registry) : Option Definition :=
  r.definitions.find? (·.name = r.utility)

theorem name_of_get? {r : Registry} {name : String} {d : Definition} (h : r.get? name = some d) :
    d.name = name := by
  simpa using List.find?_some h

theorem mem_names_of_get? {r : Registry} {name : String} {d : Definition}
    (h : r.get? name = some d) : name ∈ r.names :=
  List.mem_map.mpr ⟨d, List.mem_of_find?_eq_some h, name_of_get? h⟩

/-! ## Anonymous classes and conversions -/

/-- The next name for an anonymous class. -/
def nextAnonymousName (r : Registry) : String :=
  r.utility ++ "$Anonymous" ++ toString (r.anonymousCount + 1)

/-- The registry once the next name for an anonymous class has been given away. -/
def takeAnonymousName (r : Registry) : Registry :=
  { r with anonymousCount := r.anonymousCount + 1 }

/-- The key of a factory method. -/
def factoryKey (m : Method) : String :=
  m.owner.name ++ "#" ++ m.signature

/-- The anonymous class that a factory method makes. -/
def anonymousOf? (r : Registry) (factory : Method) : Option Definition :=
  (r.factories.get? (factoryKey factory)).bind fun name => r.anonymous.find? (·.name = name)

/-- The registry with one more conversion. -/
def addConversion (r : Registry) (c : Conversion) : Registry :=
  { r with conversions := r.conversions ++ [c] }

/-! ## Explicit methods -/

/-- The registry with a note that one more explicit method has the reduced signature: the first one
is the only one, and with the second there is none that is, for good. -/
def noteReduced (r : Registry) (reduced : String) : Registry :=
  { r with
    unique :=
      if r.unique.contains reduced then r.unique.modify reduced fun _ => false
      else r.unique.insert reduced true }

/-- The explicit methods in order of registration. -/
def explicitMethods (r : Registry) : List Method :=
  match r.utilityClass? with
  | some u => r.explicit.filterMap u.methods.get?
  | none => []

/-- The only explicit method of its reduced signature. -/
def isUnambiguous (r : Registry) (m : Method) : Bool :=
  r.unique.get? m.reducedSignature = some true

/-- The other explicit methods, by reduced signature. -/
def ambiguousGroups (r : Registry) : Table (List Method) :=
  let ambiguous := r.explicitMethods.filter fun m => !r.isUnambiguous m
  ambiguous.foldl
    (fun t m => t.insert m.reducedSignature (((t.get? m.reducedSignature).getD []) ++ [m])) ∅

/-- How a member made of an explicit method is referred to. -/
def memberReference (owner : String) (member : Method) : String :=
  owner ++ "#" ++ member.name ++ "(" ++
    Text.joinWith ", " (member.params.map fun p => p.callType.text) ++ ")"

/-- What was made of the explicit method of a signature. -/
def promotionsOf (r : Registry) (signature : String) : List String :=
  (r.promotions.get? signature).getD []

/-- The registry with a note that a member was made of an explicit method. -/
def recordPromotion (r : Registry) (explicit : Method) (owner : String) (member : Method) :
    Registry :=
  let known := r.promotionsOf explicit.signature
  { r with
    promotions :=
      r.promotions.insert explicit.signature (known ++ [memberReference owner member]) }

/-! ## Rules and test interfaces -/

/-- The grammar rules of a target. -/
def rulesFor (r : Registry) (target : String) : List String :=
  (r.rules.get? target).getD []

/-- The registry with one more grammar rule of a target. -/
def addRule (r : Registry) (target rule : String) : Registry :=
  { r with rules := r.rules.insert target (r.rulesFor target ++ [rule]) }

/-- The registry with one more test interface. -/
def addTest (r : Registry) (d : Definition) : Registry :=
  { r with tests := r.tests ++ [d] }

/-! ## Order of classes -/

/-- The names of the classes that a class of the given name extends. -/
def superclassNames (r : Registry) (name : String) : List String :=
  match r.definitions.find? (·.name = name) with
  | some d => (d.superclass?.map TypeExpr.name).toList
  | none => []

/-- The classes, each after the class it extends. -/
def sortedClasses (r : Registry) : Except ModelFault (List Definition) :=
  match DependencyOrder.sort (r.classes.map Definition.name) r.superclassNames with
  | .ok order => .ok (order.filterMap fun name => r.definitions.find? (·.name = name))
  | .error members => .error (.cycle members)

end Registry

end FluentGrammar
