import FluentGrammar.Registry.Methods
import FluentGrammar.Resolution.Basic

/-!
# Implementation of inherited methods

Every abstract method that a class inherits is settled: it forwards to its delegate, or is declared
abstract if it has none and the class is abstract; a concrete class must not have any other. Classes
come after their superclasses, and anonymous classes last.

* `settle`: one inherited method settled.
* `implementMethods`: the step that handles all classes.
-/

namespace FluentGrammar

/-- An inherited abstract method of a class settled. -/
def settle (d : Definition) (m : Method) : Except ModelFault Method :=
  match m.delegate with
  | some delegate =>
    m.implement (m.forward (delegate.utility ++ "." ++ delegate.method) (some "this"))
  | none =>
    if d.isAbstract then m.declareAbstract
    else .error (.missingImplementation d.name m.declaration)

/-- All inherited abstract methods of a class settled. -/
def TableSource.settledMethods (tables : TableSource) (r : Registry) (d : Definition) :
    Except ModelFault (List Method) := do
  ((← tables r d).values.filter Method.isOpen).mapM (settle d)

/-- Settle the inherited abstract methods of one class. -/
def TableSource.implementClass (tables : TableSource) (name : String) : Resolution Fault Unit := do
  let d ← Resolution.unlocated (Resolution.inspect (·.require name "method implementation"))
  Resolution.located d.source do
    let methods ← Resolution.inspect (tables.settledMethods · d)
    methods.forM (Resolution.addMethod name "method implementation")

/-- Settle the inherited abstract methods of all classes. -/
def TableSource.implementMethods (tables : TableSource) : Resolution Fault Unit := do
  let r ← get
  let sorted ← Resolution.unlocated (Resolution.check r.sortedClasses)
  let named := (sorted.map Definition.name).filter (· ≠ r.utility)
  (named ++ r.anonymous.map Definition.name).forM tables.implementClass

/-! ## With the tables of the registry -/

@[inherit_doc TableSource.settledMethods]
abbrev settledMethods := TableSource.settledMethods Registry.allMethods

@[inherit_doc TableSource.implementClass]
abbrev implementClass := TableSource.implementClass Registry.allMethods

@[inherit_doc TableSource.implementMethods]
abbrev implementMethods := TableSource.implementMethods Registry.allMethods

end FluentGrammar
