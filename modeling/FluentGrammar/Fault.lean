import FluentGrammar.TypeExpr.Reader

/-!
# Faults

Everything that can be wrong with a set of declarations. A *model fault* is the violation of a rule
and knows of no place in the grammar files; a *fault* is a model fault, possibly with the location
of the declaration that caused it, or a fault of the grammar tree itself. Lines and columns of a
location count from one; the location with no file and line zero belongs to everything that was made
up rather than declared.

* `Location`: where in the grammar files a declaration stands.
* `ModelFault.message`, `GrammarFault.message`, `Fault.message`: the wording, in one place each.
* `Fault.located`: a fault with a location, which it keeps once it has one.
-/

namespace FluentGrammar

/-! ## Locations -/

/-- A place in a grammar file. -/
structure Location where
  file : String
  line : Nat
  column : Nat
deriving DecidableEq, Inhabited

namespace Location

/-- The location of a part that no file declares. -/
def synthetic : Location :=
  ⟨"", 0, 0⟩

/-- A location that points into a file. -/
def isKnown (l : Location) : Bool :=
  l.file ≠ "" || l.line ≠ 0

/-- `file:line:column`, or a fixed mark for a part that no file declares. -/
def text (l : Location) : String :=
  if l.isKnown then s!"{l.file}:{l.line}:{l.column}" else "<synthetic>"

/-- Locations are ordered by file, then by line, then by column. -/
instance : Ord Location where
  compare l m :=
    (compare l.file m.file).then ((compare l.line m.line).then (compare l.column m.column))

end Location

/-! ## Faults of the model -/

/-- Why two types do not unify. -/
inductive Mismatch where
  | tooFewDimensions
  | alreadyBound (name : String) (arg : TypeArg)
  | differentTypes
  | differentDimensions
  | differentBounds
  | wildcardAgainstType
deriving DecidableEq

/-- The wording of a mismatch. -/
def Mismatch.text : Mismatch → String
  | .tooFewDimensions => "not enough array dimensions"
  | .alreadyBound name arg => s!"{name} is already bound to {arg.text}"
  | .differentTypes => "different types"
  | .differentDimensions => "different array dimensions"
  | .differentBounds => "different wildcard bounds"
  | .wildcardAgainstType => "a wildcard only unifies with a wildcard"

/-- The violation of a rule of the model. -/
inductive ModelFault where
  /-- A second definition of the same name. -/
  | duplicateType (name : String)
  /-- A definition whose name differs from an existing one in case only. -/
  | caseClash (name existing : String)
  /-- A second method of the same signature. -/
  | duplicateMethod (owner signature : String)
  /-- A name that no definition has. -/
  | unknownType (name context : String)
  /-- Two types that no binding of parameters makes equal. -/
  | unification (formal actual : TypeExpr) (mismatch : Mismatch)
  /-- A wrong number of type arguments. -/
  | arityMismatch (name : String) (expected found : Nat)
  /-- Two inherited methods of one signature and different contracts. -/
  | nameClash (owner signature first second : String)
  /-- Several explicit methods that suit a class equally well. -/
  | ambiguous (owner signature : String) (candidates : List String)
  /-- A declared method whose name is kept for generated ones. -/
  | reservedName (owner method reserved : String)
  /-- A change of state that the method's state does not allow. -/
  | illegalTransition (method reason : String)
  /-- A concrete class with an abstract method. -/
  | missingImplementation (owner method : String)
  /-- Definitions that inherit from themselves. -/
  | cycle (members : List String)
  /-- A text that is no type expression. -/
  | unreadableType (text : String) (fault : TypeExpr.ReadFault)
  /-- An anonymous class where only named definitions are registered. -/
  | unregisteredAnonymous (name : String)
  /-- A parameter of an archetype method that lacks a name. -/
  | unnamedParameter (text : String)
  /-- A stage that does not follow the stage it needs. -/
  | misplacedStage (stage : String) (required previous : Option String)
  /-- Any other violation, in words. -/
  | invalid (text : String)
deriving DecidableEq

/-- The wording of a model fault. -/
def ModelFault.message : ModelFault → String
  | .duplicateType name => s!"duplicate type name {name}"
  | .caseClash name existing =>
    s!"type name {name} clashes with {existing} on case-insensitive file systems"
  | .duplicateMethod owner signature => s!"duplicate method {signature} in {owner}"
  | .unknownType name context => s!"unknown type {name} referenced from {context}"
  | .unification formal actual mismatch =>
    s!"cannot unify {formal.text} with {actual.text}: {mismatch.text}"
  | .arityMismatch name expected found =>
    s!"type argument count mismatch for {name}: expected {expected}, found {found}"
  | .nameClash owner signature first second =>
    s!"name clash in {owner}: `{first}` and `{second}` have the same erasure {signature}"
  | .ambiguous owner signature candidates =>
    s!"ambiguous delegate {signature} for {owner}: " ++ Text.joinWith ", " candidates
  | .reservedName owner method reserved =>
    s!"method {method} in {owner} uses the reserved prefix {reserved}"
  | .illegalTransition method reason => s!"illegal state transition for {method}: {reason}"
  | .missingImplementation owner method => s!"{owner} does not implement {method}"
  | .cycle members => "cyclic inheritance involving " ++ Text.joinWith " -> " members
  | .unreadableType text fault =>
    s!"invalid type expression `{text}` at offset {fault.offset}: {fault.problem.text}"
  | .unregisteredAnonymous name => s!"anonymous class {name} must be registered with its factory"
  | .unnamedParameter text => s!"archetype parameter `{text}` has no name"
  | .misplacedStage stage required previous =>
    let required := required.getD "nothing"
    let previous := previous.getD "nothing"
    s!"stage {stage} requires {required}, but follows {previous}"
  | .invalid text => text

/-- A grammar tree that does not have the form of a declaration, or a declaration that the
configuration does not allow. -/
inductive GrammarFault where
  /-- A node without a value where one is needed. -/
  | missingValue (kind path : String)
  /-- A node without a child that is needed. -/
  | missingPart (kind part : String)
  /-- A tree that is not a compilation unit. -/
  | notAUnit (kind : String)
  /-- A node that cannot stand in a compilation unit. -/
  | unexpectedNode (kind : String)
  /-- A class with several superclasses. -/
  | manySuperclasses (name : String)
  /-- A concrete method of a class without a body. -/
  | missingBody (name : String)
  /-- A name with dots. -/
  | qualifiedName (name : String)
  /-- A wildcard with only one of keyword and type. -/
  | incompleteWildcard
  /-- A type with more dimensions than can be counted. -/
  | tooManyDimensions
  /-- A method outside of all definitions that is not static. -/
  | notStatic (name : String)
  /-- An archetype that the configuration does not know. -/
  | unknownArchetype (owner kind : String)
  /-- A rule whose target is not an interface with an archetype. -/
  | badTarget (target : TypeExpr)
  /-- Any other fault, in words. -/
  | other (text : String)
deriving DecidableEq

/-- The wording of a grammar fault. -/
def GrammarFault.message : GrammarFault → String
  | .missingValue kind path => s!"{kind} is missing a {path} value"
  | .missingPart kind part => s!"{kind} is missing {part}"
  | .notAUnit kind => s!"expected a Unit node, found {kind}"
  | .unexpectedNode kind => s!"unexpected {kind} in a compilation unit"
  | .manySuperclasses name => s!"class {name} may extend only one class"
  | .missingBody name => s!"method {name} needs a body or the abstract modifier"
  | .qualifiedName name => s!"qualified type name {name} is not supported"
  | .incompleteWildcard => "a wildcard bound needs `extends` or `super` and a type"
  | .tooManyDimensions => "too many array dimensions"
  | .notStatic name => s!"standalone method {name} must be static"
  | .unknownArchetype owner kind => s!"interface {owner} uses unknown archetype {kind}"
  | .badTarget target => s!"rule target {target.text} is not an archetyped interface"
  | .other text => text

/-- A fault as it is reported. -/
inductive Fault where
  /-- The violation of a rule at no known place. -/
  | model (fault : ModelFault)
  /-- The violation of a rule by the declaration at `location`. -/
  | at (location : Location) (fault : ModelFault)
  /-- A fault of the grammar tree at `location`. -/
  | grammar (location : Location) (fault : GrammarFault)
deriving DecidableEq

namespace Fault

instance : Coe ModelFault Fault := ⟨model⟩

/-- The wording of a fault, after the location if it has one. -/
def message : Fault → String
  | .model fault => fault.message
  | .at location fault => location.text ++ ": " ++ fault.message
  | .grammar location fault => location.text ++ ": " ++ fault.message

/-- The rule that was violated, if the fault is not one of the tree. -/
def modelFault? : Fault → Option ModelFault
  | .model fault | .at _ fault => some fault
  | .grammar .. => none

/-- The fault with a location, unless it has one already or the location is not known. -/
def located (location : Location) : Fault → Fault
  | .model fault => if location.isKnown then .at location fault else .model fault
  | fault => fault

end Fault

/-- The outcome of a check, its model fault located. -/
def locate {α : Type} (location : Location) : Except ModelFault α → Except Fault α :=
  Except.mapError fun fault => (Fault.model fault).located location

/-- The type that a text denotes, its unreadable form a model fault. -/
def TypeExpr.ofText (text : String) : Except ModelFault TypeExpr :=
  (TypeExpr.read text).mapError (.unreadableType text)

end FluentGrammar
