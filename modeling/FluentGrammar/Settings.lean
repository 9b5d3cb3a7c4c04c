import FluentGrammar.Config.Basic
import FluentGrammar.Method.Basic
import FluentGrammar.Text.Pieces

/-!
# Settings

A configuration as resolution uses it: the types and parameters of the archetypes are read.

* `Settings.ofConfig`: the settings of a configuration.
* `ArchetypeMethod.declare`: the method that an archetype gives an interface.
-/

namespace FluentGrammar

/-- A method that interfaces of an archetype get. -/
structure ArchetypeMethod where
  verb : String
  result : TypeExpr
  params : List Param
  /-- The function that puts the parts of a rule together. -/
  compose : Option String
deriving DecidableEq

/-- A kind of interfaces and the methods they get. -/
structure Archetype where
  kind : String
  methods : List ArchetypeMethod
deriving DecidableEq

/-- The settings under which a grammar is resolved. -/
structure Settings where
  utilityClass : String
  reservedPrefix : String
  testSuffix : String
  archetypes : List Archetype
deriving DecidableEq

/-- The type and the name in the text of a parameter: the name follows the last blank. -/
def splitParam (text : List Char) : Option (List Char × List Char) :=
  match text.reverse.span fun c => !Text.isBlank c with
  | (name, _ :: type) => some (type.reverse, name.reverse)
  | (_, []) => none

/-- The parameter that a text gives. -/
def Param.ofText (text : String) : Except ModelFault Param :=
  let text := Text.trim text
  match splitParam text.toList with
  | none => .error (.unnamedParameter text)
  | some (type, name) => do
    let type ← TypeExpr.ofText (Text.trim (String.ofList type))
    return { type := type, name := String.ofList name }

/-- The method of an archetype with its types read. -/
def ArchetypeMethod.ofEntry (m : ArchetypeMethodEntry) : Except ModelFault ArchetypeMethod := do
  return ⟨m.verb, ← TypeExpr.ofText m.result, ← m.params.mapM Param.ofText, m.compose⟩

/-- The archetype with the types of its methods read. -/
def Archetype.ofEntry (a : ArchetypeEntry) : Except ModelFault Archetype := do
  return ⟨a.kind, ← a.methods.mapM ArchetypeMethod.ofEntry⟩

namespace Settings

/-- The settings of a configuration. -/
def ofConfig (c : Config) : Except ModelFault Settings := do
  return ⟨c.generator.utilityClass, c.generator.reservedPrefix, c.generator.testSuffix,
    ← c.archetypes.mapM Archetype.ofEntry⟩

/-- The archetype of a kind. -/
def archetype? (s : Settings) (kind : String) : Option Archetype :=
  s.archetypes.find? (·.kind = kind)

/-- The name of the method that an archetype gives an interface. -/
def archetypeMethodName (s : Settings) (verb interface : String) : String :=
  s.reservedPrefix ++ verb ++ "$" ++ interface

/-- A name that is kept for generated methods. -/
def isReserved (s : Settings) (name : String) : Bool :=
  Text.beginsWith name s.reservedPrefix

/-- The utility class as the owner of methods. -/
def utilityOwner (s : Settings) : Owner :=
  ⟨s.utilityClass, .namedClass, []⟩

end Settings

/-- The method that an archetype gives an interface. -/
def ArchetypeMethod.declare (m : ArchetypeMethod) (s : Settings) (owner : Owner) : Method :=
  .make owner (s.archetypeMethodName m.verb owner.name) m.result m.params

end FluentGrammar
