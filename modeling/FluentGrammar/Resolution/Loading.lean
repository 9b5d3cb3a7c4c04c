import FluentGrammar.Declaration.Basic
import FluentGrammar.Registry.Ancestors
import FluentGrammar.Resolution.Basic
import FluentGrammar.Settings

/-!
# Loading of definitions

Declared interfaces and classes are registered. An interface with an archetype gets the methods of
the archetype, whose names no declared method may take. Once the classes are there, every
definition has to have known ancestors.

* `loadInterfaces`, `loadClasses`: the two steps.
-/

namespace FluentGrammar

/-- An interface none of whose methods has a reserved name. -/
def checkReserved (settings : Settings) (d : Definition) : Except Fault Unit :=
  match d.methods.values.find? fun m => settings.isReserved m.name with
  | some m => .error (.at m.source (.reservedName d.name m.name settings.reservedPrefix))
  | none => .ok ()

/-- An interface with the methods of its archetype. -/
def withArchetypeMethods (settings : Settings) (d : Definition) : Except Fault Definition :=
  match d.archetype? with
  | none => .ok d
  | some kind =>
    match settings.archetype? kind with
    | none => .error (.grammar d.source (.unknownArchetype d.name kind))
    | some archetype =>
      locate d.source (d.addMethods (archetype.methods.map (·.declare settings d.owner)))

/-- Register one interface. -/
def loadInterface (settings : Settings) (d : Definition) : Resolution Fault Unit := do
  Resolution.check (checkReserved settings d)
  let d ← Resolution.check (withArchetypeMethods settings d)
  Resolution.located d.source (Resolution.addDefinition d)

/-- Register all interfaces. -/
def loadInterfaces (settings : Settings) (units : List CompilationUnit) : Resolution Fault Unit :=
  (units.flatMap CompilationUnit.interfaces).forM (loadInterface settings)

/-- The ancestors of a definition are known and not cyclic. -/
def checkAncestors (d : Definition) : Resolution Fault Unit :=
  Resolution.located d.source (Resolution.inspect fun r => (r.ancestors d).map fun _ => ())

/-- Register all classes, and check the ancestors of all definitions. -/
def loadClasses (units : List CompilationUnit) : Resolution Fault Unit := do
  (units.flatMap CompilationUnit.classes).forM fun d =>
    Resolution.located d.source (Resolution.addDefinition d)
  (← get).definitions.forM checkAncestors

end FluentGrammar
