import FluentGrammar.Declaration.OfTree
import FluentGrammar.Resolution.Closure
import FluentGrammar.Resolution.Factories
import FluentGrammar.Resolution.Finishing
import FluentGrammar.Resolution.Implementation
import FluentGrammar.Resolution.Loading
import FluentGrammar.Resolution.Promotion
import FluentGrammar.Resolution.Selection

/-!
# Resolution

The steps that turn declarations into a finished registry, in their order. Each step relies on what
the one before has established.

* `Stage`: the steps by name.
* `Stage.checkChain`: a list of stages each of which follows the one it needs.
* `resolve`: the registry of a list of grammar trees.
-/

namespace FluentGrammar

/-- The steps of resolution. -/
inductive Stage where
  | loadInterfaces
  | loadClasses
  | productionRules
  | explicitMethods
  | conversionClosure
  | interfaceEnhancement
  | implementMethods
  | ambiguityResolution
  | finalize
deriving DecidableEq

namespace Stage

/-- All stages in their order. -/
def standard : List Stage :=
  [loadInterfaces, loadClasses, productionRules, explicitMethods, conversionClosure,
    interfaceEnhancement, implementMethods, ambiguityResolution, finalize]

/-- The name of a stage. -/
def name : Stage → String
  | loadInterfaces => "load-interfaces"
  | loadClasses => "load-classes"
  | productionRules => "production-rules"
  | explicitMethods => "explicit-methods"
  | conversionClosure => "conversion-closure"
  | interfaceEnhancement => "interface-enhancement"
  | implementMethods => "implement-methods"
  | ambiguityResolution => "ambiguity-resolution"
  | finalize => "finalize"

/-- The stage that has to come right before. -/
def requires? : Stage → Option Stage
  | loadInterfaces => none
  | loadClasses => some loadInterfaces
  | productionRules => some loadClasses
  | explicitMethods => some productionRules
  | conversionClosure => some explicitMethods
  | interfaceEnhancement => some conversionClosure
  | implementMethods => some interfaceEnhancement
  | ambiguityResolution => some implementMethods
  | finalize => some ambiguityResolution

/-- Every stage of a list follows the one it needs, where `previous` comes before the list. -/
def checkChain (previous : Option Stage) : List Stage → Except ModelFault Unit
  | [] => .ok ()
  | stage :: stages =>
    if stage.requires? = previous then checkChain (some stage) stages
    else .error (.misplacedStage stage.name (stage.requires?.map name) (previous.map name))

end Stage

/-- What a stage does with the tables of a source. -/
def TableSource.run (tables : TableSource) (settings : Settings) (units : List CompilationUnit) :
    Stage → Resolution Fault Unit
  | .loadInterfaces => loadInterfaces settings units
  | .loadClasses => loadClasses units
  | .productionRules => tables.addFactories settings units
  | .explicitMethods => addExplicitMethods units
  | .conversionClosure => tables.closeClasses
  | .interfaceEnhancement => promoteMethods
  | .implementMethods => tables.implementMethods
  | .ambiguityResolution => tables.selectMethods
  | .finalize => tables.finish settings

/-- What a stage does. -/
abbrev Stage.run := TableSource.run Registry.allMethods

/-- The compilation units of a list of grammar trees. -/
def readUnits (settings : Settings) (trees : List Tree) : Except Fault (List CompilationUnit) :=
  trees.mapM (Tree.unitOf settings.utilityOwner)

/-- The registry after the given stages. -/
def runStages (settings : Settings) (units : List CompilationUnit) (stages : List Stage) :
    Except Fault Registry :=
  match stages.forM (Stage.run settings units) (Registry.empty settings.utilityClass) with
  | .ok _ r => .ok r
  | .error e _ => .error e

/-- The registry of a list of grammar trees. -/
def resolve (settings : Settings) (trees : List Tree) : Except Fault Registry := do
  runStages settings (← readUnits settings trees) Stage.standard

end FluentGrammar
