import FluentGrammar.Definition.Basic

/-!
# Declarations

What a compilation unit can declare: interfaces, classes, methods outside of all definitions, and
*production rules*. A rule says how a value of its target is written as a sequence of terminals and
arguments; it gives rise to a factory method with these arguments.
-/

namespace FluentGrammar

/-- A symbol of a production rule. -/
inductive RuleSymbol where
  | terminal (text : String)
  | argument (name : String) (type : TypeExpr)
deriving DecidableEq

/-- How values of a target type are written. -/
structure ProductionRule where
  comment : String
  typeParams : TypeParams
  target : TypeExpr
  symbols : List RuleSymbol
  /-- The name of the factory method, if the rule gives one. -/
  name : Option String
  /-- The rule as it is written. -/
  image : String
  source : Location
deriving DecidableEq

/-- The arguments of a rule, in order. -/
def ProductionRule.arguments (rule : ProductionRule) : List (String × TypeExpr) :=
  rule.symbols.filterMap fun
    | .argument name type => some (name, type)
    | .terminal _ => none

/-- One declaration of a compilation unit. -/
inductive Declaration where
  | interface (definition : Definition)
  | namedClass (definition : Definition)
  | rule (rule : ProductionRule)
  | method (method : Method)
deriving DecidableEq

/-- The imports and declarations of one grammar file, the latter in document order. -/
structure CompilationUnit where
  imports : OrderedSet String
  declarations : List Declaration
deriving DecidableEq

namespace CompilationUnit

/-- The interfaces of a unit. -/
def interfaces (unit : CompilationUnit) : List Definition :=
  unit.declarations.filterMap fun
    | .interface d => some d
    | _ => none

/-- The classes of a unit. -/
def classes (unit : CompilationUnit) : List Definition :=
  unit.declarations.filterMap fun
    | .namedClass d => some d
    | _ => none

/-- The production rules of a unit. -/
def rules (unit : CompilationUnit) : List ProductionRule :=
  unit.declarations.filterMap fun
    | .rule r => some r
    | _ => none

/-- The methods of a unit outside of its definitions. -/
def methods (unit : CompilationUnit) : List Method :=
  unit.declarations.filterMap fun
    | .method m => some m
    | _ => none

end CompilationUnit

end FluentGrammar
