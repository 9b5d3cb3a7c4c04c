import FluentGrammar.Declaration.Basic
import FluentGrammar.Registry.Methods
import FluentGrammar.Resolution.Basic
import FluentGrammar.Settings

/-!
# Factories

Every production rule gives rise to a static factory method on the utility class, with the rule's
arguments as parameters and its target as result. The factory makes an anonymous class that
implements the target: each archetype method of the target gets a body that treats the symbols of
the rule in order. A rule without a name and with one argument is a conversion besides.

* `archetypeBody`: the body of an archetype method for a rule.
* `anonymousFor`: the anonymous class of a rule.
* `addFactories`: the step that handles all rules.
-/

namespace FluentGrammar

/-- A character within a string literal. -/
def literalChar : Char → List Char
  | '"' => ['\\', '"']
  | '\\' => ['\\', '\\']
  | '\n' => ['\\', 'n']
  | '\t' => ['\\', 't']
  | c => [c]

/-- A text as a string literal of the generated language. -/
def stringLiteral (text : String) : String :=
  String.ofList ('"' :: text.toList.flatMap literalChar ++ ['"'])

/-! ## Bodies -/

/-- The archetype method that a method of an interface was declared from. -/
def archetypeMethodOf? (r : Registry) (settings : Settings) (m : Method) :
    Option ArchetypeMethod := do
  guard (settings.isReserved m.name)
  let kind ← (← r.get? m.origin).archetype?
  (← settings.archetype? kind).methods.find? fun a =>
    settings.archetypeMethodName a.verb m.origin = m.name

/-- The call of an archetype method on an argument, if the argument's interface has the archetype
`kind`. -/
def archetypeCall? (r : Registry) (settings : Settings) (kind verb callArgs : String)
    (arg : String × TypeExpr) : Option String := do
  let d ← r.get? arg.2.name
  guard (d.archetype? = some kind)
  return arg.1 ++ "." ++ settings.archetypeMethodName verb d.name ++ "(" ++ callArgs ++ ")"

/-- The body of an archetype method for a rule. A method that returns something puts the terminals
and the results of the arguments together; any other calls the arguments one after the other. -/
def archetypeBody (r : Registry) (settings : Settings) (rule : ProductionRule) (kind : String)
    (method : ArchetypeMethod) (stub : Method) : String :=
  let callArgs := Text.joinWith ", " (stub.params.map Param.name)
  let call? := archetypeCall? r settings kind method.verb callArgs
  match (if stub.isVoid then none else method.compose) with
  | some compose =>
    let items := rule.symbols.map fun
      | .terminal text => stringLiteral text
      | .argument name type => (call? (name, type)).getD name
    "return " ++ compose ++ "(" ++ Text.joinWith ", " items ++ ");"
  | none => Text.joinWith "\n" ((rule.arguments.filterMap call?).map (· ++ ";"))

/-! ## Anonymous classes -/

/-- The implementation of one archetype method on the anonymous class of a rule. -/
def implementArchetype (r : Registry) (settings : Settings) (rule : ProductionRule) (kind : String)
    (anonymous : Definition) (m : Method) (method : ArchetypeMethod) :
    Except ModelFault Method := do
  let stub ← r.overrideFor anonymous m
  stub.implement (archetypeBody r settings rule kind method stub)

/-- The anonymous class of a rule under the given name. -/
def TableSource.anonymousFor (tables : TableSource) (r : Registry) (settings : Settings)
    (rule : ProductionRule) (kind name : String) : Except ModelFault Definition := do
  let anonymous := { Definition.anonymousClass name rule.target with typeParams := rule.typeParams }
  let target ← r.require rule.target.name name
  let methods := (← tables r target).values.filterMap fun m =>
    (archetypeMethodOf? r settings m).map fun method => (m, method)
  let implemented ← methods.mapM fun (m, method) =>
    implementArchetype r settings rule kind anonymous m method
  anonymous.addMethods implemented

@[inherit_doc TableSource.anonymousFor]
abbrev anonymousFor := TableSource.anonymousFor Registry.allMethods

/-! ## Factory methods -/

/-- The name of the factory of a rule: its own, or one made of the names of target and
arguments. -/
def factoryName (settings : Settings) (rule : ProductionRule) : String :=
  rule.name.getD (settings.reservedPrefix ++ rule.target.name ++ "$from" ++
    String.join (rule.arguments.map fun (_, type) => "$" ++ type.name))

/-- The factory method of a rule. -/
def factoryFor (settings : Settings) (owner : Owner) (rule : ProductionRule) : Method :=
  let params := rule.arguments.map fun (name, type) =>
    ({ type := type, name := name, modifiers := .ofList ["final"] } : Param)
  { (Method.make owner (factoryName settings rule) rule.target params).withWords
      ["public", "static"] with
    typeParams := rule.typeParams
    comment := rule.comment
    source := rule.source }

/-- The conversion that a rule stands for, if it has no name and one argument. -/
def conversionFor? (rule : ProductionRule) (factory : Method) : Option Conversion :=
  match rule.name, rule.arguments with
  | none, [(_, source)] => some ⟨rule.typeParams, source, rule.target, factory⟩
  | _, _ => none

/-- The archetype of the target of a rule. -/
def targetArchetype (r : Registry) (rule : ProductionRule) : Except Fault String :=
  match (r.get? rule.target.name).bind Definition.archetype? with
  | some kind => .ok kind
  | none => .error (.grammar rule.source (.badTarget rule.target))

/-- Register the factory of a rule: as an explicit method if the rule has a name. -/
def addFactory (rule : ProductionRule) (factory : Method) : Resolution ModelFault Unit :=
  if rule.name.isSome then Resolution.addExplicit factory else Resolution.addUtilityMethod factory

/-- Add imports to the utility class. -/
def addUtilityImports (imports : OrderedSet String) : Resolution Fault Unit :=
  modify fun r => r.modify r.utility fun d =>
    { d with imports := d.imports.insertMany imports.toList }

/-- Handle one rule. -/
def TableSource.handleRule (tables : TableSource) (settings : Settings) (rule : ProductionRule) :
    Resolution Fault Unit := do
  let kind ← Resolution.inspect fun r => targetArchetype r rule
  let owner := ((← get).utilityClass?.map Definition.owner).getD settings.utilityOwner
  let factory := factoryFor settings owner rule
  let name := (← get).nextAnonymousName
  modify Registry.takeAnonymousName
  Resolution.located rule.source do
    let anonymous ← Resolution.inspect fun r => tables.anonymousFor r settings rule kind name
    Resolution.addAnonymous factory anonymous
    (conversionFor? rule factory).forM fun c => modify (·.addConversion c)
    addFactory rule factory
    modify (·.addRule rule.target.name rule.image)

/-- Handle all rules. The imports of a rule's unit are needed where its factory is. -/
def TableSource.addFactories (tables : TableSource) (settings : Settings)
    (units : List CompilationUnit) : Resolution Fault Unit :=
  units.forM fun unit => unit.rules.forM fun rule => do
    addUtilityImports unit.imports
    tables.handleRule settings rule

@[inherit_doc TableSource.handleRule]
abbrev handleRule := TableSource.handleRule Registry.allMethods

@[inherit_doc TableSource.addFactories]
abbrev addFactories := TableSource.addFactories Registry.allMethods

/-! ## Explicit methods -/

/-- Handle one method outside of all definitions, which has to be static. -/
def handleExplicit (unit : CompilationUnit) (m : Method) : Resolution Fault Unit := do
  if !m.isStatic then throw (.grammar m.source (.notStatic m.name))
  addUtilityImports unit.imports
  Resolution.located m.source (Resolution.addExplicit m)

/-- Register all methods outside of definitions as explicit methods. -/
def addExplicitMethods (units : List CompilationUnit) : Resolution Fault Unit :=
  units.forM fun unit => unit.methods.forM (handleExplicit unit)

end FluentGrammar
